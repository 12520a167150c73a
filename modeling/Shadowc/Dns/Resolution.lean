import Shadowc.Dns.FirstAddress

/-!
# Resolution, end to end

A resolver that is asked for a host name gets an answer section that resolves it: an A record owned by the name, or a
chain of CNAME records and an A record of the last alias, with records of other names and types anywhere between them
(`ResolvesTo`).  `Served` is what the callers of `resolve` want from such a reply.

`handle_data` calls back under the owner of the record that it takes for the first A record.  The callers are served
exactly when that is the registered host name, letter for letter: `served_iff`.
-/

namespace Shadowc.Dns

open Lib Reading Memory

/-! ### What a reply says of a name -/

/-- ASCII letters in lower case. -/
def lower (b : UInt8) : UInt8 := if 65 ≤ b.toNat ∧ b.toNat ≤ 90 then b + 32 else b

/-- Domain names are compared without regard to case. -/
def SameName (a b : Name) : Prop := a.map (List.map lower) = b.map (List.map lower)

instance (a b : Name) : Decidable (SameName a b) := by unfold SameName; infer_instance

/-- The records that follow each other from offset `off` on resolve the name `h` to the address `ip`: directly, or
through aliases that come before the address in the order of the chain. -/
inductive ResolvesTo (msg : List UInt8) : ℕ → List WireRR → Name → String → Prop
  | address {off : ℕ} {h : Name} {r : WireRR} {rs : List WireRR} {ip : String} : SameName r.owner h → r.type = 1 →
      r.class_ = 1 → r.address? = some ip → ResolvesTo msg off (r :: rs) h ip
  | chain {off : ℕ} {h target : Name} {r : WireRR} {rs : List WireRR} {ip : String} : SameName r.owner h →
      r.type = 5 → r.class_ = 1 → NameAt msg (off + r.nameLen + 10) target r.rdata.length →
      ResolvesTo msg (off + r.len) rs target ip → ResolvesTo msg off (r :: rs) h ip
  | other {off : ℕ} {h : Name} {r : WireRR} {rs : List WireRR} {ip : String} : ResolvesTo msg (off + r.len) rs h ip →
      ResolvesTo msg off (r :: rs) h ip

/-- The message has one question, the A query for `h`. -/
def Asks (m : Message) (h : Name) : Prop :=
  m.qdcount = 1 ∧ ∃ qname k, NameAt m.msg 12 qname k ∧ SameName qname h ∧ BytesAt m.msg (12 + k) (be16 1 ++ be16 1)

/-- The message is a reply to the A query for `h` that resolves it. -/
structure RepliesTo (m : Message) (h : Name) (ip : String) : Prop where
  question : Asks m h
  addresses : m.AddressesOk
  resolves : ResolvesTo m.msg (12 + m.questionLen) m.answers h ip

/-! ### What the callers want -/

variable {Cb : Type}

/-- Every callback pending for `h` is called once with `h` and `ip`, none is left, and no other is called. -/
def Served (env : Env) (s : Resolver Cb) (h : Host) (ip : String) (data : List UInt8) : Prop :=
  ∃ s' calls, s.handleData env data = .ok (s', calls) ∧
    calls.Perm ((s.pending h).map fun callback => { callback, hostname := h, ip }) ∧ s'.pending h = []

/-- The callers of a host name are served exactly by the messages that are read to their end, and of which its address
is read first. -/
theorem served_iff_firstRead (env : Env) (s : Resolver Cb) {h : Host} {ip : String} {data : List UInt8}
    (hp : s.pending h ≠ []) : Served env s h ip data ↔ Whole data ∧ FirstRead env.heap data h ip := by
  constructor
  · rintro ⟨s', calls, hs, hcalls, hnone⟩
    have hw := whole_of_handleData hs
    refine ⟨hw, ?_⟩
    rcases handleData_of_whole env s hw with ⟨host, ip', hf, hd⟩ | ⟨-, hd⟩
    · have e := Except.ok.inj (hs.symm.trans hd)
      obtain rfl : s' = (s.callCallback host ip').1 := congrArg Prod.fst e
      obtain rfl : calls = (s.callCallback host ip').2 := congrArg Prod.snd e
      obtain rfl : h = host := by
        by_contra hne
        rw [Resolver.pending_callCallback, if_neg hne] at hnone
        exact hp hnone
      -- some callback is called, and with one address only
      obtain ⟨callback, hcallback⟩ := List.exists_mem_of_ne_nil _ hp
      rw [Resolver.callCallback_calls] at hcalls
      obtain ⟨callback', -, hi⟩ := List.mem_map.1 (hcalls.subset (List.mem_map_of_mem hcallback))
      obtain rfl : ip = ip' := (Invocation.mk.inj hi).2.2
      exact hf
    · obtain rfl : s' = s := congrArg Prod.fst (Except.ok.inj (hs.symm.trans hd))
      exact absurd hnone hp
  · rintro ⟨hw, hf⟩
    refine ⟨(s.callCallback h ip).1, (s.callCallback h ip).2, handleData_firstRead s hw hf, ?_, ?_⟩
    · rw [Resolver.callCallback_calls]
    · rw [Resolver.pending_callCallback, if_pos rfl]

/-- **When a reply serves the callers of a host name.**  For every reply that resolves the name, with records of any
types: exactly when it is read to its end, and the first record that is read as an A record has that very name, letter
for letter, and the address.  When the parser comes to the first A record without losing its place, that record has to
have them. -/
theorem served_iff (env : Env) (s : Resolver Cb) {m : Message} {h : Name} {ip : String} (hm : RepliesTo m h ip)
    (hp : s.pending (dotted h) ≠ []) :
    (Served env s (dotted h) ip m.msg ↔ Whole m.msg ∧ FirstRead env.heap m.msg (dotted h) ip) ∧
    (InStep m → (Served env s (dotted h) ip m.msg ↔ Whole m.msg ∧
      ∃ r, firstARecord m.answers = some r ∧ dotted r.owner = dotted h ∧ r.address? = some ip)) := by
  have hserved : Served env s (dotted h) ip m.msg ↔ Whole m.msg ∧ FirstRead env.heap m.msg (dotted h) ip :=
    served_iff_firstRead env s hp
  refine ⟨hserved, fun hin => ?_⟩
  rw [hserved, firstRead_iff env.heap hin hm.addresses]

/-! ### One host name, with and without an alias -/

theorem name_ok_a : Name.Ok [[97]] := by decide

theorem name_ok_b : Name.Ok [[98]] := by decide

/-- The resolver after `resolve("a", cb)`. -/
def askedForA : Resolver Unit := (Resolver.init.resolve .zero [97] ()).1

/-- The answer `a A 192.0.2.1`, with other bytes behind it. -/
def addressReply (trailer : List UInt8) : Response :=
  .plain [[97]] [.a [[97]] 192 0 2 1] trailer name_ok_a (by decide) (by simpa using RR.plain_a name_ok_a 192 0 2 1)

def directReply : Response := addressReply []

/-- The answers `a CNAME b`, `b A 192.0.2.1`. -/
def aliasReply : Response :=
  .plain [[97]] [.cname [[97]] [[98]], .a [[98]] 192 0 2 1] [] name_ok_a (by decide)
    (by simpa using ⟨RR.plain_cname name_ok_a name_ok_b, RR.plain_a name_ok_b 192 0 2 1⟩)

/-- The same messages, with their records as they lie in them. -/
def directMessage : Message :=
  .plain [[97]] [.a [[97]] 192 0 2 1] [] name_ok_a (by decide) (by simpa using RR.plain_a name_ok_a 192 0 2 1)

def aliasMessage : Message :=
  .plain [[97]] [.cname [[97]] [[98]], .a [[98]] 192 0 2 1] [] name_ok_a (by decide)
    (by simpa using ⟨RR.plain_cname name_ok_a name_ok_b, RR.plain_a name_ok_b 192 0 2 1⟩)

/-- The name of one label `l` at offset `off`. -/
theorem nameAt_one {msg : List UInt8} {off : ℕ} {b : UInt8} (h : BytesAt msg off [1, b, 0]) :
    NameAt msg off [[b]] 3 := by
  obtain ⟨hlabel, hroot⟩ := bytesAt_append.1 (show BytesAt msg off ([1, b] ++ [0]) from h)
  exact .label (l := [b]) (by simp) (by simp) hlabel (.root (getElem?_bytesAt (i := 0) hroot rfl))

theorem directMessage_asks : Asks directMessage [[97]] := ⟨rfl, [[97]], 3, nameAt_one (by decide), rfl, by decide⟩

theorem directMessage_repliesTo : RepliesTo directMessage [[97]] "192.0.2.1" :=
  ⟨directMessage_asks, by decide, .address rfl rfl rfl (by decide)⟩

theorem directMessage_inStep : InStep directMessage :=
  inStep_of_passed (by decide) ⟨2, rfl, rfl⟩ trivial

theorem askedForA_pending : askedForA.pending [97] = [()] := by decide

theorem served_iff_direct : Served .zero askedForA [97] "192.0.2.1" directMessage.msg :=
  ((served_iff .zero askedForA directMessage_repliesTo (by decide)).2 directMessage_inStep).2
    ⟨whole_response directReply, _, rfl, rfl, by decide⟩

/-- The caller of `resolve("a", cb)` hears nothing of an address that comes through an alias. -/
theorem not_served_through_alias :
    RepliesTo aliasMessage [[97]] "192.0.2.1" ∧ askedForA.pending [97] = [()] ∧
      ¬ Served .zero askedForA [97] "192.0.2.1" aliasMessage.msg := by
  have hasks : Asks aliasMessage [[97]] := ⟨rfl, [[97]], 3, nameAt_one (by decide), rfl, by decide⟩
  have htarget : NameAt aliasMessage.msg 32 [[98]] 3 := nameAt_one (by decide)
  refine ⟨⟨hasks, by decide, .chain rfl rfl rfl htarget (.address rfl rfl rfl (by decide))⟩, askedForA_pending, ?_⟩
  rintro ⟨s', calls, hs, -, hnone⟩
  have hd : askedForA.handleData .zero aliasMessage.msg = .ok (askedForA.callCallback [98] "192.0.2.1") :=
    handleData_response .zero askedForA aliasReply
  obtain rfl : s' = (askedForA.callCallback [98] "192.0.2.1").1 := congrArg Prod.fst (Except.ok.inj (hs.symm.trans hd))
  rw [Resolver.pending_callCallback, if_neg (by decide), askedForA_pending] at hnone
  cases hnone

end Shadowc.Dns
