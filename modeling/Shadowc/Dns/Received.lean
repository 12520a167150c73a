import Shadowc.Dns.Events
import Shadowc.Dns.RawMessage
import Shadowc.Dns.Resolution

/-!
# Which bytes of the receive buffer matter

`handle_event` gives the whole buffer to `handle_data`, whatever `recvfrom` returned.  The parser is local: it looks
at bytes one by one from the front, along pointers, and stops.  So when the datagram holds every byte it looks at
(`Complete`), what stands after the datagram makes no difference (`handleEvent_eq_of_complete`).

A datagram that is cut short, or none at all, is completed by the bytes of the stack: for every return value below the
size of the buffer there are two buffers that agree on the received bytes and have different outcomes
(`received_bytes_decide`).
-/

namespace Shadowc.Dns

open Lib Reading EventLoop

/-! ### The parser is local -/

theorem scanStep_local (s : Scan) : Local fun b => scanStep b s := by
  unfold scanStep
  apply (Local.readByte _).bind
  intro x
  refine Local.ite (.const _) (.ite ?_ (.const _))
  exact (Local.readByte _).bind fun lo => .const _

theorem scanLoop_local (n : ℕ) (s : Scan) : Local fun b => scanLoop b n s := by
  induction n generalizing s with
  | zero => exact .const _
  | succ n ih =>
    simp only [scanLoop_succ]
    apply (scanStep_local s).bind
    intro next
    cases next with
    | none => exact .const _
    | some s' => exact ih s'

/-- The turns that the loop is given grow with the buffer, and make no difference to its end. -/
theorem scan_local (s : Scan) : Local fun b => scanLoop b (b.length + 1) s := by
  intro b c h
  have hmore : scanLoop b ((b ++ c).length + 1) s = scanLoop b (b.length + 1) s := by
    by_cases hh : scanLoop b (b.length + 1) s = .error .hang
    · rw [hh, (scanLoop_hang_iff b s).1 hh]
    · exact scanLoop_mono (by simp) hh
  have hloc := scanLoop_local ((b ++ c).length + 1) s b c fun h' => h (hmore.symm.trans h')
  exact hloc.trans hmore

theorem readName_local (heap : Memory.Mem) (r : ℕ) : Local fun b => readName heap b r :=
  (scan_local (Scan.start heap r)).bind fun _ => .const _

theorem loadU16_local (i : ℕ) : Local fun b => loadU16 b i :=
  (Local.readByte i).bind fun _ => (Local.readByte (i + 1)).bind fun _ => .const _

theorem copyBytes_local (n r : ℕ) : Local fun b => copyBytes b n r := by
  induction n generalizing r with
  | zero => exact .const _
  | succ n ih => exact (Local.readByte r).bind fun x => (ih (r + 1)).bind fun _ => .const _

theorem parseRecord_local (heap : Memory.Mem) (r : ℕ) : Local fun b => parseRecord heap b r := by
  apply (readName_local heap r).bind
  intro p
  apply (loadU16_local _).bind
  intro type
  refine Local.ite ?_ ?_
  · exact (loadU16_local _).bind fun len => (copyBytes_local _ _).bind fun _ => .const _
  · exact (readName_local heap _).bind fun _ => .const _

theorem parseRecords_local (heap : Memory.Mem) (n r : ℕ) : Local fun b => parseRecords heap b n r := by
  induction n generalizing r with
  | zero => exact .const _
  | succ n ih => exact (parseRecord_local heap r).bind fun p => (ih p.2).bind fun _ => .const _

theorem parseResponse_local (heap : Memory.Mem) : Local (parseResponse heap) :=
  (Local.strlen.drop sizeofDnsHeader).bind fun _ => (loadU16_local 6).bind fun _ => parseRecords_local heap _ _

theorem firstAddress_local (heap : Memory.Mem) (answers : List ResRecord) :
    Local fun b => firstAddress heap b answers := by
  induction answers with
  | nil => exact .const _
  | cons ans answers ih => exact (loadU16_local _).bind fun type => .ite (.const _) ih

variable {Cb : Type}

theorem handleData_local (env : Env) (s : Resolver Cb) : Local fun b => s.handleData env b := by
  apply (parseResponse_local env.heap).bind
  intro answers
  apply (firstAddress_local env.heap answers).bind
  intro first
  cases first <;> exact .const _

/-! ### Datagrams that are complete -/

/-- The type of every parsed record has been read. -/
theorem parseRecord_type {heap : Memory.Mem} {data : List UInt8} {r r' : ℕ} {rec : ResRecord}
    (h : parseRecord heap data r = .ok (rec, r')) : ∃ x, loadU16 data rec.resource = .ok x := by
  obtain ⟨p, -, h⟩ := bind_eq_ok.1 h
  obtain ⟨type, ht, h⟩ := bind_eq_ok.1 h
  refine ⟨type, ?_⟩
  split at h
  · obtain ⟨len, -, h⟩ := bind_eq_ok.1 h
    obtain ⟨rdata, -, h⟩ := bind_eq_ok.1 h
    cases h
    exact ht
  · obtain ⟨q, -, h⟩ := bind_eq_ok.1 h
    cases h
    exact ht

theorem parseRecords_type {heap : Memory.Mem} {data : List UInt8} {n r : ℕ} {recs : List ResRecord}
    (h : parseRecords heap data n r = .ok recs) : ∀ rec ∈ recs, ∃ x, loadU16 data rec.resource = .ok x := by
  induction n generalizing r recs with
  | zero => cases h; simp
  | succ n ih =>
    obtain ⟨p, hp, h⟩ := bind_eq_ok.1 h
    obtain ⟨rest, hrest, h⟩ := bind_eq_ok.1 h
    cases h
    intro rec hrec
    rcases List.mem_cons.1 hrec with rfl | hrec
    · exact parseRecord_type hp
    · exact ih hrest rec hrec

theorem parseResponse_type {heap : Memory.Mem} {data : List UInt8} {recs : List ResRecord}
    (h : parseResponse heap data = .ok recs) : ∀ rec ∈ recs, ∃ x, loadU16 data rec.resource = .ok x := by
  obtain ⟨len, -, h⟩ := bind_eq_ok.1 h
  obtain ⟨count, -, h⟩ := bind_eq_ok.1 h
  exact parseRecords_type h

theorem firstAddress_ok {heap : Memory.Mem} {data : List UInt8} {recs : List ResRecord}
    (h : ∀ rec ∈ recs, ∃ x, loadU16 data rec.resource = .ok x) : ∃ first, firstAddress heap data recs = .ok first := by
  induction recs with
  | nil => exact ⟨none, rfl⟩
  | cons rec recs ih =>
    obtain ⟨x, hx⟩ := h rec (by simp)
    obtain ⟨first, hfirst⟩ := ih fun rec' hrec => h rec' (List.mem_cons_of_mem _ hrec)
    simp only [firstAddress, hx, Bind.bind, Except.bind]
    split
    · exact ⟨_, rfl⟩
    · exact ⟨first, hfirst⟩

/-- What `handle_data` looks at, `parse_response` has looked at before. -/
theorem handleData_outcome (env : Env) (s : Resolver Cb) (data : List UInt8) :
    (∃ e, parseResponse env.heap data = .error e ∧ s.handleData env data = .error e) ∨
    ∃ answers r, parseResponse env.heap data = .ok answers ∧ s.handleData env data = .ok r := by
  unfold Resolver.handleData
  cases hp : parseResponse env.heap data with
  | error e => exact .inl ⟨e, rfl, rfl⟩
  | ok answers =>
    obtain ⟨first, hfirst⟩ : ∃ first, firstAddress env.heap data answers = .ok first :=
      firstAddress_ok (parseResponse_type hp)
    cases first with
    | none => exact .inr ⟨answers, (s, []), rfl,
        bind_eq_ok.2 ⟨answers, rfl, bind_eq_ok.2 ⟨none, hfirst, rfl⟩⟩⟩
    | some p => exact .inr ⟨answers, s.callCallback p.1 p.2, rfl,
        bind_eq_ok.2 ⟨answers, rfl, bind_eq_ok.2 ⟨some p, hfirst, rfl⟩⟩⟩

theorem handleData_ne_oob {env : Env} {data : List UInt8} (h : Complete data) (s : Resolver Cb) :
    s.handleData env data ≠ .error .oob := by
  intro hoob
  rcases handleData_outcome env s data with ⟨e, hp, hd⟩ | ⟨answers, r, -, hd⟩
  · obtain rfl : e = .oob := Except.error.inj (hd.symm.trans hoob)
    exact (complete_iff env.heap data).1 h hp
  · cases hd.symm.trans hoob

/-- **A complete datagram decides**: what stands behind it in the buffer makes no difference. -/
theorem handleEvent_eq_of_complete {env : Env} (s : Resolver Cb) (evt : Event) (nread : ℤ) {b c : List UInt8}
    (hbc : b.take nread.toNat = c.take nread.toNat) (h : Complete (b.take nread.toNat)) :
    s.handleEvent env evt ⟨nread, b⟩ = s.handleEvent env evt ⟨nread, c⟩ := by
  unfold Resolver.handleEvent
  rw [(handleData_local env s).eq_of_take hbc (handleData_ne_oob h s)]

/-- A well-formed response is complete. -/
theorem Response.complete (m : Response) : Complete m.msg := by
  obtain ⟨recs, hrecs, -⟩ := parseResponse_response (fun _ => 0) m
  exact .inl ((parseResponse_ok_iff _ m.msg).1 ⟨recs, hrecs⟩)

/-! ### Datagrams that are not -/

/-- Aliases of `a`, which take 988 bytes. -/
def fillers : List RR := .cname [[97]] [List.replicate 13 98] :: List.replicate 60 (.cname [[97]] [[98]])

/-- The answers of a reply that fills the buffer: its last byte is the last octet of the address of `a`. -/
def fullAnswers (d : UInt8) : List RR := fillers ++ [.a [[97]] 192 0 2 d]

theorem fullAnswers_plain (d : UInt8) : ∀ r ∈ fullAnswers d, r.Plain := by
  intro r hr
  simp only [fullAnswers, fillers, List.cons_append, List.mem_cons, List.mem_append, List.mem_replicate,
    List.not_mem_nil, or_false] at hr
  rcases hr with rfl | ⟨-, rfl⟩ | rfl
  · exact RR.plain_cname name_ok_a (by decide)
  · exact RR.plain_cname name_ok_a name_ok_b
  · exact RR.plain_a name_ok_a 192 0 2 d

def fullReply (d : UInt8) : Response :=
  .plain [[97]] (fullAnswers d) [] name_ok_a (by simp [fullAnswers, fillers]) (fullAnswers_plain d)

/-- What the replies have in common. -/
def fullStart : List UInt8 :=
  replyHeader 62 ++ (questionBytes [[97]] 1 1 ++ (fillers.flatMap RR.bytes ++
    (encodeLabels [[97]] ++ [0] ++ (RR.a [[97]] 192 0 2 0).fixed ++ [192, 0, 2])))

theorem length_fullStart : fullStart.length = 1023 := by
  decide +kernel

theorem fullReply_msg (d : UInt8) : (fullReply d).msg = fullStart ++ [d] := by
  have hlen : (fullAnswers d).length = 62 := rfl
  have hlast : (RR.a [[97]] 192 0 2 d).bytes =
      encodeLabels [[97]] ++ [0] ++ (RR.a [[97]] 192 0 2 0).fixed ++ [192, 0, 2] ++ [d] := rfl
  have hmsg : (fullReply d).msg = replyBytes [[97]] (fullAnswers d) ++ [] := rfl
  rw [hmsg, replyBytes, hlen, fullAnswers, List.flatMap_append, List.flatMap_singleton, hlast, fullStart]
  simp only [List.append_assoc, List.append_nil]

theorem fullReply_firstA (d : UInt8) : firstA (fullReply d).answers = some ([[97]], dottedQuad 192 0 2 d) := by
  simp [fullReply, Response.plain, firstA, fullAnswers, fillers, List.findSome?_append, RR.cname, RR.a, RR.address?,
    -List.reduceReplicate]

/-- The resolver after `resolve("a", cb)`, with a socket. -/
def listening : Resolver Unit := { askedForA with dnsSocket := 5 }

/-- The resolver's socket is readable. -/
def readable : Event := { events := epollIn, fd := 5 }

/-- The resolver makes the call a response asks for, whatever `recvfrom` returned. -/
theorem listening_calls (nread : ℤ) {m : Response} {ip : String} (h : firstA m.answers = some ([[97]], ip)) :
    listening.handleEvent .zero readable ⟨nread, m.msg⟩ =
      .ok ((listening.callCallback [97] ip).1, [{ callback := (), hostname := [97], ip }], none) := by
  have hd := handleData_response .zero listening m
  rw [h] at hd
  have hcalls : (listening.callCallback [97] ip).2 = [{ callback := (), hostname := [97], ip }] := by
    rw [Resolver.callCallback_calls]
    rfl
  refine bind_eq_ok.2 ⟨_, hd, ?_⟩
  rw [← hcalls]
  rfl

/-- With the return value `nread` the outcome depends on nothing but the bytes received. -/
def ReceivedOnly (nread : ℤ) : Prop :=
  ∀ (Cb : Type) (env : Env) (s : Resolver Cb) (evt : Event) (b c : List UInt8), b.length = bufSize →
    c.length = bufSize → b.take nread.toNat = c.take nread.toNat →
    s.handleEvent env evt ⟨nread, b⟩ = s.handleEvent env evt ⟨nread, c⟩

theorem receivedOnly_full : ReceivedOnly bufSize := by
  intro Cb env s evt b c hb hc hbc
  have hb' : b.take bufSize = b := List.take_of_length_le hb.le
  have hc' : c.take bufSize = c := List.take_of_length_le hc.le
  rw [Int.toNat_natCast, hb', hc'] at hbc
  rw [hbc]

/-- The last byte of the buffer makes a difference to every shorter datagram. -/
theorem not_receivedOnly {nread : ℤ} (h : nread < bufSize) : ¬ ReceivedOnly nread := by
  intro hr
  have hlen : ∀ d, (fullReply d).msg.length = bufSize := fun d => by
    rw [fullReply_msg, List.length_append, length_fullStart]
    rfl
  have htake : ∀ d, (fullReply d).msg.take nread.toNat = fullStart.take nread.toNat := fun d => by
    rw [fullReply_msg, List.take_append_of_le_length]
    rw [length_fullStart]
    simp only [bufSize] at h
    omega
  have heq := hr Unit .zero listening readable (fullReply 1).msg (fullReply 2).msg (hlen 1) (hlen 2)
    (by rw [htake, htake])
  rw [listening_calls nread (fullReply_firstA 1), listening_calls nread (fullReply_firstA 2)] at heq
  have hcalls := congrArg (fun p => p.2.1) (Except.ok.inj heq)
  revert hcalls
  decide

/-- **Which received bytes decide.**  A datagram that holds every byte `parse_response` looks at decides alone.  In
general nothing short of a full buffer does: `recvfrom` may fail or return less, and the rest of the buffer is parsed
all the same. -/
theorem received_bytes_decide (nread : ℤ) (hle : nread ≤ bufSize) :
    (∀ (Cb : Type) (env : Env) (s : Resolver Cb) (evt : Event) (b c : List UInt8),
      b.take nread.toNat = c.take nread.toNat → Complete (b.take nread.toNat) →
      s.handleEvent env evt ⟨nread, b⟩ = s.handleEvent env evt ⟨nread, c⟩) ∧
    (ReceivedOnly nread ↔ nread = bufSize) := by
  refine ⟨fun Cb env s evt b c hbc h => handleEvent_eq_of_complete s evt nread hbc h, ?_⟩
  constructor
  · intro hr
    by_contra hne
    exact not_receivedOnly (by omega) hr
  · rintro rfl
    exact receivedOnly_full

/-- A buffer in which an earlier reply is left, and one that holds an empty answer section. -/
def staleBuffer : Response := addressReply (List.replicate 988 0)

def emptyBuffer : List UInt8 := List.replicate 1024 0

theorem staleBuffer_take : staleBuffer.msg.take 36 = directReply.msg := by
  decide +kernel

/-- The reply `a A 192.0.2.1` decides alone, whatever the stack held; no reception that failed does in general. -/
theorem received_bytes_decide_complete :
    listening.handleEvent .zero readable ⟨36, staleBuffer.msg⟩ =
      listening.handleEvent .zero readable ⟨36, directReply.msg ++ List.replicate 988 255⟩ ∧
    (ReceivedOnly (-1) ↔ (-1 : ℤ) = bufSize) := by
  refine ⟨(received_bytes_decide 36 (by decide)).1 Unit .zero listening readable _ _ ?_ ?_,
    (received_bytes_decide (-1) (by decide)).2⟩
  · decide +kernel
  · have htake : staleBuffer.msg.take (36 : ℤ).toNat = directReply.msg := staleBuffer_take
    rw [htake]
    exact directReply.complete

/-- A reception that failed calls back, or not, as the stack has it. -/
theorem failed_reception_calls :
    staleBuffer.msg.length = bufSize ∧ emptyBuffer.length = bufSize ∧
      listening.handleEvent .zero readable ⟨-1, staleBuffer.msg⟩ = .ok ((listening.callCallback [97] "192.0.2.1").1,
        [{ callback := (), hostname := [97], ip := "192.0.2.1" }], none) ∧
      listening.handleEvent .zero readable ⟨-1, emptyBuffer⟩ = .ok (listening, [], none) := by
  refine ⟨by decide +kernel, List.length_replicate .., listening_calls (-1) (by decide), ?_⟩
  rfl

end Shadowc.Dns
