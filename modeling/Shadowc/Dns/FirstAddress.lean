import Shadowc.Dns.Alignment
import Shadowc.Dns.Compose

/-!
# Which A record `handle_data` picks

`handle_data` takes the host name and the address of the first record that `parse_response` takes for an A record.  In
any bytes that is `FirstRead`, provided that the message is read to its end (`handleData_of_whole`).  In a
`Message` it is the first A record of the answer section when the parser comes to that record without losing its place
(`InStep`): `firstRead_iff`.
-/

namespace Shadowc.Dns

open Lib Reading Memory

/-! ### In any bytes -/

/-- With `n` records to go from `r` on, the first one that is read as an A record starts at `p`. -/
inductive FirstAt (data : List UInt8) : ℕ → ℕ → ℕ → Prop
  | here {n r k : ℕ} {name : List UInt8} : RawName data r name k → Field16 data (r + k) 1 → FirstAt data (n + 1) r r
  | next {n r r' k type p : ℕ} {name : List UInt8} : RawName data r name k → Field16 data (r + k) type → type ≠ 1 →
      RawRecord data r r' → FirstAt data n r' p → FirstAt data (n + 1) r p

/-- The record at `p`, taken for an A record, is read as one of `host` with the address `ip`. -/
def ReadsAs (heap : Mem) (data : List UInt8) (p : ℕ) (host : List UInt8) (ip : String) : Prop :=
  ∃ k len rdata, readName heap data p = .ok (host, k) ∧ Field16 data (p + k + 8) len ∧ rdata.length = len ∧
    BytesAt data (p + k + 10) rdata ∧ addressText heap rdata = ip

/-- The first record of the message that is read as an A record is read as one of `host` with the address `ip`. -/
def FirstRead (heap : Mem) (data : List UInt8) (host : List UInt8) (ip : String) : Prop :=
  ∃ len count p, strlen (data.drop sizeofDnsHeader) = .ok len ∧ Field16 data 6 count ∧
    FirstAt data count (sizeofDnsHeader + (len + 1) + sizeofQuestion) p ∧ ReadsAs heap data p host ip

theorem RawRecord.unique {data : List UInt8} {r r' r'' : ℕ} (h : RawRecord data r r') (h' : RawRecord data r r'') :
    r' = r'' := by
  obtain ⟨rec, hrec⟩ := (parseRecord_ok_iff (fun _ => 0) data r r').2 h
  obtain ⟨rec', hrec'⟩ := (parseRecord_ok_iff (fun _ => 0) data r r'').2 h'
  exact congrArg Prod.snd (Except.ok.inj (hrec.symm.trans hrec'))

/-- The copied bytes are those of the message. -/
theorem bytesAt_of_copyBytes {data bs : List UInt8} {n : ℕ} :
    ∀ {r : ℕ}, copyBytes data n r = .ok bs → bs.length = n ∧ BytesAt data r bs := by
  induction n generalizing bs with
  | zero =>
    intro r h
    cases h
    exact ⟨rfl, List.nil_prefix⟩
  | succ n ih =>
    intro r h
    obtain ⟨b, hb, h⟩ := bind_eq_ok.1 h
    obtain ⟨cs, hcs, h⟩ := bind_eq_ok.1 h
    cases h
    obtain ⟨hlen, hat⟩ := ih hcs
    exact ⟨congrArg (· + 1) hlen, bytesAt_append.2 ⟨bytesAt_one (readByte_ok hb), hat⟩⟩

/-- What one turn of the answer loop makes of a record: its type is not that of an A record, or else its name and its
bytes are read. -/
theorem parseRecord_cases {heap : Mem} {data : List UInt8} {r r' : ℕ} {rec : ResRecord}
    (h : parseRecord heap data r = .ok (rec, r')) :
    ∃ k name x, RawName data r name k ∧ loadU16 data rec.resource = .ok x ∧ Field16 data (r + k) (ntohs x) ∧
      (ntohs x = 1 → ReadsAs heap data r rec.name (addressText heap rec.rdata)) := by
  obtain ⟨⟨host, k⟩, hname, h⟩ := bind_eq_ok.1 h
  obtain ⟨x, hx, h⟩ := bind_eq_ok.1 h
  obtain ⟨name, hk⟩ := (readName_ok_iff heap data r k).1 ⟨host, hname⟩
  have htype : Field16 data (r + k) (ntohs x) := (loadU16_iff ..).1 ⟨x, hx, rfl⟩
  split at h
  · obtain ⟨len, hlen, h⟩ := bind_eq_ok.1 h
    obtain ⟨rdata, hcopy, h⟩ := bind_eq_ok.1 h
    cases h
    obtain ⟨hlength, hat⟩ := bytesAt_of_copyBytes hcopy
    exact ⟨k, name, x, hk, hx, htype, fun _ =>
      ⟨k, ntohs len, rdata, hname, (loadU16_iff ..).1 ⟨len, hlen, rfl⟩, hlength, hat, rfl⟩⟩
  · next h1 =>
    obtain ⟨⟨rdata, k'⟩, -, h⟩ := bind_eq_ok.1 h
    cases h
    exact ⟨k, name, x, hk, hx, htype, fun h => absurd h h1⟩

theorem firstAt_succ {data : List UInt8} {n r r' k type p : ℕ} {name : List UInt8} (hk : RawName data r name k)
    (ht : Field16 data (r + k) type) (hr : RawRecord data r r') :
    FirstAt data (n + 1) r p ↔ if type = 1 then p = r else FirstAt data n r' p := by
  constructor
  · intro h
    cases h with
    | here hk' ht' =>
      obtain rfl := hk.unique hk'
      rw [if_pos (ht.unique ht')]
    | next hk' ht' hne hr' h =>
      obtain rfl := hk.unique hk'
      obtain rfl := ht.unique ht'
      obtain rfl := hr.unique hr'
      rwa [if_neg hne]
  · intro h
    split at h
    · next h1 =>
      subst h h1
      exact .here hk ht
    · next h1 => exact .next hk ht h1 hr h

/-- A record of another type is no A record, whatever becomes of it. -/
theorem not_firstAt_one {data : List UInt8} {r k type p : ℕ} {name : List UInt8} (hk : RawName data r name k)
    (ht : Field16 data (r + k) type) (h1 : type ≠ 1) : ¬ FirstAt data 1 r p := by
  intro h
  cases h with
  | here hk' ht' =>
    obtain rfl := hk.unique hk'
    exact h1 (ht.unique ht')
  | next _ _ _ _ hp => cases hp

/-- An A record is the first one, whatever becomes of it. -/
theorem firstAt_here {data : List UInt8} {n r k p : ℕ} {name : List UInt8} (hk : RawName data r name k)
    (ht : Field16 data (r + k) 1) : FirstAt data (n + 1) r p ↔ p = r := by
  constructor
  · intro h
    cases h with
    | here => rfl
    | next hk' ht' hne =>
      obtain rfl := hk.unique hk'
      exact absurd (ht'.unique ht) hne
  · rintro rfl
    exact .here hk ht

/-- A record that is read as one of a host with an address is read as one of no other. -/
theorem ReadsAs.unique {heap : Mem} {data : List UInt8} {p : ℕ} {host host' : List UInt8} {ip ip' : String}
    (h : ReadsAs heap data p host ip) (h' : ReadsAs heap data p host' ip') : host = host' ∧ ip = ip' := by
  obtain ⟨k, len, rdata, hname, hlen, rfl, hat, rfl⟩ := h
  obtain ⟨k', len', rdata', hname', hlen', rfl, hat', rfl⟩ := h'
  obtain ⟨rfl, rfl⟩ := Prod.mk.inj (Except.ok.inj (hname.symm.trans hname'))
  have hlength := hlen.unique hlen'
  obtain rfl := (List.prefix_of_prefix_length_le hat hat' hlength.le).eq_of_length hlength
  exact ⟨rfl, rfl⟩

/-- **The loop of `handle_data` picks the first record that is read as an A record.** -/
theorem firstAddress_parseRecords (heap : Mem) {data : List UInt8} (n : ℕ) :
    ∀ {r : ℕ} {recs : List ResRecord}, parseRecords heap data n r = .ok recs →
      ∃ first, firstAddress heap data recs = .ok first ∧
        ∀ host ip, first = some (host, ip) ↔ ∃ p, FirstAt data n r p ∧ ReadsAs heap data p host ip := by
  induction n with
  | zero =>
    intro r recs h
    cases h
    refine ⟨none, rfl, fun host ip => ⟨nofun, ?_⟩⟩
    rintro ⟨p, hp, -⟩
    cases hp
  | succ n ih =>
    intro r recs h
    obtain ⟨⟨rec, r'⟩, hrec, h⟩ := bind_eq_ok.1 h
    obtain ⟨rest, hrest, h⟩ := bind_eq_ok.1 h
    cases h
    have hraw := (parseRecord_ok_iff heap data r r').1 ⟨rec, hrec⟩
    obtain ⟨k, name, x, hk, hx, ht, hread⟩ := parseRecord_cases hrec
    by_cases h1 : ntohs x = 1
    · refine ⟨some (rec.name, addressText heap rec.rdata), ?_, fun host ip => ?_⟩
      · have hA : ntohs x = qtypeA := h1
        simp only [firstAddress, hx, Bind.bind, Except.bind, if_pos hA]
        rfl
      · simp only [firstAt_succ hk ht hraw, if_pos h1, exists_eq_left, Option.some.injEq, Prod.mk.injEq]
        constructor
        · rintro ⟨rfl, rfl⟩
          exact hread h1
        · exact fun h => (hread h1).unique h
    · obtain ⟨first, hfirst, hiff⟩ := ih hrest
      refine ⟨first, ?_, fun host ip => ?_⟩
      · have hA : ¬ ntohs x = qtypeA := h1
        simp only [firstAddress, hx, Bind.bind, Except.bind, if_neg hA]
        exact hfirst
      · simp only [firstAt_succ hk ht hraw, if_neg h1]
        exact hiff host ip

theorem firstAddress_parseResponse {heap : Mem} {data : List UInt8} {recs : List ResRecord}
    (h : parseResponse heap data = .ok recs) :
    ∃ first, firstAddress heap data recs = .ok first ∧
      ∀ host ip, first = some (host, ip) ↔ FirstRead heap data host ip := by
  obtain ⟨len, hlen, h⟩ := bind_eq_ok.1 h
  obtain ⟨x, hx, h⟩ := bind_eq_ok.1 h
  obtain ⟨first, hfirst, hiff⟩ := firstAddress_parseRecords heap (ntohs x) h
  have hcount : Field16 data 6 (ntohs x) := (loadU16_iff ..).1 ⟨x, hx, rfl⟩
  refine ⟨first, hfirst, fun host ip => (hiff host ip).trans ?_⟩
  constructor
  · rintro ⟨p, hp, hread⟩
    exact ⟨len, ntohs x, p, hlen, hcount, hp, hread⟩
  · rintro ⟨len', count, p, hlen', hcount', hp, hread⟩
    obtain rfl := Except.ok.inj (hlen.symm.trans hlen')
    obtain rfl := hcount.unique hcount'
    exact ⟨p, hp, hread⟩

section Resolver

variable {Cb : Type} {env : Env} {s : Resolver Cb} {data : List UInt8}

/-- **What `handle_data` does with a message that is read to its end**: the calls for the host name that is read first,
and nothing when no address is read. -/
theorem handleData_of_whole (env : Env) (s : Resolver Cb) (h : Whole data) :
    (∃ host ip, FirstRead env.heap data host ip ∧ s.handleData env data = .ok (s.callCallback host ip)) ∨
      (∀ host ip, ¬ FirstRead env.heap data host ip) ∧ s.handleData env data = .ok (s, []) := by
  obtain ⟨recs, hrecs⟩ := (parseResponse_ok_iff env.heap data).2 h
  obtain ⟨first, hfirst, hiff⟩ := firstAddress_parseResponse hrecs
  cases first with
  | none =>
    refine .inr ⟨fun host ip h => Option.some_ne_none _ ((hiff host ip).2 h).symm, ?_⟩
    simp only [Resolver.handleData, hrecs, hfirst, Bind.bind, Except.bind]
    rfl
  | some p =>
    refine .inl ⟨p.1, p.2, (hiff p.1 p.2).1 rfl, ?_⟩
    simp only [Resolver.handleData, hrecs, hfirst, Bind.bind, Except.bind]
    rfl

/-- `handle_data` returns from no other messages. -/
theorem whole_of_handleData {p : Resolver Cb × List (Invocation Cb)} (h : s.handleData env data = .ok p) :
    Whole data := by
  obtain ⟨recs, hrecs, -⟩ := bind_eq_ok.1 h
  exact (parseResponse_ok_iff env.heap data).1 ⟨recs, hrecs⟩

theorem FirstRead.unique {heap : Mem} {host host' : List UInt8} {ip ip' : String} (h : FirstRead heap data host ip)
    (h' : FirstRead heap data host' ip') (hw : Whole data) : host = host' ∧ ip = ip' := by
  obtain ⟨recs, hrecs⟩ := (parseResponse_ok_iff heap data).2 hw
  obtain ⟨first, -, hiff⟩ := firstAddress_parseResponse hrecs
  exact Prod.mk.inj (Option.some.inj (((hiff host ip).2 h).symm.trans ((hiff host' ip').2 h')))

theorem handleData_firstRead (s : Resolver Cb) (hw : Whole data) {host : List UInt8} {ip : String}
    (hf : FirstRead env.heap data host ip) : s.handleData env data = .ok (s.callCallback host ip) := by
  rcases handleData_of_whole env s hw with ⟨host', ip', hf', hd⟩ | ⟨hnone, -⟩
  · obtain ⟨rfl, rfl⟩ := hf.unique hf' hw
    exact hd
  · exact absurd hf (hnone host ip)

end Resolver

/-! ### In a message -/

/-- The address of an A record, as text. -/
def WireRR.address? (r : WireRR) : Option String :=
  match r.rdata with
  | [a, b, c, d] => some (dottedQuad a b c d)
  | _ => none

/-- The first A record of an answer section. -/
def firstARecord (rs : List WireRR) : Option WireRR := rs.find? fun r => r.type = 1

/-- The owners of the records up to the first A record have labels of bytes in 1..191, and the RDATA of those before it
is, as far as labels and pointers lead from its first byte on, a name of just its length.  The RDATA of the last record
does not matter. -/
def LeadsToA (msg : List UInt8) : ℕ → List WireRR → Prop
  | _, [] => True
  | off, r :: rs => (∀ l ∈ r.owner, Label.Ok l) ∧
      (r.type = 1 ∨ rs = [] ∨ (∃ target, RawName msg (off + r.nameLen + 10) target r.rdata.length) ∧
        LeadsToA msg (off + r.len) rs)

/-- The parser comes to the first A record of the message without losing its place. -/
def InStep (m : Message) : Prop :=
  m.answers = [] ∨ QuestionPassed m ∧ LeadsToA m.msg (12 + m.questionLen) m.answers

/-- Records that are all passed lead to the first A record. -/
theorem leadsToA_of_passed {msg : List UInt8} (rs : List WireRR) : ∀ {off : ℕ}, WireRRsAt msg off rs →
    (∀ r ∈ rs, ∀ l ∈ r.owner, Label.Ok l) → AllPassed msg off rs → LeadsToA msg off rs := by
  induction rs with
  | nil => intros; trivial
  | cons r rs ih =>
    intro off hat hls hall
    cases hat with
    | cons hr hrs =>
      refine ⟨hls r (by simp), ?_⟩
      cases rs with
      | nil => exact .inr (.inl rfl)
      | cons r' rs =>
        have hrest := ih hrs (fun r' hr' => hls r' (List.mem_cons_of_mem _ hr')) hall.2
        exact ((passed_iff_of_ok hr (hls r (by simp))).1 hall.1).imp_right fun h => .inr ⟨h, hrest⟩

/-- **A message that is read in alignment is read in step**, when its owner names have labels of bytes in 1..191. -/
theorem inStep_of_passed {m : Message} (hls : ∀ r ∈ m.answers, ∀ l ∈ r.owner, Label.Ok l) (hq : QuestionPassed m)
    (hall : AllPassed m.msg (12 + m.questionLen) m.answers) : InStep m :=
  .inr ⟨hq, leadsToA_of_passed m.answers m.answersAt hls hall⟩

theorem readsAs_at (heap : Mem) {msg : List UInt8} {off : ℕ} {r : WireRR} (h : r.At msg off)
    (hls : ∀ l ∈ r.owner, Label.Ok l) (hlen : r.rdata.length = 4) {host : List UInt8} {ip : String} :
    ReadsAs heap msg off host ip ↔ dotted r.owner = host ∧ r.address? = some ip := by
  obtain ⟨a, b, c, d, hrdata⟩ : ∃ a b c d, r.rdata = [a, b, c, d] := List.length_eq_four.1 hlen
  have haddress : addressText heap r.rdata = dottedQuad a b c d := by
    rw [hrdata]
    exact addressText_octets heap a b c d
  have hself : ReadsAs heap msg off (dotted r.owner) (dottedQuad a b c d) :=
    ⟨r.nameLen, r.rdata.length, r.rdata, readName_labels heap h.owner hls, h.field_dataLen, rfl, h.rdata, haddress⟩
  have hip : r.address? = some ip ↔ dottedQuad a b c d = ip := by simp [WireRR.address?, hrdata]
  rw [hip]
  constructor
  · exact fun h' => hself.unique h'
  · rintro ⟨rfl, rfl⟩
    exact hself

/-- **The first record that is read as an A record** is the first A record, when the parser comes to it in step. -/
theorem firstAt_iff (heap : Mem) {msg : List UInt8} {host : List UInt8} {ip : String} (rs : List WireRR) :
    ∀ {off : ℕ}, WireRRsAt msg off rs → LeadsToA msg off rs → (∀ r ∈ rs, r.type = 1 → r.rdata.length = 4) →
      ((∃ p, FirstAt msg rs.length off p ∧ ReadsAs heap msg p host ip) ↔
        ∃ r, firstARecord rs = some r ∧ dotted r.owner = host ∧ r.address? = some ip) := by
  induction rs with
  | nil =>
    intro off _ _ _
    refine ⟨?_, by simp [firstARecord]⟩
    rintro ⟨p, hp, -⟩
    cases hp
  | cons r rs ih =>
    intro off hat hlead hlen
    cases hat with
    | cons hr hrs =>
      obtain ⟨hls, hlead⟩ := hlead
      have hk := nameAt_rawName hr.owner hls
      have ht := hr.field_type
      by_cases h1 : r.type = 1
      · have hfirst : firstARecord (r :: rs) = some r := by simp [firstARecord, h1]
        simp only [hfirst, Option.some.injEq, exists_eq_left', List.length_cons, firstAt_here hk (h1 ▸ ht),
          exists_eq_left]
        exact readsAs_at heap hr hls (hlen r (by simp) h1)
      · have hfirst : firstARecord (r :: rs) = firstARecord rs := by simp [firstARecord, h1]
        rw [hfirst]
        rcases hlead.resolve_left h1 with rfl | ⟨⟨target, htarget⟩, hrest⟩
        · refine ⟨?_, by simp [firstARecord]⟩
          rintro ⟨p, hp, -⟩
          exact absurd hp (not_firstAt_one hk ht h1)
        have hraw : RawRecord msg off (off + r.len) :=
          (rawRecord_iff hr).2 (.inl ⟨⟨_, hk⟩, .inr ⟨target, htarget⟩⟩)
        simp only [List.length_cons, firstAt_succ hk ht hraw, if_neg h1]
        exact ih hrs hrest fun r' hr' => hlen r' (List.mem_cons_of_mem _ hr')

/-- **In a message that the parser reads in step** it picks the first A record. -/
theorem firstRead_iff (heap : Mem) {m : Message} (hin : InStep m) (hlen : m.AddressesOk) {host : List UInt8}
    {ip : String} :
    FirstRead heap m.msg host ip ↔ ∃ r, firstARecord m.answers = some r ∧ dotted r.owner = host ∧
      r.address? = some ip := by
  have hcount : Field16 m.msg 6 m.answers.length := field16_be16 m.ancountAt m.ancount_lt
  rcases hin with hnone | ⟨⟨len, hstrlen, hquestion⟩, hlead⟩
  · rw [hnone] at hcount
    simp only [hnone, firstARecord, List.find?_nil]
    refine ⟨?_, by simp⟩
    rintro ⟨len, count, p, -, hcount', hp, -⟩
    obtain rfl := hcount.unique hcount'
    cases hp
  · rw [← firstAt_iff heap m.answers m.answersAt hlead hlen]
    have hstart : sizeofDnsHeader + (len + 1) + sizeofQuestion = 12 + m.questionLen := by
      simp only [sizeofDnsHeader, sizeofQuestion]
      omega
    constructor
    · rintro ⟨len', count, p, hstrlen', hcount', hp, hread⟩
      obtain rfl := Except.ok.inj (hstrlen.symm.trans hstrlen')
      obtain rfl := hcount.unique hcount'
      rw [hstart] at hp
      exact ⟨p, hp, hread⟩
    · rintro ⟨p, hp, hread⟩
      exact ⟨len, _, p, hstrlen, hcount, hstart.symm ▸ hp, hread⟩

/-- The parser reads the message as it is: to its end, and in step up to its first A record. -/
structure Legible (m : Message) : Prop where
  addresses : m.AddressesOk
  whole : Whole m.msg
  inStep : InStep m

theorem address_of_firstARecord {m : Message} (hm : m.AddressesOk) {r : WireRR}
    (hr : firstARecord m.answers = some r) : r ∈ m.answers ∧ r.type = 1 ∧ ∃ ip, r.address? = some ip := by
  have hmem := List.mem_of_find?_eq_some hr
  have htype : r.type = 1 := by simpa using List.find?_some hr
  obtain ⟨a, b, c, d, hrdata⟩ : ∃ a b c d, r.rdata = [a, b, c, d] := List.length_eq_four.1 (hm r hmem htype)
  exact ⟨hmem, htype, dottedQuad a b c d, by simp [WireRR.address?, hrdata]⟩

/-- **What `handle_data` does with a legible message**: the calls for the owner of its first A record. -/
theorem Legible.handleData {Cb : Type} {m : Message} (hm : Legible m) (env : Env) (s : Resolver Cb) {r : WireRR}
    (hr : firstARecord m.answers = some r) :
    ∃ ip, r.address? = some ip ∧ s.handleData env m.msg = .ok (s.callCallback (dotted r.owner) ip) := by
  obtain ⟨-, -, ip, hip⟩ := address_of_firstARecord hm.addresses hr
  exact ⟨ip, hip, handleData_firstRead s hm.whole ((firstRead_iff env.heap hm.inStep hm.addresses).2 ⟨r, hr, rfl, hip⟩)⟩

/-! ### Responses -/

/-- What lies in place of the RDATA. -/
theorem rdata_inPlace {msg : List UInt8} {off : ℕ} {r : RR} (hr : r.Ok) (h : r.DataAt msg off) :
    ∃ bs, bs.length = r.dataLen ∧ BytesAt msg off bs ∧ (r.type = 1 → bs.length = 4) ∧
      (r.type = 1 ∨ ∃ target, RawName msg off target bs.length) := by
  have hrd := hr.2.2.2.2.2
  unfold RR.DataAt at h
  cases hrdata : r.rdata with
  | address a b c d =>
    simp only [hrdata] at hrd h
    exact ⟨[a, b, c, d], hrd.2.symm, h, fun _ => rfl, .inl hrd.1⟩
  | domain target =>
    simp only [hrdata] at hrd h
    have hraw := nameAt_rawName h hrd.2.2.1
    rcases h.inPlace with ⟨hat, hn⟩ | ⟨front, hi, lo, -, hat, -, hn⟩
    · have hlen : (encodeLabels target ++ [0]).length = r.dataLen := by simp [hn]
      exact ⟨_, hlen, hat, fun h1 => absurd h1 hrd.1, .inr ⟨_, hlen.symm ▸ hraw⟩⟩
    · have hlen : (encodeLabels front ++ [hi, lo]).length = r.dataLen := by simp [hn]
      exact ⟨_, hlen, hat, fun h1 => absurd h1 hrd.1, .inr ⟨_, hlen.symm ▸ hraw⟩⟩

theorem wireRRsAt_of_answersAt {msg : List UInt8} {off : ℕ} {rs : List RR} (h : AnswersAt msg off rs) :
    ∃ ws : List WireRR, ws.length = rs.length ∧ WireRRsAt msg off ws ∧ LeadsToA msg off ws ∧
      ∀ w ∈ ws, w.type = 1 → w.rdata.length = 4 := by
  induction h with
  | nil => exact ⟨[], rfl, .nil, trivial, by simp⟩
  | @cons off n r rs hr hat _ ih =>
    obtain ⟨ws, hlength, hws, hlead, haddress⟩ := ih
    obtain ⟨k, hname, hfixed, hdata, rfl⟩ := hat
    obtain ⟨bs, hlen, hbytes, hfour, htarget⟩ := rdata_inPlace hr hdata
    have hend : off + (k + 10 + r.dataLen) = off + WireRR.len ⟨r.owner, k, r.type, r.class_, r.ttl, bs⟩ := by
      rw [← hlen]
      rfl
    rw [hend] at hws hlead
    refine ⟨⟨r.owner, k, r.type, r.class_, r.ttl, bs⟩ :: ws, congrArg (· + 1) hlength, .cons ?_ hws,
      ⟨hr.1.2.1, htarget.imp_right fun htarget => .inr ⟨htarget, hlead⟩⟩, ?_⟩
    · refine ⟨hr.2.1, by simpa [hlen] using hr.2.2.2.2.1, hname, ?_, hbytes⟩
      rw [hlen]
      exact hfixed
    · simpa using ⟨hfour, haddress⟩

theorem whole_response (m : Response) : Whole m.msg := by
  obtain ⟨recs, hrecs, -⟩ := parseResponse_response (fun _ => 0) m
  exact (parseResponse_ok_iff _ _).1 ⟨recs, hrecs⟩

/-- **Every response whose RDATA are addresses and single names is legible.** -/
theorem exists_legible (m : Response) : ∃ m' : Message, m'.msg = m.msg ∧ Legible m' := by
  obtain ⟨ws, hlength, hws, hlead, haddress⟩ := wireRRsAt_of_answersAt m.answersAt
  have hquestions := questionsAt_bytes (fun l hl => ⟨(m.qname_ok l hl).1, (m.qname_ok l hl).2.1⟩) m.question
  refine ⟨⟨m.msg, 1, _, ws, m.qr, m.qdcount, hlength ▸ m.ancount_lt, hlength ▸ m.ancount, hquestions, hws⟩, rfl,
    haddress, whole_response m, .inr ⟨⟨_, strlen_question m, ?_⟩, hlead⟩⟩
  simp [questionBytes, be16]

end Shadowc.Dns
