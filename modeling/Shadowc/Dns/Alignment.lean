import Shadowc.Dns.Accesses
import Shadowc.Dns.Message
import Shadowc.Dns.RawMessage

/-!
# Where `parse_response` starts reading each answer

The parser should start each answer where the message has it.  It steps over the question section by a `strlen`, over
the RDATA of a record of type A by the length in the record, and over any other RDATA by reading a name there:
`aligned_iff` says when these agree with the lengths of the message.
-/

namespace Shadowc.Dns

open Lib Reading Memory Trace Traced

/-! ### Where the parser starts -/

def Access.answer? : Access → Option ℕ
  | .answer offset => some offset
  | _ => none

/-- The parser starts reading the answers where the message has them: the first one behind the question section, and
each further one as many bytes behind the start of the RDATA before it as that takes. -/
def Aligned (heap : Mem) (m : Message) : Prop :=
  logged Access.answer? (parseResponseTraced heap m.msg) = starts (12 + m.questionLen) m.answers

instance (heap : Mem) (m : Message) : Decidable (Aligned heap m) := by unfold Aligned; infer_instance

/-- A turn of the answer loop starts one answer. -/
theorem logged_parseRecordTraced (heap : Mem) (data : List UInt8) (r : ℕ) :
    logged Access.answer? (parseRecordTraced heap data r) = [r] := by
  have hname : ∀ reader, All (fun a => a.answer? = none) (readNameTraced heap data reader) :=
    all_readNameTraced (fun _ => rfl) heap data
  have hfirst : ∀ x : Log (ResRecord × ℕ), All (fun a => a.answer? = none) x →
      logged Access.answer? (emit (.answer r) >>= fun _ => x) = [r] := by
    intro x hx
    rw [logged_bind_ok (outcome_emit _), logged_eq_nil hx]
    rfl
  apply hfirst _
  refine all_bind.2 ⟨hname r, ?_⟩
  intro p _
  refine all_bind.2 ⟨all_lift _, ?_⟩
  intro type _
  split
  · refine all_bind.2 ⟨all_lift _, ?_⟩
    intro x _
    refine all_bind.2 ⟨all_copyBytesTraced _ _ fun _ _ => rfl, ?_⟩
    intro rdata _
    exact all_bind.2 ⟨(all_emit _).2 rfl, fun _ _ => all_pure _⟩
  · exact all_bind.2 ⟨hname _, fun _ _ => all_pure _⟩

/-- **Where the answer loop starts**: at the reader, and then where the turn leaves it, if it returns. -/
theorem logged_parseRecordsTraced (heap : Mem) (data : List UInt8) (n r : ℕ) :
    logged Access.answer? (parseRecordsTraced heap data (n + 1) r) =
      r :: match parseRecord heap data r with
        | .ok (_, r') => logged Access.answer? (parseRecordsTraced heap data n r')
        | .error _ => [] := by
  have hturn := parseRecordTraced_outcome heap data r
  cases h : parseRecord heap data r with
  | error e =>
    rw [h] at hturn
    rw [parseRecordsTraced, logged_bind_error hturn, logged_parseRecordTraced]
  | ok p =>
    rw [h] at hturn
    rw [parseRecordsTraced, logged_bind_ok hturn, logged_parseRecordTraced]
    have hrest : ∀ x : Log (List ResRecord), logged Access.answer? (x >>= fun answers => pure (p.1 :: answers)) =
        logged Access.answer? x := by
      intro x
      cases hx : x.outcome with
      | ok answers => rw [logged_bind_ok hx, logged_eq_nil (all_pure _), List.append_nil]
      | error e => exact logged_bind_error hx
    exact congrArg (r :: ·) (hrest _)

/-! ### One record -/

theorem field16_be16 {msg : List UInt8} {off v : ℕ} (h : BytesAt msg off (be16 v)) (hv : v < 65536) :
    Field16 msg off v := by
  obtain ⟨x, hx, ex, -⟩ := loadU16_be16 h hv
  exact (loadU16_iff ..).1 ⟨x, hx, ex⟩

theorem bytesAt_lt {msg bs : List UInt8} {off j : ℕ} (h : BytesAt msg off bs) (hj : j < bs.length) :
    off + j < msg.length := by
  have hget := getElem?_of_bytesAt h hj
  rw [List.getElem?_eq_getElem hj] at hget
  exact (List.getElem?_eq_some_iff.1 hget).1

/-- The type of the record, as the parser reads it. -/
theorem WireRR.At.field_type {msg : List UInt8} {off : ℕ} {r : WireRR} (h : r.At msg off) :
    Field16 msg (off + r.nameLen) r.type := by
  obtain ⟨hfields, -⟩ := bytesAt_append.1 h.fixed
  obtain ⟨hfields, -⟩ := bytesAt_append.1 hfields
  obtain ⟨htype, -⟩ := bytesAt_append.1 hfields
  exact field16_be16 htype h.type_lt

/-- The length of its RDATA. -/
theorem WireRR.At.field_dataLen {msg : List UInt8} {off : ℕ} {r : WireRR} (h : r.At msg off) :
    Field16 msg (off + r.nameLen + 8) r.rdata.length :=
  field16_be16 (bytesAt_append.1 h.fixed).2 h.dataLen_lt

/-- The owner of the record is read in as many bytes as it takes. -/
def OwnerRead (msg : List UInt8) (off : ℕ) (r : WireRR) : Prop := ∃ bs, RawName msg off bs r.nameLen

/-- The record is passed in as many bytes as it takes.  Either its owner is, and the RDATA is that of a type A record
or else is a name, as far as labels and pointers lead from its first byte on, of just the length of the RDATA; or the
owner is misread, and what is then taken for the rest of the record ends where the record does. -/
def Passed (msg : List UInt8) (off : ℕ) (r : WireRR) : Prop :=
  (OwnerRead msg off r ∧ (r.type = 1 ∨ ∃ target, RawName msg (off + r.nameLen + 10) target r.rdata.length)) ∨
  (¬ OwnerRead msg off r ∧ RawRecord msg off (off + r.len))

/-- All records but the last are passed in as many bytes as they take. -/
def AllPassed (msg : List UInt8) : ℕ → List WireRR → Prop
  | off, r :: r' :: rs => Passed msg off r ∧ AllPassed msg (off + r.len) (r' :: rs)
  | _, _ => True

theorem rawRecord_iff {msg : List UInt8} {off : ℕ} {r : WireRR} (h : r.At msg off) :
    RawRecord msg off (off + r.len) ↔ Passed msg off r := by
  have htype := h.field_type
  have hend : off + r.len = off + r.nameLen + 10 + r.rdata.length := by
    unfold WireRR.len
    omega
  by_cases hown : OwnerRead msg off r
  · have hpassed : Passed msg off r ↔
        r.type = 1 ∨ ∃ target, RawName msg (off + r.nameLen + 10) target r.rdata.length := by
      simp [Passed, hown]
    obtain ⟨owner, hk⟩ := hown
    rw [hpassed, hend]
    constructor
    · intro hraw
      generalize hr' : off + r.nameLen + 10 + r.rdata.length = r' at hraw
      cases hraw with
      | @address k len name hk' ht hl hdata =>
        obtain rfl := hk.unique hk'
        exact .inl (htype.unique ht)
      | @domain k type k' name target hk' ht hne htarget =>
        obtain rfl := hk.unique hk'
        obtain rfl : k' = r.rdata.length := by omega
        exact .inr ⟨target, htarget⟩
    · intro h'
      by_cases h1 : r.type = 1
      · exact .address hk (h1 ▸ htype) h.field_dataLen fun j hj => bytesAt_lt h.rdata hj
      · rcases h' with h1' | ⟨target, htarget⟩
        · exact absurd h1' h1
        · exact .domain hk htype h1 htarget
  · simp [Passed, hown]

/-! ### All records -/

/-- **The answer loop is aligned** exactly when every record before the last is passed in the bytes it takes. -/
theorem logged_eq_starts_iff (heap : Mem) {msg : List UInt8} {rs : List WireRR} :
    ∀ {off : ℕ}, WireRRsAt msg off rs →
      (logged Access.answer? (parseRecordsTraced heap msg rs.length off) = starts off rs ↔ AllPassed msg off rs) := by
  induction rs with
  | nil => exact fun _ => ⟨fun _ => trivial, fun _ => rfl⟩
  | cons r rs ih =>
    intro off h
    cases h with
    | cons hr hrs =>
      rw [List.length_cons, logged_parseRecordsTraced, starts, List.cons_inj_right]
      cases rs with
      | nil =>
        refine ⟨fun _ => trivial, ?_⟩
        intro _
        cases parseRecord heap msg off <;> rfl
      | cons r' rs =>
        have ih := ih hrs
        rw [AllPassed, ← ih, ← rawRecord_iff hr, ← parseRecord_ok_iff heap]
        constructor
        · intro hrest
          cases hturn : parseRecord heap msg off with
          | error e => rw [hturn] at hrest; cases hrest
          | ok p =>
            rw [hturn] at hrest
            have hnext : p.2 = off + r.len := by
              have hrest := hrest
              simp only [List.length_cons, logged_parseRecordsTraced, starts] at hrest
              exact (List.cons.inj hrest).1
            exact ⟨⟨p.1, by rw [← hnext]⟩, hnext ▸ hrest⟩
        · rintro ⟨⟨rec, hturn⟩, hrest⟩
          rw [hturn]
          exact hrest

/-- The question section is passed by a `strlen` and the four bytes behind it: the first zero byte after the header ends
the name of the last question. -/
def QuestionPassed (m : Message) : Prop := ∃ len, strlen (m.msg.drop 12) = .ok len ∧ len + 5 = m.questionLen

/-- **When `parse_response` is aligned.**  For every well-formed response, with any number of questions and answers of
any types, the parser starts the first answer right behind the question section and each further one at its first byte
exactly when there is no answer, or the question section and every record before the last are passed in as many bytes
as they take. -/
theorem aligned_iff (heap : Mem) (m : Message) :
    Aligned heap m ↔ m.answers = [] ∨ (QuestionPassed m ∧ AllPassed m.msg (12 + m.questionLen) m.answers) := by
  obtain ⟨x, hx, hcount, -⟩ := loadU16_be16 m.ancountAt m.ancount_lt
  have hat := m.answersAt
  unfold Aligned
  cases hstrlen : strlen (m.msg.drop 12) with
  | error e =>
    have hlog : logged Access.answer? (parseResponseTraced heap m.msg) = [] := by
      rw [parseResponseTraced, logged_bind_error (x := lift (strlen (m.msg.drop sizeofDnsHeader))) hstrlen]
      rfl
    rw [hlog]
    cases hanswers : m.answers with
    | nil => simp [starts]
    | cons r rs => simp [starts, QuestionPassed, hstrlen]
  | ok len =>
    have hlog : logged Access.answer? (parseResponseTraced heap m.msg) =
        logged Access.answer? (parseRecordsTraced heap m.msg m.answers.length (12 + (len + 1) + 4)) := by
      rw [parseResponseTraced, logged_bind_ok (x := lift (strlen (m.msg.drop sizeofDnsHeader))) hstrlen,
        logged_bind_ok (x := lift (loadU16 m.msg 6)) hx, hcount]
      rfl
    have hquestion : QuestionPassed m ↔ 12 + (len + 1) + 4 = 12 + m.questionLen := by
      simp only [QuestionPassed, hstrlen, Except.ok.injEq]
      constructor
      · rintro ⟨_, rfl, h⟩
        omega
      · intro h
        exact ⟨len, rfl, by omega⟩
    rw [hlog, hquestion]
    cases hanswers : m.answers with
    | nil => simp [starts, parseRecordsTraced, logged]
    | cons r rs =>
      rw [hanswers] at hat
      rw [← logged_eq_starts_iff heap hat]
      constructor
      · intro h
        have hstart : 12 + (len + 1) + 4 = 12 + m.questionLen := by
          rw [List.length_cons, logged_parseRecordsTraced, starts] at h
          exact (List.cons.inj h).1
        exact .inr ⟨hstart, hstart ▸ h⟩
      · rintro (h | ⟨hstart, h⟩)
        · cases h
        · rw [hstart]
          exact h

/-- For an owner whose labels have bytes in 1..191 only, what matters is the RDATA. -/
theorem passed_iff_of_ok {msg : List UInt8} {off : ℕ} {r : WireRR} (h : r.At msg off)
    (hls : ∀ l ∈ r.owner, Label.Ok l) :
    Passed msg off r ↔ r.type = 1 ∨ ∃ target, RawName msg (off + r.nameLen + 10) target r.rdata.length := by
  have hown : OwnerRead msg off r := ⟨_, nameAt_rawName h.owner hls⟩
  simp [Passed, hown]

/-! ### An AAAA record in front of an A record -/

/-- Question `a A IN`; answers `a AAAA 2001:db8::1` and `a A 192.0.2.1`, their owners pointers to the question. -/
def aaaaMsg : List UInt8 :=
  [18, 52, 129, 128, 0, 1, 0, 2, 0, 0, 0, 0, 1, 97, 0, 0, 1, 0, 1,
    192, 12, 0, 28, 0, 1, 0, 0, 0, 60, 0, 16, 32, 1, 13, 184, 0, 0, 0, 0, 0, 0, 0, 0, 0, 0, 0, 1,
    192, 12, 0, 1, 0, 1, 0, 0, 0, 60, 0, 4, 192, 0, 2, 1]

theorem aaaaMsg_qname : NameAt aaaaMsg 12 [[97]] 3 :=
  .label (l := [97]) (by decide) (by decide) (by decide) (.root rfl)

def aaaaReply : Message where
  msg := aaaaMsg
  qdcount := 1
  questionLen := 7
  answers := [⟨[[97]], 2, 28, 1, 60, [32, 1, 13, 184, 0, 0, 0, 0, 0, 0, 0, 0, 0, 0, 0, 1]⟩,
    ⟨[[97]], 2, 1, 1, 60, [192, 0, 2, 1]⟩]
  qr := ⟨129, rfl, by decide⟩
  qdcountAt := by decide
  ancount_lt := by decide
  ancountAt := by decide
  questions := by
    have htype : BytesAt aaaaMsg (12 + 3) (be16 1 ++ be16 1) := by decide
    exact .cons aaaaMsg_qname htype .nil
  answersAt := by
    have howner : ∀ off, aaaaMsg[off]? = some 192 → aaaaMsg[off + 1]? = some 12 → NameAt aaaaMsg off [[97]] 2 :=
      fun off h0 h1 => .pointer h0 h1 (by decide) aaaaMsg_qname
    refine .cons ⟨by decide, by decide, howner _ rfl rfl, by decide, by decide⟩ (.cons ?_ .nil)
    exact ⟨by decide, by decide, howner _ rfl rfl, by decide, by decide⟩

/-- The address is read as a name, up to its first zero byte, and the A record is started inside of it. -/
theorem aaaa_misaligned : ¬ Aligned (fun _ => 0) aaaaReply := by decide

end Shadowc.Dns
