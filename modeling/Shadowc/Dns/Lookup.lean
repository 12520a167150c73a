import Shadowc.Dns.Compose
import Shadowc.Dns.Encoders

/-!
# `ngethostbyname` of `dns.c`

The client reads all three sections of a reply into arrays of 20 records and prints them.  `data` is the whole of its
array `buf` after the reply has been received.  `ReadName` is the function that the resolver has as `read_name`, so
`readName` stands for both.

* `report_eq`: what is printed of a well-formed reply, and which replies are too long;
* `answers_agree`: on every input the client and `parse_response` read the same answers.
-/

namespace Shadowc.Dns.Lookup

open Lib Reading Memory

/-! ### Reading -/

/-- The entries of `answers`, `auth` and `addit`. -/
def capacity : ℕ := 20

/-- Whether the RDATA of the record is an address.  The loop over the authorities does not ask. -/
def isAddress (data : List UInt8) (addresses : Bool) (resource : ℕ) : Run Bool :=
  if addresses then do return decide (ntohs (← loadU16 data resource) = 1) else return false

/-- One turn of a reading loop: the record for entry `i`, and the reader after it.  A store behind the array is an
access out of bounds. -/
def readRecord (heap : Mem) (data : List UInt8) (addresses : Bool) (i reader : ℕ) : Run (ResRecord × ℕ) := do
  let (name, stop) ← readName heap data reader
  if i < capacity then
    let resource := reader + stop
    let reader := resource + sizeofRData
    if ← isAddress data addresses resource then
      let dataLen := ntohs (← loadU16 data (resource + 8))
      let rdata ← copyBytes data dataLen reader
      return ({ name, resource, rdata }, reader + dataLen)
    else
      let (rdata, stop) ← readName heap data reader
      return ({ name, resource, rdata }, reader + stop)
  else .error .oob

/-- A reading loop at entry `i`, with `n` records to go. -/
def readRecords (heap : Mem) (data : List UInt8) (addresses : Bool) : ℕ → ℕ → ℕ → Run (List ResRecord × ℕ)
  | 0, _, reader => return ([], reader)
  | n + 1, i, reader => do
    let (record, reader) ← readRecord heap data addresses i reader
    let (records, reader) ← readRecords heap data addresses n (i + 1) reader
    return (record :: records, reader)

/-- The three arrays, as far as they are filled. -/
structure Reply where
  answers : List ResRecord
  auth : List ResRecord
  addit : List ResRecord

def readReply (heap : Mem) (data : List UInt8) : Run Reply := do
  let qnameLen ← strlen (data.drop sizeofDnsHeader)
  let reader := sizeofDnsHeader + (qnameLen + 1) + sizeofQuestion
  let (answers, reader) ← readRecords heap data true (ntohs (← loadU16 data 6)) 0 reader
  let (auth, reader) ← readRecords heap data false (ntohs (← loadU16 data 8)) 0 reader
  let (addit, _) ← readRecords heap data true (ntohs (← loadU16 data 10)) 0 reader
  return { answers, auth, addit }

/-! ### Printing -/

def text (s : String) : List UInt8 := s.toUTF8.toList

/-- `T_A` and the types 2 and 5. -/
def typeA : ℕ := 1
def typeNs : ℕ := 2
def typeCname : ℕ := 5

/-- What the line of a record says behind the name, by the type of the record. -/
def answerShows (heap : Mem) (type : ℕ) (rdata : List UInt8) : List UInt8 :=
  (if type = typeA then text "has IPv4 address : " ++ text (addressText heap rdata) else []) ++
    if type = typeCname then text "has alias name : " ++ rdata else []

def authShows (type : ℕ) (rdata : List UInt8) : List UInt8 :=
  if type = typeNs then text "has nameserver : " ++ rdata else []

def additShows (heap : Mem) (type : ℕ) (rdata : List UInt8) : List UInt8 :=
  if type = typeA then text "has IPv4 address : " ++ text (addressText heap rdata) else []

/-- The lines of a section. -/
def printRecords (shows : ℕ → List UInt8 → List UInt8) (data : List UInt8) : List ResRecord → Run (List UInt8)
  | [] => return []
  | record :: records => do
    let type ← loadU16 data record.resource
    let lines ← printRecords shows data records
    return text "Name : " ++ record.name ++ text " " ++ shows (ntohs type) record.rdata ++ text "\n" ++ lines

/-- What is printed of a reply, from the count of the questions on. -/
def report (heap : Mem) (data : List UInt8) : Run (List UInt8) := do
  let qCount := ntohs (← loadU16 data 4)
  let ansCount := ntohs (← loadU16 data 6)
  let authCount := ntohs (← loadU16 data 8)
  let addCount := ntohs (← loadU16 data 10)
  let reply ← readReply heap data
  let answers ← printRecords (answerShows heap) data reply.answers
  let auth ← printRecords authShows data reply.auth
  let addit ← printRecords (additShows heap) data reply.addit
  return text ("\n " ++ toString qCount ++ " Questions.") ++
    text ("\n " ++ toString ansCount ++ " Answers.") ++
    text ("\n " ++ toString authCount ++ " Authoritative Servers.") ++
    text ("\n " ++ toString addCount ++ " Additional records.\n\n") ++
    text ("\nAnswer Records : " ++ toString ansCount ++ " \n") ++ answers ++
    text ("\nAuthoritive Records : " ++ toString authCount ++ " \n") ++ auth ++
    text ("\nAdditional Records : " ++ toString addCount ++ " \n") ++ addit

/-! ### The loops, beside those of the resolver -/

/-- Within the array a turn for an answer is a turn of `parse_response`. -/
theorem readRecord_answer (heap : Mem) (data : List UInt8) {i : ℕ} (hi : i < capacity) (reader : ℕ) :
    readRecord heap data true i reader = parseRecord heap data reader := by
  unfold readRecord parseRecord
  cases readName heap data reader with
  | error e => rfl
  | ok p =>
    simp only [Bind.bind, Except.bind, if_pos hi, isAddress, if_true]
    cases loadU16 data (reader + p.2) with
    | error e => rfl
    | ok type =>
      simp only [pure, Except.pure, decide_eq_true_eq]

/-- A turn for an authority is one of `parse_response` too, if the record is not of type A. -/
theorem readRecord_auth (heap : Mem) {data : List UInt8} {i : ℕ} (hi : i < capacity) {reader stop type : ℕ}
    {name : List UInt8} (hname : readName heap data reader = .ok (name, stop))
    (htype : loadU16 data (reader + stop) = .ok type) (hne : ntohs type ≠ 1) :
    readRecord heap data false i reader = parseRecord heap data reader := by
  simp only [readRecord, parseRecord, hname, htype, Bind.bind, Except.bind, if_pos hi, isAddress, pure, Except.pure,
    Bool.false_eq_true, if_false, if_neg hne]

/-- Behind the array nothing is read but a name. -/
theorem readRecord_full (heap : Mem) {data : List UInt8} (addresses : Bool) {i : ℕ} (hi : ¬ i < capacity)
    {reader : ℕ} {p : List UInt8 × ℕ} (hname : readName heap data reader = .ok p) :
    readRecord heap data addresses i reader = .error .oob := by
  simp only [readRecord, hname, Bind.bind, Except.bind, if_neg hi]

/-- **The answers of the client are those of `parse_response`**, and there is room for them. -/
theorem readRecords_answers (heap : Mem) (data : List UInt8) (n : ℕ) : ∀ {i reader : ℕ} {records : List ResRecord}
    {reader' : ℕ}, readRecords heap data true n i reader = .ok (records, reader') →
      parseRecords heap data n reader = .ok records ∧ records.length = n ∧ (n ≠ 0 → i + n ≤ capacity) := by
  induction n with
  | zero =>
    intro i reader records reader' h
    cases h
    exact ⟨rfl, rfl, fun h => absurd rfl h⟩
  | succ n ih =>
    intro i reader records reader' h
    obtain ⟨⟨record, r₁⟩, hrecord, h⟩ := bind_eq_ok.1 h
    obtain ⟨⟨rest, r₂⟩, hrest, h⟩ := bind_eq_ok.1 h
    cases h
    have hi : i < capacity := by
      by_contra hi
      obtain ⟨p, hname, h⟩ := bind_eq_ok.1 hrecord
      simp only [if_neg hi] at h
      cases h
    obtain ⟨hparse, hlen, hroom⟩ := ih hrest
    rw [readRecord_answer heap data hi] at hrecord
    refine ⟨?_, by simp [hlen], fun _ => ?_⟩
    · simp only [parseRecords, hrecord, hparse, Bind.bind, Except.bind]
      rfl
    · by_cases hn : n = 0
      · omega
      · have := hroom hn
        omega

theorem parseRecords_length {heap : Mem} {data : List UInt8} {n : ℕ} : ∀ {reader : ℕ} {records : List ResRecord},
    parseRecords heap data n reader = .ok records → records.length = n := by
  induction n with
  | zero =>
    intro reader records h
    cases h
    rfl
  | succ n ih =>
    intro reader records h
    obtain ⟨⟨record, r₁⟩, -, h⟩ := bind_eq_ok.1 h
    obtain ⟨rest, hrest, h⟩ := bind_eq_ok.1 h
    cases h
    rw [List.length_cons, ih hrest]

/-- The records that `parse_response` reads go into the array as long as it has room. -/
theorem readRecords_of_parseRecords (heap : Mem) {data : List UInt8} {n : ℕ} : ∀ {i reader : ℕ}
    {records : List ResRecord}, parseRecords heap data n reader = .ok records → capacity < i + n → i ≤ capacity →
      readRecords heap data true n i reader = .error .oob := by
  induction n with
  | zero => intro i reader records _ h h'; omega
  | succ n ih =>
    intro i reader records h hroom hi
    obtain ⟨⟨record, r₁⟩, hrecord, h⟩ := bind_eq_ok.1 h
    obtain ⟨rest, hrest, -⟩ := bind_eq_ok.1 h
    rw [readRecords]
    by_cases hlt : i < capacity
    · rw [readRecord_answer heap data hlt, hrecord]
      exact bind_eq_error.2 (.inr ⟨_, rfl, bind_eq_error.2 (.inl (ih hrest (by omega) (by omega)))⟩)
    · obtain ⟨p, hname, -⟩ := bind_eq_ok.1 hrecord
      rw [readRecord_full heap true hlt hname]
      rfl

/-- **On every input the two programs read the same answers.**  When the client has read a reply, `parse_response`
returns the answers it has; and when `parse_response` returns more than 20 of them, the client writes behind its
array. -/
theorem answers_agree (heap : Mem) (data : List UInt8) :
    (∀ reply, readReply heap data = .ok reply → parseResponse heap data = .ok reply.answers ∧
      reply.answers.length ≤ capacity) ∧
    ∀ answers, parseResponse heap data = .ok answers → capacity < answers.length →
      readReply heap data = .error .oob := by
  constructor
  · intro reply h
    obtain ⟨qnameLen, hstrlen, h⟩ := bind_eq_ok.1 h
    obtain ⟨count, hcount, h⟩ := bind_eq_ok.1 h
    obtain ⟨⟨answers, r₁⟩, hanswers, h⟩ := bind_eq_ok.1 h
    obtain ⟨authCount, -, h⟩ := bind_eq_ok.1 h
    obtain ⟨⟨auth, r₂⟩, -, h⟩ := bind_eq_ok.1 h
    obtain ⟨addCount, -, h⟩ := bind_eq_ok.1 h
    obtain ⟨⟨addit, r₃⟩, -, h⟩ := bind_eq_ok.1 h
    cases h
    obtain ⟨hparse, hlen, hroom⟩ := readRecords_answers heap data _ hanswers
    refine ⟨?_, ?_⟩
    · simp only [parseResponse, hstrlen, hcount, Bind.bind, Except.bind]
      exact hparse
    · show answers.length ≤ capacity
      by_cases h0 : ntohs count = 0
      · omega
      · have := hroom h0
        omega
  · intro answers h hroom
    obtain ⟨qnameLen, hstrlen, h⟩ := bind_eq_ok.1 h
    obtain ⟨count, hcount, h⟩ := bind_eq_ok.1 h
    have hlen : answers.length = ntohs count := parseRecords_length h
    have hfull := readRecords_of_parseRecords heap (i := 0) h (by omega) (by decide)
    simp only [readReply, hstrlen, hcount, Bind.bind, Except.bind]
    rw [hfull]

/-! ### Well-formed replies -/

/-- The records `rs` follow each other from offset `off` on, up to offset `stop`. -/
inductive SectionAt (msg : List UInt8) : ℕ → List RR → ℕ → Prop
  | nil {off : ℕ} : SectionAt msg off [] off
  | cons {off n stop : ℕ} {r : RR} {rs : List RR} : r.Ok → r.At msg off n → SectionAt msg (off + n) rs stop →
      SectionAt msg off (r :: rs) stop

/-- A well-formed reply with one question and three sections of records.  An authority is given by its name. -/
structure FullResponse where
  msg : List UInt8
  qname : Name
  qtype : ℕ
  qclass : ℕ
  answers : List RR
  authority : List RR
  additional : List RR
  answersEnd : ℕ
  authorityEnd : ℕ
  additionalEnd : ℕ
  qdcount : BytesAt msg 4 (be16 1)
  ancount_lt : answers.length < 65536
  ancount : BytesAt msg 6 (be16 answers.length)
  nscount_lt : authority.length < 65536
  nscount : BytesAt msg 8 (be16 authority.length)
  arcount_lt : additional.length < 65536
  arcount : BytesAt msg 10 (be16 additional.length)
  qname_ok : ∀ l ∈ qname, 0 < l.length ∧ l.length < 64 ∧ ∀ b ∈ l, b ≠ 0
  question : BytesAt msg 12 (questionBytes qname qtype qclass)
  answersAt : SectionAt msg (12 + (questionBytes qname qtype qclass).length) answers answersEnd
  authorityAt : SectionAt msg answersEnd authority authorityEnd
  authority_domain : ∀ r ∈ authority, ∃ target, r.rdata = .domain target
  additionalAt : SectionAt msg authorityEnd additional additionalEnd

/-- What the line of an answer says behind the name, -/
def answerText (r : RR) : List UInt8 :=
  match r.rdata with
  | .address a b c d => text "has IPv4 address : " ++ text (dottedQuad a b c d)
  | .domain target => if r.type = typeCname then text "has alias name : " ++ dotted target else []

/-- that of an authority, -/
def authText (r : RR) : List UInt8 :=
  match r.rdata with
  | .address .. => []
  | .domain target => if r.type = typeNs then text "has nameserver : " ++ dotted target else []

/-- and that of an additional record. -/
def additText (r : RR) : List UInt8 :=
  match r.rdata with
  | .address a b c d => text "has IPv4 address : " ++ text (dottedQuad a b c d)
  | .domain _ => []

/-- The lines of a section. -/
def sectionText (words : RR → List UInt8) (rs : List RR) : List UInt8 :=
  rs.flatMap fun r => text "Name : " ++ dotted r.owner ++ text " " ++ words r ++ text "\n"

/-- What should be printed of a reply. -/
def FullResponse.printed (m : FullResponse) : List UInt8 :=
  text ("\n " ++ toString 1 ++ " Questions.") ++
    text ("\n " ++ toString m.answers.length ++ " Answers.") ++
    text ("\n " ++ toString m.authority.length ++ " Authoritative Servers.") ++
    text ("\n " ++ toString m.additional.length ++ " Additional records.\n\n") ++
    text ("\nAnswer Records : " ++ toString m.answers.length ++ " \n") ++ sectionText answerText m.answers ++
    text ("\nAuthoritive Records : " ++ toString m.authority.length ++ " \n") ++ sectionText authText m.authority ++
    text ("\nAdditional Records : " ++ toString m.additional.length ++ " \n") ++ sectionText additText m.additional

/-- The reply fits into the three arrays. -/
def FullResponse.Fits (m : FullResponse) : Prop :=
  m.answers.length ≤ capacity ∧ m.authority.length ≤ capacity ∧ m.additional.length ≤ capacity

instance (m : FullResponse) : Decidable m.Fits := by unfold FullResponse.Fits; infer_instance

/-- The owner of a record, as a reading loop finds it. -/
theorem readName_owner (heap : Mem) {msg : List UInt8} {off n : ℕ} {r : RR} (hr : r.Ok) (h : r.At msg off n) :
    ∃ k f, readName heap msg off = .ok (dotted r.owner, k) ∧ loadU16 msg (off + k) = .ok f ∧ ntohs f = r.type := by
  obtain ⟨k, hname, hfixed, -, -⟩ := h
  obtain ⟨f, hload, etype, -⟩ := rdata_load hfixed hr
  exact ⟨k, f.type, readName_nameAt heap hname hr.1, (rdata_load_fields hload).1, etype⟩

/-- The RDATA is read in the way that the loop reads it. -/
def ReadAs (addresses : Bool) (r : RR) : Prop := addresses = true ∨ ∃ target, r.rdata = .domain target

theorem readRecord_at (heap : Mem) {msg : List UInt8} {addresses : Bool} {i off n : ℕ} {r : RR} (hi : i < capacity)
    (hr : r.Ok) (h : r.At msg off n) (hread : ReadAs addresses r) :
    ∃ rec, readRecord heap msg addresses i off = .ok (rec, off + n) ∧ Decodes msg rec r := by
  obtain ⟨rec, hrec, hdec⟩ := parseRecord_at heap hr h
  refine ⟨rec, ?_, hdec⟩
  cases addresses with
  | true => rw [readRecord_answer heap msg hi, hrec]
  | false =>
    obtain ⟨k, f, hname, hload, etype⟩ := readName_owner heap hr h
    have hne : ntohs f ≠ 1 := by
      obtain ⟨target, htarget⟩ := hread.resolve_left Bool.false_ne_true
      have hrd := hr.2.2.2.2.2
      rw [htarget] at hrd
      rw [etype]
      exact hrd.1
    rw [readRecord_auth heap hi hname hload hne, hrec]

/-- **One section**: its records go into the array, if there is room for them. -/
theorem readRecords_section (heap : Mem) (addresses : Bool) {msg : List UInt8} {off stop : ℕ} {rs : List RR}
    (h : SectionAt msg off rs stop) : ∀ {i : ℕ}, (∀ r ∈ rs, ReadAs addresses r) → i ≤ capacity →
      (i + rs.length ≤ capacity → ∃ recs, readRecords heap msg addresses rs.length i off = .ok (recs, stop) ∧
        List.Forall₂ (Decodes msg) recs rs) ∧
      (capacity < i + rs.length → readRecords heap msg addresses rs.length i off = .error .oob) := by
  induction h with
  | nil =>
    intro i _ hi
    refine ⟨fun _ => ⟨[], rfl, .nil⟩, fun hroom => ?_⟩
    rw [List.length_nil] at hroom
    omega
  | @cons off n stop r rs hr hat _ ih =>
    intro i hread hi
    by_cases hlt : i < capacity
    · obtain ⟨rec, hrec, hdec⟩ := readRecord_at heap hlt hr hat (hread r (by simp))
      obtain ⟨hfit, hfull⟩ := ih (i := i + 1) (fun r' hr' => hread r' (List.mem_cons_of_mem _ hr')) hlt
      constructor
      · intro hroom
        obtain ⟨recs, hrecs, hall⟩ := hfit (by rw [List.length_cons] at hroom; omega)
        refine ⟨rec :: recs, ?_, .cons hdec hall⟩
        simp only [List.length_cons, readRecords, hrec, hrecs, Bind.bind, Except.bind]
        rfl
      · intro hroom
        have hrecs := hfull (by rw [List.length_cons] at hroom; omega)
        simp only [List.length_cons, readRecords, hrec, hrecs, Bind.bind, Except.bind]
    · constructor
      · intro hroom
        rw [List.length_cons] at hroom
        omega
      · intro _
        obtain ⟨k, f, hname, -, -⟩ := readName_owner heap hr hat
        simp only [List.length_cons, readRecords, readRecord_full heap addresses hlt hname, Bind.bind, Except.bind]

/-- The lines of the records of a section. -/
theorem printRecords_section {msg : List UInt8} (shows : ℕ → List UInt8 → List UInt8) (words : RR → List UInt8)
    {recs : List ResRecord} {rs : List RR} (h : List.Forall₂ (Decodes msg) recs rs)
    (hshows : ∀ r ∈ rs, ∀ rec, Decodes msg rec r → shows r.type rec.rdata = words r) :
    printRecords shows msg recs = .ok (sectionText words rs) := by
  induction h with
  | nil => rfl
  | @cons rec r recs rs hdec _ ih =>
    obtain ⟨f, hload, etype, -⟩ := hdec.resource
    have ih := ih fun r' hr' => hshows r' (List.mem_cons_of_mem _ hr')
    simp only [printRecords, (rdata_load_fields hload).1, ih, Bind.bind, Except.bind, etype,
      hshows r (by simp) rec hdec, hdec.name]
    rfl

theorem SectionAt.ok {msg : List UInt8} {off stop : ℕ} {rs : List RR} (h : SectionAt msg off rs stop) :
    ∀ r ∈ rs, r.Ok := by
  induction h with
  | nil => simp
  | cons hr _ _ ih =>
    intro r' hr'
    rcases List.mem_cons.1 hr' with rfl | hr'
    · exact hr
    · exact ih r' hr'

theorem answerShows_eq (heap : Mem) {msg : List UInt8} {rec : ResRecord} {r : RR} (hr : r.Ok)
    (h : Decodes msg rec r) : answerShows heap r.type rec.rdata = answerText r := by
  have hrd := hr.2.2.2.2.2
  have hdata := h.rdata
  unfold answerShows answerText
  cases hrdata : r.rdata with
  | address a b c d =>
    rw [hrdata] at hrd hdata
    rw [hdata, addressText_octets, hrd.1]
    exact List.append_nil _
  | domain target =>
    rw [hrdata] at hrd hdata
    rw [hdata, if_neg (show r.type ≠ typeA from hrd.1), List.nil_append]

theorem authShows_eq {msg : List UInt8} {rec : ResRecord} {r : RR} (hr : ∃ target, r.rdata = .domain target)
    (h : Decodes msg rec r) : authShows r.type rec.rdata = authText r := by
  obtain ⟨target, hrdata⟩ := hr
  have hdata := h.rdata
  rw [hrdata] at hdata
  simp only [authShows, authText, hrdata, hdata]

theorem additShows_eq (heap : Mem) {msg : List UInt8} {rec : ResRecord} {r : RR} (hr : r.Ok)
    (h : Decodes msg rec r) : additShows heap r.type rec.rdata = additText r := by
  have hrd := hr.2.2.2.2.2
  have hdata := h.rdata
  unfold additShows additText
  cases hrdata : r.rdata with
  | address a b c d =>
    rw [hrdata] at hrd hdata
    rw [hdata, addressText_octets, hrd.1]
    rfl
  | domain target =>
    rw [hrdata] at hrd
    exact if_neg (show r.type ≠ typeA from hrd.1)

/-- The parsed records of a reply say what the reply says. -/
structure Reads (m : FullResponse) (reply : Reply) : Prop where
  answers : List.Forall₂ (Decodes m.msg) reply.answers m.answers
  auth : List.Forall₂ (Decodes m.msg) reply.auth m.authority
  addit : List.Forall₂ (Decodes m.msg) reply.addit m.additional

/-- **The three loops**, one after the other. -/
theorem readReply_full (heap : Mem) (m : FullResponse) :
    (m.Fits → ∃ reply, readReply heap m.msg = .ok reply ∧ Reads m reply) ∧
      (¬ m.Fits → readReply heap m.msg = .error .oob) := by
  obtain ⟨an, han, ean, -⟩ := loadU16_be16 m.ancount m.ancount_lt
  obtain ⟨ns, hns, ens, -⟩ := loadU16_be16 m.nscount m.nscount_lt
  obtain ⟨ar, har, ear, -⟩ := loadU16_be16 m.arcount m.arcount_lt
  have hanswers := readRecords_section heap true (i := 0) m.answersAt (fun _ _ => .inl rfl) (by decide)
  have hauth := readRecords_section heap false (i := 0) m.authorityAt (fun r hr => .inr (m.authority_domain r hr))
    (by decide)
  have haddit := readRecords_section heap true (i := 0) m.additionalAt (fun _ _ => .inl rfl) (by decide)
  rw [Nat.zero_add] at hanswers hauth haddit
  have hstart : readReply heap m.msg = (do
      let (answers, reader) ← readRecords heap m.msg true m.answers.length 0
        (12 + (questionBytes m.qname m.qtype m.qclass).length)
      let (auth, reader) ← readRecords heap m.msg false m.authority.length 0 reader
      let (addit, _) ← readRecords heap m.msg true m.additional.length 0 reader
      return { answers, auth, addit }) := by
    simp only [readReply, strlen_of_question m.qname_ok m.question, han, hns, har, ean, ens, ear, Bind.bind,
      Except.bind, answers_start m.qname m.qtype m.qclass]
  rw [hstart]
  rcases Nat.lt_or_ge capacity m.answers.length with h1 | h1
  · refine ⟨fun hfits => absurd hfits.1 (by omega), fun _ => ?_⟩
    rw [hanswers.2 h1]
    rfl
  obtain ⟨answers, h1', hall₁⟩ := hanswers.1 h1
  rw [h1']
  rcases Nat.lt_or_ge capacity m.authority.length with h2 | h2
  · refine ⟨fun hfits => absurd hfits.2.1 (by omega), fun _ => ?_⟩
    simp only [hauth.2 h2, Bind.bind, Except.bind]
  obtain ⟨auth, h2', hall₂⟩ := hauth.1 h2
  rcases Nat.lt_or_ge capacity m.additional.length with h3 | h3
  · refine ⟨fun hfits => absurd hfits.2.2 (by omega), fun _ => ?_⟩
    simp only [h2', haddit.2 h3, Bind.bind, Except.bind]
  obtain ⟨addit, h3', hall₃⟩ := haddit.1 h3
  refine ⟨fun _ => ⟨⟨answers, auth, addit⟩, ?_, hall₁, hall₂, hall₃⟩, fun hnot => absurd ⟨h1, h2, h3⟩ hnot⟩
  simp only [h2', h3', Bind.bind, Except.bind]
  rfl

/-- **What is printed of a well-formed reply**: its counts and all its records, in order, with the address of each
record of type A, the names of aliases and name servers, and nothing of other records but their names.  With more than
20 records in a section the client writes behind an array. -/
theorem report_eq (heap : Mem) (m : FullResponse) :
    report heap m.msg = if m.Fits then .ok m.printed else .error .oob := by
  obtain ⟨q, hq, eq, -⟩ := loadU16_be16 m.qdcount (by omega)
  obtain ⟨an, han, ean, -⟩ := loadU16_be16 m.ancount m.ancount_lt
  obtain ⟨ns, hns, ens, -⟩ := loadU16_be16 m.nscount m.nscount_lt
  obtain ⟨ar, har, ear, -⟩ := loadU16_be16 m.arcount m.arcount_lt
  obtain ⟨hfit, hfull⟩ := readReply_full heap m
  split
  · next h =>
    obtain ⟨reply, hreply, hread⟩ := hfit h
    have hanswers := printRecords_section (answerShows heap) answerText hread.answers
      fun r hr _ hdec => answerShows_eq heap (m.answersAt.ok r hr) hdec
    have hauth := printRecords_section authShows authText hread.auth
      fun r hr _ hdec => authShows_eq (m.authority_domain r hr) hdec
    have haddit := printRecords_section (additShows heap) additText hread.addit
      fun r hr _ hdec => additShows_eq heap (m.additionalAt.ok r hr) hdec
    simp only [report, hq, han, hns, har, eq, ean, ens, ear, hreply, hanswers, hauth, haddit, Bind.bind, Except.bind]
    rfl
  · next h =>
    simp only [report, hq, han, hns, har, hfull h, Bind.bind, Except.bind]

/-- `b NS n`. -/
def nsRecord : RR := { RR.cname [[98]] [[110]] with type := typeNs }

theorem plain_ns : nsRecord.Plain :=
  ⟨⟨by decide, by decide, by decide, by decide, by decide, by decide, by decide⟩, rfl⟩

/-- The question `a A IN`, the answer `a CNAME b`, the authority `b NS n`, and `n A 192.0.2.1`. -/
def threeSections : FullResponse where
  msg := [18, 52, 129, 128] ++ (be16 1 ++ (be16 1 ++ (be16 1 ++ (be16 1 ++ (questionBytes [[97]] 1 1 ++
    ((RR.cname [[97]] [[98]]).bytes ++ (nsRecord.bytes ++ (RR.a [[110]] 192 0 2 1).bytes)))))))
  qname := [[97]]
  qtype := 1
  qclass := 1
  answers := [RR.cname [[97]] [[98]]]
  authority := [nsRecord]
  additional := [RR.a [[110]] 192 0 2 1]
  answersEnd := 19 + 16
  authorityEnd := 19 + 16 + 16
  additionalEnd := 19 + 16 + 16 + 17
  qdcount := by decide
  ancount_lt := by decide
  ancount := by decide
  nscount_lt := by decide
  nscount := by decide
  arcount_lt := by decide
  arcount := by decide
  qname_ok := by decide +kernel
  question := by decide +kernel
  answersAt := by
    have hplain : (RR.cname [[97]] [[98]]).Plain := RR.plain_cname (by decide) (by decide)
    exact .cons hplain.1 (RR.at_bytes hplain (by decide)) .nil
  authorityAt := .cons plain_ns.1 (RR.at_bytes plain_ns (by decide)) .nil
  authority_domain := by
    intro r hr
    obtain rfl := List.mem_singleton.1 hr
    exact ⟨[[110]], rfl⟩
  additionalAt := by
    have hplain : (RR.a [[110]] 192 0 2 1).Plain := RR.plain_a (by decide) 192 0 2 1
    exact .cons hplain.1 (RR.at_bytes hplain (by decide)) .nil

theorem report_eq_threeSections : report (fun _ => 0) threeSections.msg = .ok threeSections.printed := by
  rw [report_eq, if_pos (by decide)]

end Shadowc.Dns.Lookup
