import Shadowc.Dns.Message
import Shadowc.Dns.ParseSpec

/-!
# Composing responses

The inverse direction of the wire format: the bytes of a response whose names are not compressed, and the proof that
they are one.  `Response.plain` shows that every question and every list of plain records has a well-formed message,
with whatever bytes after it; `Message.plain` is the same message, with its records as they lie in it.  The names of
`compressedReply` are compressed.
-/

namespace Shadowc.Dns

theorem bytesAt_self (pre bs post : List UInt8) : BytesAt (pre ++ (bs ++ post)) pre.length bs :=
  ⟨post, by rw [List.drop_left' rfl]⟩

/-- A name written out label by label is a name of the wire format. -/
theorem nameAt_encodeLabels {msg : List UInt8} {ls : Name} (hls : ∀ l ∈ ls, 0 < l.length ∧ l.length < 64) :
    ∀ {off : ℕ}, BytesAt msg off (encodeLabels ls ++ [0]) → NameAt msg off ls ((encodeLabels ls).length + 1) := by
  induction ls with
  | nil =>
    intro off h
    exact .root (getElem?_bytesAt (i := 0) h rfl)
  | cons l ls ih =>
    intro off h
    have h : BytesAt msg off ((UInt8.ofNat l.length :: l) ++ (encodeLabels ls ++ [0])) := by
      simpa [encodeLabels] using h
    obtain ⟨hl, hrest⟩ := bytesAt_append.1 h
    obtain ⟨hpos, hlt⟩ := hls l (by simp)
    have hoff : off + (UInt8.ofNat l.length :: l).length = off + (1 + l.length) := by simp; omega
    rw [hoff] at hrest
    have hn := NameAt.label hpos hlt hl (ih (fun l' hl' => hls l' (List.mem_cons_of_mem _ hl')) hrest)
    have hlen : 1 + l.length + ((encodeLabels ls).length + 1) = (encodeLabels (l :: ls)).length + 1 := by
      simp [encodeLabels]
      omega
    rwa [hlen] at hn

/-! ### Records -/

/-- The RDATA bytes of a record, a name not compressed. -/
def RRData.bytes : RRData → List UInt8
  | .address a b c d => [a, b, c, d]
  | .domain target => encodeLabels target ++ [0]

/-- The record as it is sent without compression. -/
def RR.bytes (r : RR) : List UInt8 := encodeLabels r.owner ++ [0] ++ r.fixed ++ r.rdata.bytes

/-- A record that can be sent without compression: its length field is that of its RDATA bytes. -/
def RR.Plain (r : RR) : Prop := r.Ok ∧ r.dataLen = r.rdata.bytes.length

/-- An A record of class IN. -/
def RR.a (owner : Name) (a b c d : UInt8) : RR where
  owner := owner
  type := 1
  class_ := 1
  ttl := 300
  dataLen := 4
  rdata := .address a b c d

/-- A CNAME record of class IN. -/
def RR.cname (owner target : Name) : RR where
  owner := owner
  type := 5
  class_ := 1
  ttl := 300
  dataLen := (encodeLabels target).length + 1
  rdata := .domain target

theorem RR.plain_a {owner : Name} (h : owner.Ok) (a b c d : UInt8) : (RR.a owner a b c d).Plain :=
  ⟨⟨h, by simp [RR.a], by simp [RR.a], by simp [RR.a], by simp [RR.a], rfl, rfl⟩, rfl⟩

theorem RR.plain_cname {owner target : Name} (h : owner.Ok) (ht : target.Ok) : (RR.cname owner target).Plain := by
  have hlen := ht.2.2
  refine ⟨⟨h, by simp [cname], by simp [cname], by simp [cname], ?_, by simp [cname], ht⟩, ?_⟩
  · simp only [cname]
    omega
  · simp [cname, RRData.bytes]

theorem RR.length_fixed (r : RR) : r.fixed.length = 10 := rfl

theorem RR.at_bytes {msg : List UInt8} {off : ℕ} {r : RR} (hr : r.Plain) (h : BytesAt msg off r.bytes) :
    r.At msg off r.bytes.length := by
  obtain ⟨⟨howner, -, -, -, -, hrd⟩, hlen⟩ := hr
  obtain ⟨h, hdata⟩ := bytesAt_append.1 h
  obtain ⟨hname, hfixed⟩ := bytesAt_append.1 h
  have hname := nameAt_encodeLabels (fun l hl => ⟨(howner.2.1 l hl).1, (howner.2.1 l hl).2.1⟩) hname
  refine ⟨_, hname, by simpa using hfixed, ?_, ?_⟩
  · have hdata : BytesAt msg (off + ((encodeLabels r.owner).length + 1) + 10) r.rdata.bytes := by
      simpa [length_fixed, Nat.add_assoc] using hdata
    unfold RR.DataAt
    cases hd : r.rdata with
    | address a b c d =>
      rw [hd] at hdata
      exact hdata
    | domain target =>
      rw [hd] at hdata hrd hlen
      have ht := nameAt_encodeLabels (fun l hl => ⟨(hrd.2.2.1 l hl).1, (hrd.2.2.1 l hl).2.1⟩) hdata
      simpa [hlen, RRData.bytes] using ht
  · simp only [RR.bytes, List.length_append, length_fixed, hlen, List.length_singleton]

theorem answersAt_bytes {msg : List UInt8} {rs : List RR} (hrs : ∀ r ∈ rs, r.Plain) :
    ∀ {off : ℕ}, BytesAt msg off (rs.flatMap RR.bytes) → AnswersAt msg off rs := by
  induction rs with
  | nil => exact fun _ => .nil
  | cons r rs ih =>
    intro off h
    rw [List.flatMap_cons] at h
    obtain ⟨hr, hrest⟩ := bytesAt_append.1 h
    have hp := hrs r (by simp)
    exact .cons hp.1 (RR.at_bytes hp hr) (ih (fun r' hr' => hrs r' (List.mem_cons_of_mem _ hr')) hrest)

/-- The record as it lies in the message. -/
def RR.wire (r : RR) : WireRR where
  owner := r.owner
  nameLen := (encodeLabels r.owner).length + 1
  type := r.type
  class_ := r.class_
  ttl := r.ttl
  rdata := r.rdata.bytes

theorem RR.len_wire (r : RR) : r.wire.len = r.bytes.length := by
  simp only [WireRR.len, wire, RR.bytes, List.length_append, length_fixed, List.length_singleton]

theorem RR.wire_at {msg : List UInt8} {off : ℕ} {r : RR} (hr : r.Plain) (h : BytesAt msg off r.bytes) :
    r.wire.At msg off := by
  obtain ⟨⟨howner, htype, -, -, hlen, -⟩, hdataLen⟩ := hr
  obtain ⟨h, hdata⟩ := bytesAt_append.1 h
  obtain ⟨hname, hfixed⟩ := bytesAt_append.1 h
  refine ⟨htype, hdataLen ▸ hlen, ?_, ?_, ?_⟩
  · exact nameAt_encodeLabels (fun l hl => ⟨(howner.2.1 l hl).1, (howner.2.1 l hl).2.1⟩) hname
  · simpa [wire, RR.fixed, hdataLen] using hfixed
  · simpa [wire, length_fixed, Nat.add_assoc] using hdata

theorem wireRRsAt_bytes {msg : List UInt8} {rs : List RR} (hrs : ∀ r ∈ rs, r.Plain) :
    ∀ {off : ℕ}, BytesAt msg off (rs.flatMap RR.bytes) → WireRRsAt msg off (rs.map RR.wire) := by
  induction rs with
  | nil => exact fun _ => .nil
  | cons r rs ih =>
    intro off h
    rw [List.flatMap_cons] at h
    obtain ⟨hr, hrest⟩ := bytesAt_append.1 h
    rw [← r.len_wire] at hrest
    exact .cons (RR.wire_at (hrs r (by simp)) hr) (ih (fun r' hr' => hrs r' (List.mem_cons_of_mem _ hr')) hrest)

/-! ### Messages -/

/-- The header of a response: QR and RD and RA set, one question, `n` answers. -/
def replyHeader (n : ℕ) : List UInt8 := [18, 52, 129, 128] ++ be16 1 ++ be16 n ++ [0, 0, 0, 0]

/-- The bytes of a response without compression, up to the end of its answer section. -/
def replyBytes (qname : Name) (answers : List RR) : List UInt8 :=
  replyHeader answers.length ++ (questionBytes qname 1 1 ++ answers.flatMap RR.bytes)

theorem answers_bytesAt (qname : Name) (answers : List RR) (trailer : List UInt8) :
    BytesAt (replyBytes qname answers ++ trailer) (12 + (questionBytes qname 1 1).length)
      (answers.flatMap RR.bytes) := by
  have h := bytesAt_self (replyHeader answers.length ++ questionBytes qname 1 1) (answers.flatMap RR.bytes) trailer
  have hl : (replyHeader answers.length ++ questionBytes qname 1 1).length = 12 + (questionBytes qname 1 1).length := by
    rw [List.length_append]
    rfl
  rw [hl] at h
  simpa [replyBytes] using h

/-- **A response for every question and every list of plain records**, with any bytes after it. -/
def Response.plain (qname : Name) (answers : List RR) (trailer : List UInt8) (hq : qname.Ok)
    (hlen : answers.length < 65536) (hrs : ∀ r ∈ answers, r.Plain) : Response where
  msg := replyBytes qname answers ++ trailer
  qname := qname
  qtype := 1
  qclass := 1
  answers := answers
  qr := ⟨129, rfl, by decide⟩
  qdcount := ⟨be16 answers.length ++ [0, 0, 0, 0] ++ (questionBytes qname 1 1 ++ answers.flatMap RR.bytes) ++ trailer,
    by simp [replyBytes, replyHeader, be16]⟩
  ancount_lt := hlen
  ancount := ⟨[0, 0, 0, 0] ++ (questionBytes qname 1 1 ++ answers.flatMap RR.bytes) ++ trailer,
    by simp [replyBytes, replyHeader, be16]⟩
  qname_ok l hl := (hq.2.1 l hl).ne_zero
  question := by
    have h := bytesAt_self (replyHeader answers.length) (questionBytes qname 1 1) (answers.flatMap RR.bytes ++ trailer)
    have hl : (replyHeader answers.length).length = 12 := rfl
    rw [hl] at h
    simpa [replyBytes] using h
  answersAt := answersAt_bytes hrs (answers_bytesAt qname answers trailer)

/-! ### Compression -/

/-- The reply to a question for `www.b`: `www.b` is another name of `a.b`, and `a.b` has an address.  Three of its names
are compressed: both owners, and the target of the first record, whose last label is that of the question. -/
def compressedBytes : List UInt8 :=
  replyHeader 2 ++ questionBytes [[119, 119, 119], [98]] 1 1 ++
    [192, 12] ++ [0, 5, 0, 1, 0, 0, 1, 44, 0, 4] ++ [1, 97, 192, 16] ++
    [192, 35] ++ [0, 1, 0, 1, 0, 0, 1, 44, 0, 4] ++ [192, 0, 2, 1]

theorem nameAt_b : NameAt compressedBytes 16 [[98]] 3 :=
  .label (l := [98]) (by decide) (by decide) (by decide +kernel) (.root (by decide +kernel))

theorem nameAt_www : NameAt compressedBytes 12 [[119, 119, 119], [98]] 7 :=
  .label (l := [119, 119, 119]) (by decide) (by decide) (by decide +kernel) nameAt_b

/-- The target of the first record: a label, and a pointer to the last label of the question. -/
theorem nameAt_target : NameAt compressedBytes 35 [[97], [98]] 4 :=
  .label (l := [97]) (by decide) (by decide) (by decide +kernel) (.pointer rfl rfl (by decide) nameAt_b)

def compressedReply : Response where
  msg := compressedBytes
  qname := [[119, 119, 119], [98]]
  qtype := 1
  qclass := 1
  answers := [
    { RR.cname [[119, 119, 119], [98]] [[97], [98]] with dataLen := 4 },
    RR.a [[97], [98]] 192 0 2 1]
  qr := ⟨129, rfl, by decide⟩
  qdcount := by decide +kernel
  ancount_lt := by decide
  ancount := by decide +kernel
  qname_ok := by decide +kernel
  question := by decide +kernel
  answersAt := by
    have hwww : Name.Ok [[119, 119, 119], [98]] := by decide
    have htarget : Name.Ok [[97], [98]] := by decide
    have hcname : RR.Ok { RR.cname [[119, 119, 119], [98]] [[97], [98]] with dataLen := 4 } :=
      ⟨hwww, by decide, by decide, by decide, by decide, by decide, htarget⟩
    have hwwwAt : NameAt compressedBytes 23 [[119, 119, 119], [98]] 2 := .pointer rfl rfl (by decide) nameAt_www
    have htargetAt : NameAt compressedBytes 39 [[97], [98]] 2 := .pointer rfl rfl (by decide) nameAt_target
    have haddress : BytesAt compressedBytes 51 [192, 0, 2, 1] := by decide +kernel
    refine .cons hcname ⟨2, hwwwAt, by decide +kernel, nameAt_target, rfl⟩ ?_
    exact .cons (RR.plain_a htarget 192 0 2 1).1 ⟨2, htargetAt, by decide +kernel, haddress, rfl⟩ .nil

/-- What `parse_response` and `handle_data` read in it. -/
theorem response_decoded_compressed : ∃ recs, parseResponse Env.zero.heap compressedReply.msg = .ok recs ∧
    recs.map ResRecord.name = [[119, 119, 119, 46, 98], [97, 46, 98]] ∧
    recs.map ResRecord.rdata = [[97, 46, 98], [192, 0, 2, 1]] ∧
    firstAddress Env.zero.heap compressedReply.msg recs = .ok (some ([97, 46, 98], "192.0.2.1")) := by
  obtain ⟨recs, hrecs, -, hall, hfirst, -⟩ := response_decoded .zero compressedReply
  refine ⟨recs, hrecs, ?_, ?_, hfirst⟩
  · cases hall with
    | cons h hall =>
      cases hall with
      | cons h' hall =>
        cases hall
        simp only [List.map_cons, List.map_nil, h.name, h'.name]
        rfl
  · cases hall with
    | cons h hall =>
      cases hall with
      | cons h' hall =>
        cases hall
        simp only [List.map_cons, List.map_nil, h.rdata, h'.rdata]
        rfl

/-- A question written out is a question section. -/
theorem questionsAt_bytes {msg : List UInt8} {qname : Name} {qtype qclass : ℕ}
    (hls : ∀ l ∈ qname, 0 < l.length ∧ l.length < 64) (h : BytesAt msg 12 (questionBytes qname qtype qclass)) :
    QuestionsAt msg 12 1 (questionBytes qname qtype qclass).length := by
  rw [questionBytes, List.append_assoc] at h
  obtain ⟨hname, hfields⟩ := bytesAt_append.1 h
  have hk := nameAt_encodeLabels hls hname
  rw [List.length_append, List.length_singleton] at hfields
  have hlen : (questionBytes qname qtype qclass).length = (encodeLabels qname).length + 1 + 4 + 0 := by
    simp [questionBytes, be16]
  rw [hlen]
  exact .cons hk hfields .nil

/-- The same message, with its records as they lie in it. -/
def Message.plain (qname : Name) (answers : List RR) (trailer : List UInt8) (hq : qname.Ok)
    (hlen : answers.length < 65536) (hrs : ∀ r ∈ answers, r.Plain) : Message where
  msg := replyBytes qname answers ++ trailer
  qdcount := 1
  questionLen := (questionBytes qname 1 1).length
  answers := answers.map RR.wire
  qr := (Response.plain qname answers trailer hq hlen hrs).qr
  qdcountAt := (Response.plain qname answers trailer hq hlen hrs).qdcount
  ancount_lt := by rwa [List.length_map]
  ancountAt := by
    rw [List.length_map]
    exact (Response.plain qname answers trailer hq hlen hrs).ancount
  questions := questionsAt_bytes (fun l hl => ⟨(hq.2.1 l hl).1, (hq.2.1 l hl).2.1⟩)
    (Response.plain qname answers trailer hq hlen hrs).question
  answersAt := wireRRsAt_bytes hrs (answers_bytesAt qname answers trailer)

end Shadowc.Dns
