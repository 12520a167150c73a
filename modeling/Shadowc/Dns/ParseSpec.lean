import Shadowc.Dns.NameSpec
import Shadowc.Dns.Resolver

/-!
# `parse_response` and `handle_data` on well-formed responses

The reader stands at the start of a record before each turn of the answer loop: `parseRecord_at` is one turn,
`parseRecords_answersAt` the whole loop, and `parseResponse_response` puts the header and the question in front.
`handleData_response` is what the resolver then does.
-/

namespace Shadowc.Dns

open Lib Reading Memory

/-! ### Fields -/

theorem loadU16_eq {msg : List UInt8} {off : ℕ} {lo hi : UInt8} (h0 : msg[off]? = some lo)
    (h1 : msg[off + 1]? = some hi) : loadU16 msg off = .ok (lo.toNat + 256 * hi.toNat) := by
  simp only [loadU16, readByte_eq h0, readByte_eq h1, Bind.bind, Except.bind]
  rfl

theorem ntohs_swap {p q : ℕ} (hp : p < 256) (hq : q < 256) : ntohs (p + 256 * q) = p * 256 + q := by
  unfold ntohs
  omega

/-- A 16-bit field, read on a little-endian machine, is the field with its bytes swapped. -/
theorem loadU16_be16 {msg : List UInt8} {off v : ℕ} (h : BytesAt msg off (be16 v)) (hv : v < 65536) :
    ∃ x, loadU16 msg off = .ok x ∧ ntohs x = v ∧ x < 65536 := by
  have h0 : msg[off]? = some (UInt8.ofNat (v / 256)) := getElem?_bytesAt (i := 0) h rfl
  have h1 : msg[off + 1]? = some (UInt8.ofNat (v % 256)) := getElem?_bytesAt (i := 1) h rfl
  have e0 : (UInt8.ofNat (v / 256)).toNat = v / 256 := by simp; omega
  have e1 : (UInt8.ofNat (v % 256)).toNat = v % 256 := by simp
  refine ⟨_, loadU16_eq h0 h1, ?_, ?_⟩
  · rw [e0, e1, ntohs_swap (by omega) (by omega)]
    omega
  · rw [e0, e1]
    omega

theorem loadU32_be32 {msg : List UInt8} {off v : ℕ} (h : BytesAt msg off (be32 v)) (hv : v < 4294967296) :
    ∃ x, loadU32 msg off = .ok x ∧ ntohl x = v := by
  obtain ⟨h0, h2⟩ := bytesAt_append.1 h
  obtain ⟨x, hx, ex, hx'⟩ := loadU16_be16 h0 (by omega)
  obtain ⟨y, hy, ey, hy'⟩ := loadU16_be16 h2 (by omega)
  have hy : loadU16 msg (off + 2) = .ok y := hy
  refine ⟨x + 65536 * y, ?_, ?_⟩
  · simp only [loadU32, hx, hy, Bind.bind, Except.bind]
    rfl
  · rw [ntohl, show (x + 65536 * y) % 65536 = x by omega, show (x + 65536 * y) / 65536 = y by omega, ex, ey]
    omega

theorem copyBytes_bytesAt {msg : List UInt8} (bs : List UInt8) :
    ∀ {off : ℕ}, BytesAt msg off bs → copyBytes msg bs.length off = .ok bs := by
  induction bs with
  | nil => intro off _; rfl
  | cons b bs ih =>
    intro off h
    have hb : msg[off]? = some b := getElem?_bytesAt (i := 0) h rfl
    have h : BytesAt msg off ([b] ++ bs) := h
    have hbs : BytesAt msg (off + 1) bs := (bytesAt_append.1 h).2
    simp only [List.length_cons, copyBytes, readByte_eq hb, ih hbs, Bind.bind, Except.bind]
    rfl

/-! ### The address -/

/-- The text of an address is that of its octets in memory order, whatever lies above the low 32 bits. -/
theorem inetNtoa_octets {a b c d : ℕ} (ha : a < 256) (hb : b < 256) (hc : c < 256) (hd : d < 256) (r : ℕ) :
    inetNtoa ((a + 256 * (b + 256 * (c + 256 * (d + 256 * r)))) % 4294967296) =
      toString a ++ "." ++ toString b ++ "." ++ toString c ++ "." ++ toString d := by
  generalize hv : (a + 256 * (b + 256 * (c + 256 * (d + 256 * r)))) % 4294967296 = v
  have hv' : v = a + 256 * b + 65536 * c + 16777216 * d := by omega
  have e0 : v % 256 = a := by omega
  have e1 : v / 256 % 256 = b := by omega
  have e2 : v / 65536 % 256 = c := by omega
  have e3 : v / 16777216 % 256 = d := by omega
  rw [inetNtoa, e0, e1, e2, e3]

theorem addressText_octets (heap : Mem) (a b c d : UInt8) : addressText heap [a, b, c, d] = dottedQuad a b c d := by
  have hlong : loadLong heap [a, b, c, d] = a.toNat + 256 * (b.toNat + 256 * (c.toNat + 256 * (d.toNat + 256 *
      ((load ([a, b, c, d] ++ [0]) heap 4).toNat + 256 * ((load ([a, b, c, d] ++ [0]) heap 5).toNat + 256 *
        ((load ([a, b, c, d] ++ [0]) heap 6).toNat + 256 * (load ([a, b, c, d] ++ [0]) heap 7).toNat)))))) := by
    simp [loadLong, List.range_succ, load]
  rw [addressText, hlong]
  exact inetNtoa_octets a.toNat_lt b.toNat_lt c.toNat_lt d.toNat_lt _

/-! ### The answer section -/

/-- What the parsed record `rec` says of the record `r` of the message. -/
structure Decodes (msg : List UInt8) (rec : ResRecord) (r : RR) : Prop where
  name : rec.name = dotted r.owner
  resource : ∃ f, RData.load msg rec.resource = .ok f ∧ ntohs f.type = r.type ∧ ntohs f._class = r.class_ ∧
    ntohl f.ttl = r.ttl ∧ ntohs f.dataLen = r.dataLen
  rdata : rec.rdata = match r.rdata with
    | .address a b c d => [a, b, c, d]
    | .domain target => dotted target

theorem rdata_load {msg : List UInt8} {off : ℕ} {r : RR} (h : BytesAt msg off r.fixed) (hr : r.Ok) :
    ∃ f, RData.load msg off = .ok f ∧ ntohs f.type = r.type ∧ ntohs f._class = r.class_ ∧
      ntohl f.ttl = r.ttl ∧ ntohs f.dataLen = r.dataLen := by
  obtain ⟨-, htype, hclass, httl, hlen, -⟩ := hr
  obtain ⟨h, h8⟩ := bytesAt_append.1 h
  obtain ⟨h, h4⟩ := bytesAt_append.1 h
  obtain ⟨h0, h2⟩ := bytesAt_append.1 h
  obtain ⟨x0, l0, e0, -⟩ := loadU16_be16 h0 htype
  obtain ⟨x2, l2, e2, -⟩ := loadU16_be16 h2 hclass
  obtain ⟨x4, l4, e4⟩ := loadU32_be32 h4 httl
  obtain ⟨x8, l8, e8, -⟩ := loadU16_be16 h8 hlen
  have l2 : loadU16 msg (off + 2) = .ok x2 := l2
  have l4 : loadU32 msg (off + 4) = .ok x4 := l4
  have l8 : loadU16 msg (off + 8) = .ok x8 := l8
  refine ⟨⟨x0, x2, x4, x8⟩, ?_, e0, e2, e4, e8⟩
  simp only [RData.load, l0, l2, l4, l8, Bind.bind, Except.bind]
  rfl

/-- The type and the length alone, as `parse_response` reads them. -/
theorem rdata_load_fields {msg : List UInt8} {off : ℕ} {f : RData} (h : RData.load msg off = .ok f) :
    loadU16 msg off = .ok f.type ∧ loadU16 msg (off + 8) = .ok f.dataLen := by
  obtain ⟨type, h0, h⟩ := bind_eq_ok.1 h
  obtain ⟨_class, -, h⟩ := bind_eq_ok.1 h
  obtain ⟨ttl, -, h⟩ := bind_eq_ok.1 h
  obtain ⟨dataLen, h8, h⟩ := bind_eq_ok.1 h
  cases h
  exact ⟨h0, h8⟩

/-- **One turn of the answer loop**: from the start of a record to the start of the next one. -/
theorem parseRecord_at (heap : Mem) {msg : List UInt8} {off n : ℕ} {r : RR} (hr : r.Ok) (h : r.At msg off n) :
    ∃ rec, parseRecord heap msg off = .ok (rec, off + n) ∧ Decodes msg rec r := by
  obtain ⟨k, hname, hfixed, hdata, rfl⟩ := h
  obtain ⟨f, hload, etype, hclass, httl, elen⟩ := rdata_load hfixed hr
  obtain ⟨ltype, llen⟩ := rdata_load_fields hload
  have hown := readName_nameAt heap hname hr.1
  have hrd := hr.2.2.2.2.2
  cases hrdata : r.rdata with
  | address a b c d =>
    simp only [hrdata] at hrd
    simp only [RR.DataAt, hrdata] at hdata
    have hcopy : copyBytes msg (ntohs f.dataLen) (off + k + 10) = .ok [a, b, c, d] := by
      rw [elen, hrd.2]
      exact copyBytes_bytesAt [a, b, c, d] hdata
    have h1 : ntohs f.type = 1 := by rw [etype, hrd.1]
    refine ⟨⟨dotted r.owner, off + k, [a, b, c, d]⟩, ?_, rfl, ⟨f, hload, etype, hclass, httl, elen⟩, by simp [hrdata]⟩
    simp only [parseRecord, hown, ltype, llen, Bind.bind, Except.bind, sizeofRData, if_pos h1, hcopy]
    rw [elen]
    simp only [Nat.add_assoc]
    rfl
  | domain target =>
    simp only [hrdata] at hrd
    simp only [RR.DataAt, hrdata] at hdata
    have htgt := readName_nameAt heap hdata hrd.2
    have h1 : ¬ ntohs f.type = 1 := by rw [etype]; exact hrd.1
    refine ⟨⟨dotted r.owner, off + k, dotted target⟩, ?_, rfl, ⟨f, hload, etype, hclass, httl, elen⟩,
      by simp [hrdata]⟩
    simp only [parseRecord, hown, ltype, Bind.bind, Except.bind, sizeofRData, if_neg h1, htgt]
    simp only [Nat.add_assoc]
    rfl

/-- **The answer loop**: as many turns as there are records. -/
theorem parseRecords_answersAt (heap : Mem) {msg : List UInt8} {off : ℕ} {rs : List RR} (h : AnswersAt msg off rs) :
    ∃ recs, parseRecords heap msg rs.length off = .ok recs ∧ List.Forall₂ (Decodes msg) recs rs := by
  induction h with
  | nil => exact ⟨[], rfl, .nil⟩
  | cons hr hat _ ih =>
    obtain ⟨recs, hrecs, hall⟩ := ih
    obtain ⟨rec, hrec, hdec⟩ := parseRecord_at heap hr hat
    refine ⟨rec :: recs, ?_, .cons hdec hall⟩
    simp only [List.length_cons, parseRecords, hrec, hrecs, Bind.bind, Except.bind]
    rfl

theorem strlen_of_question {msg : List UInt8} {qname : Name} {qtype qclass : ℕ}
    (hok : ∀ l ∈ qname, 0 < l.length ∧ l.length < 64 ∧ ∀ b ∈ l, b ≠ 0)
    (h : BytesAt msg 12 (questionBytes qname qtype qclass)) :
    strlen (msg.drop sizeofDnsHeader) = .ok (encodeLabels qname).length := by
  obtain ⟨t, ht⟩ := h
  have e : msg.drop sizeofDnsHeader = encodeLabels qname ++ 0 :: (be16 qtype ++ (be16 qclass ++ t)) := by
    rw [sizeofDnsHeader, ← ht, questionBytes]
    simp
  rw [e]
  exact strlen_append_zero (encodeLabels_ne_zero hok) _

theorem strlen_question (m : Response) :
    strlen (m.msg.drop sizeofDnsHeader) = .ok (encodeLabels m.qname).length :=
  strlen_of_question m.qname_ok m.question

/-- Where the answers start. -/
theorem answers_start (qname : Name) (qtype qclass : ℕ) :
    sizeofDnsHeader + ((encodeLabels qname).length + 1) + sizeofQuestion =
      12 + (questionBytes qname qtype qclass).length := by
  simp [sizeofDnsHeader, sizeofQuestion, questionBytes, be16]
  omega

/-- **`parse_response` returns the records of the answer section**, as many as ANCOUNT says and in their order. -/
theorem parseResponse_response (heap : Mem) (m : Response) :
    ∃ recs, parseResponse heap m.msg = .ok recs ∧ List.Forall₂ (Decodes m.msg) recs m.answers := by
  obtain ⟨recs, hrecs, hall⟩ := parseRecords_answersAt heap m.answersAt
  obtain ⟨x, hx, ex, -⟩ := loadU16_be16 m.ancount m.ancount_lt
  refine ⟨recs, ?_, hall⟩
  simp only [parseResponse, strlen_question, hx, ex, Bind.bind, Except.bind]
  rw [answers_start m.qname m.qtype m.qclass, hrecs]

/-- The answer that `handle_data` picks is the first A record. -/
theorem firstAddress_decodes (heap : Mem) {msg : List UInt8} {recs : List ResRecord} {rs : List RR}
    (hok : ∀ r ∈ rs, r.Ok) (h : List.Forall₂ (Decodes msg) recs rs) :
    firstAddress heap msg recs = .ok ((firstA rs).map fun p => (dotted p.1, p.2)) := by
  induction h with
  | nil => rfl
  | @cons rec r recs rs hd _ ih =>
    obtain ⟨f, hload, etype, -⟩ := hd.resource
    have hrd := (hok r (by simp)).2.2.2.2.2
    have ltype := (rdata_load_fields hload).1
    have ih := ih fun r' hr' => hok r' (List.mem_cons_of_mem _ hr')
    simp only [firstAddress, ltype, Bind.bind, Except.bind, etype, qtypeA]
    cases hrdata : r.rdata with
    | address a b c d =>
      simp only [hrdata] at hrd
      have e := hd.rdata
      simp only [hrdata] at e
      rw [if_pos hrd.1, e, addressText_octets, hd.name]
      simp [firstA, RR.address?, hrdata]
      rfl
    | domain target =>
      simp only [hrdata] at hrd
      rw [if_neg hrd.1, ih]
      simp [firstA, RR.address?, hrdata]

theorem AnswersAt.ok {msg : List UInt8} {off : ℕ} {rs : List RR} (h : AnswersAt msg off rs) : ∀ r ∈ rs, r.Ok := by
  induction h with
  | nil => simp
  | cons hr _ _ ih =>
    intro r' hr'
    rcases List.mem_cons.1 hr' with rfl | hr'
    · exact hr
    · exact ih r' hr'

variable {Cb : Type}

/-- **What `handle_data` does with a well-formed response.** -/
theorem handleData_response (env : Env) (s : Resolver Cb) (m : Response) :
    s.handleData env m.msg = .ok (match firstA m.answers with
      | some (owner, ip) => s.callCallback (dotted owner) ip
      | none => (s, [])) := by
  obtain ⟨recs, hrecs, hall⟩ := parseResponse_response env.heap m
  have hfirst := firstAddress_decodes env.heap m.answersAt.ok hall
  simp only [Resolver.handleData, hrecs, hfirst, Bind.bind, Except.bind]
  cases firstA m.answers <;> rfl

/-- **Decoding of well-formed responses.**  `parse_response` returns one record for each answer, in order, with the
name, the fields and the RDATA of the wire format; `handle_data` picks the owner and the address of the first A record
and looks for callbacks of no other name, and of none when there is no A record. -/
theorem response_decoded (env : Env) (m : Response) :
    ∃ recs, parseResponse env.heap m.msg = .ok recs ∧ recs.length = m.answers.length ∧
      List.Forall₂ (Decodes m.msg) recs m.answers ∧
      firstAddress env.heap m.msg recs = .ok ((firstA m.answers).map fun p => (dotted p.1, p.2)) ∧
      ∀ (Cb : Type) (s : Resolver Cb), s.handleData env m.msg = .ok (match firstA m.answers with
        | some (owner, ip) => s.callCallback (dotted owner) ip
        | none => (s, [])) := by
  obtain ⟨recs, hrecs, hall⟩ := parseResponse_response env.heap m
  exact ⟨recs, hrecs, hall.length_eq, hall, firstAddress_decodes env.heap m.answersAt.ok hall,
    fun _ s => handleData_response env s m⟩

end Shadowc.Dns
