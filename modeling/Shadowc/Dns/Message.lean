import Shadowc.Dns.NameSpec

/-!
# Responses with records of any type

`Response` is what a resolver that only asks for addresses should get.  A `Message` is a response with any number of
questions and answers of any type, whose RDATA is just bytes; what they say is a matter of the type.
-/

namespace Shadowc.Dns

/-! ### Records -/

/-- A resource record as it lies in a message: its owner name takes `nameLen` bytes in place. -/
structure WireRR where
  owner : Name
  nameLen : ℕ
  type : ℕ
  class_ : ℕ
  ttl : ℕ
  rdata : List UInt8

/-- The bytes the record takes. -/
def WireRR.len (r : WireRR) : ℕ := r.nameLen + 10 + r.rdata.length

/-- The record starts at offset `off`. -/
structure WireRR.At (msg : List UInt8) (off : ℕ) (r : WireRR) : Prop where
  type_lt : r.type < 65536
  dataLen_lt : r.rdata.length < 65536
  owner : NameAt msg off r.owner r.nameLen
  fixed : BytesAt msg (off + r.nameLen) (be16 r.type ++ be16 r.class_ ++ be32 r.ttl ++ be16 r.rdata.length)
  rdata : BytesAt msg (off + r.nameLen + 10) r.rdata

/-- The records follow each other from offset `off` on. -/
inductive WireRRsAt (msg : List UInt8) : ℕ → List WireRR → Prop
  | nil {off : ℕ} : WireRRsAt msg off []
  | cons {off : ℕ} {r : WireRR} {rs : List WireRR} : r.At msg off → WireRRsAt msg (off + r.len) rs →
      WireRRsAt msg off (r :: rs)

/-! ### Messages -/

/-- From offset `off` on there are `n` questions, in `len` bytes. -/
inductive QuestionsAt (msg : List UInt8) : ℕ → ℕ → ℕ → Prop
  | nil {off : ℕ} : QuestionsAt msg off 0 0
  | cons {off n k len qtype qclass : ℕ} {qname : Name} : NameAt msg off qname k →
      BytesAt msg (off + k) (be16 qtype ++ be16 qclass) → QuestionsAt msg (off + k + 4) n len →
      QuestionsAt msg off (n + 1) (k + 4 + len)

/-- A well-formed response: the message and what it says, up to the end of its answer section. -/
structure Message where
  msg : List UInt8
  qdcount : ℕ
  questionLen : ℕ
  answers : List WireRR
  /-- The bit QR is set. -/
  qr : ∃ b, msg[2]? = some b ∧ 128 ≤ b.toNat
  qdcountAt : BytesAt msg 4 (be16 qdcount)
  ancount_lt : answers.length < 65536
  ancountAt : BytesAt msg 6 (be16 answers.length)
  questions : QuestionsAt msg 12 qdcount questionLen
  answersAt : WireRRsAt msg (12 + questionLen) answers

/-- An A record holds four octets. -/
def Message.AddressesOk (m : Message) : Prop := ∀ r ∈ m.answers, r.type = 1 → r.rdata.length = 4

instance (m : Message) : Decidable m.AddressesOk := by unfold Message.AddressesOk; infer_instance

/-- Where records that follow each other from `off` on start. -/
def starts : ℕ → List WireRR → List ℕ
  | _, [] => []
  | off, r :: rs => off :: starts (off + r.len) rs

end Shadowc.Dns
