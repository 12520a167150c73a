import Mathlib.Data.List.Basic
import Mathlib.Data.Nat.Notation

/-!
# The wire format (RFC 1035), as a reference

What a DNS message says, stated as relations between the bytes of a message and what they stand for, with no reader
and no loop.  `NameAt msg off ls n`: at offset `off` of `msg` the name with labels `ls` is encoded, in `n` bytes in
place.  A derivation of it follows every pointer to its end, so that pointers have no cycle.

A `Response` carries the question, the answer records and the proof that its bytes are a well-formed message with
them.
-/

namespace Shadowc.Dns

/-! ### Names -/

abbrev Label := List UInt8

/-- The labels of a domain name, the root left out. -/
abbrev Name := List Label

/-- Each label with its length in front. -/
def encodeLabels : Name → List UInt8
  | [] => []
  | l :: ls => UInt8.ofNat l.length :: (l ++ encodeLabels ls)

/-- `www.google.com`. -/
def dotted (ls : Name) : List UInt8 := [46].intercalate ls

/-- A label that `read_name` can carry: 1 to 63 bytes, none of them zero and none above 191. -/
def Label.Ok (l : Label) : Prop := 0 < l.length ∧ l.length < 64 ∧ ∀ b ∈ l, 0 < b.toNat ∧ b.toNat < 192

instance (l : Label) : Decidable l.Ok :=
  have : Decidable (∀ b ∈ l, 0 < b.toNat ∧ b.toNat < 192) := List.decidableBAll _ l
  instDecidableAnd

/-- A name other than the root, of at most 255 bytes on the wire. -/
def Name.Ok (ls : Name) : Prop := ls ≠ [] ∧ (∀ l ∈ ls, Label.Ok l) ∧ (encodeLabels ls).length + 1 ≤ 255

instance (ls : Name) : Decidable ls.Ok := by unfold Name.Ok; infer_instance

/-- The bytes `bs` stand at offset `off`. -/
def BytesAt (msg : List UInt8) (off : ℕ) (bs : List UInt8) : Prop := bs <+: msg.drop off

instance (msg : List UInt8) (off : ℕ) (bs : List UInt8) : Decidable (BytesAt msg off bs) := by
  unfold BytesAt; infer_instance

/-- The name `ls` is encoded at offset `off`, in `n` bytes in place. -/
inductive NameAt (msg : List UInt8) : ℕ → Name → ℕ → Prop
  | root {off : ℕ} : msg[off]? = some 0 → NameAt msg off [] 1
  | label {off n : ℕ} {l : Label} {ls : Name} : 0 < l.length → l.length < 64 →
      BytesAt msg off (UInt8.ofNat l.length :: l) → NameAt msg (off + (1 + l.length)) ls n →
      NameAt msg off (l :: ls) (1 + l.length + n)
  | pointer {off n : ℕ} {hi lo : UInt8} {ls : Name} : msg[off]? = some hi → msg[off + 1]? = some lo →
      192 ≤ hi.toNat → NameAt msg ((hi.toNat - 192) * 256 + lo.toNat) ls n → NameAt msg off ls 2

/-! ### Records -/

/-- A 16-bit field. -/
def be16 (v : ℕ) : List UInt8 := [UInt8.ofNat (v / 256), UInt8.ofNat (v % 256)]

/-- A 32-bit field. -/
def be32 (v : ℕ) : List UInt8 := be16 (v / 65536) ++ be16 (v % 65536)

/-- The RDATA of a record: the octets of an address, or one domain name. -/
inductive RRData where
  | address (a b c d : UInt8)
  | domain (target : Name)
  deriving DecidableEq, Repr

/-- A resource record. -/
structure RR where
  owner : Name
  type : ℕ
  class_ : ℕ
  ttl : ℕ
  dataLen : ℕ
  rdata : RRData
  deriving DecidableEq, Repr

/-- The fields fit, and the RDATA is what the type says: an address of four octets for type A, a name for every other
type. -/
def RR.Ok (r : RR) : Prop :=
  r.owner.Ok ∧ r.type < 65536 ∧ r.class_ < 65536 ∧ r.ttl < 4294967296 ∧ r.dataLen < 65536 ∧
    match r.rdata with
    | .address .. => r.type = 1 ∧ r.dataLen = 4
    | .domain target => r.type ≠ 1 ∧ target.Ok

/-- The fields between the owner name and the RDATA. -/
def RR.fixed (r : RR) : List UInt8 := be16 r.type ++ be16 r.class_ ++ be32 r.ttl ++ be16 r.dataLen

/-- The RDATA stands at offset `off`, in `r.dataLen` bytes. -/
def RR.DataAt (msg : List UInt8) (off : ℕ) (r : RR) : Prop :=
  match r.rdata with
  | .address a b c d => BytesAt msg off [a, b, c, d]
  | .domain target => NameAt msg off target r.dataLen

/-- The record `r` starts at offset `off`, and the next one `n` bytes later. -/
def RR.At (msg : List UInt8) (off : ℕ) (r : RR) (n : ℕ) : Prop :=
  ∃ k, NameAt msg off r.owner k ∧ BytesAt msg (off + k) r.fixed ∧ r.DataAt msg (off + k + 10) ∧
    n = k + 10 + r.dataLen

/-- The records `rs` follow each other from offset `off` on. -/
inductive AnswersAt (msg : List UInt8) : ℕ → List RR → Prop
  | nil {off : ℕ} : AnswersAt msg off []
  | cons {off n : ℕ} {r : RR} {rs : List RR} : r.Ok → r.At msg off n → AnswersAt msg (off + n) rs →
      AnswersAt msg off (r :: rs)

/-! ### Messages -/

/-- The question section of a message with one question, its name not compressed. -/
def questionBytes (qname : Name) (qtype qclass : ℕ) : List UInt8 :=
  encodeLabels qname ++ [0] ++ be16 qtype ++ be16 qclass

/-- A well-formed response with one question: the message, and what it says.  What follows the answer section is not
constrained. -/
structure Response where
  msg : List UInt8
  qname : Name
  qtype : ℕ
  qclass : ℕ
  answers : List RR
  /-- The bit QR is set. -/
  qr : ∃ b, msg[2]? = some b ∧ 128 ≤ b.toNat
  qdcount : BytesAt msg 4 (be16 1)
  ancount_lt : answers.length < 65536
  ancount : BytesAt msg 6 (be16 answers.length)
  qname_ok : ∀ l ∈ qname, 0 < l.length ∧ l.length < 64 ∧ ∀ b ∈ l, b ≠ 0
  question : BytesAt msg 12 (questionBytes qname qtype qclass)
  answersAt : AnswersAt msg (12 + (questionBytes qname qtype qclass).length) answers

/-- `192.0.2.1` -/
def dottedQuad (a b c d : UInt8) : String :=
  toString a.toNat ++ "." ++ toString b.toNat ++ "." ++ toString c.toNat ++ "." ++ toString d.toNat

/-- The address of an A record, as text. -/
def RR.address? (r : RR) : Option String :=
  match r.rdata with
  | .address a b c d => some (dottedQuad a b c d)
  | .domain _ => none

/-- The owner and the address of the first A record of an answer section. -/
def firstA (rs : List RR) : Option (Name × String) :=
  rs.findSome? fun r => r.address?.map fun ip => (r.owner, ip)

end Shadowc.Dns
