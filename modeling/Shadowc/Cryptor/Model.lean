import Shadowc.Lib.Memory
import Mathlib.Data.Int.Notation
import Mathlib.Data.List.OfFn

/-!
# `Cryptor`

OpenSSL is a parameter (`Evp`): its functions are functions of their arguments and of the context they are given.  A
pointer that may be `NULL` is an `Option`, and a use of it when it is `NULL` ends the program: `none`.

The plaintext and the ciphertext are read from a memory `buf` with a length `len`.  Of `out` an operation gives the
bytes it writes from the start on, and the value of `*out_size`.  Lengths are `int`s.  When they are not negative the
one sum that can be too large for an `int` is that of `encrypt` (`intSum`).
-/

namespace Shadowc.Cryptor

open Lib Memory

/-- `EVP_MAX_IV_LENGTH` -/
def maxIvLength : ℕ := 16

/-- `INT_MAX` -/
def intMax : ℕ := 2147483647

/-- The sum of two `int`s, which wraps around when it is too large for one. -/
def intSum (a b : ℤ) : ℤ := (a + b).bmod 4294967296

theorem intSum_eq {a b : ℕ} (h : a + b ≤ intMax) : intSum a b = (a + b : ℕ) := by
  have hmax : intMax = 2147483647 := rfl
  rw [intSum, Int.natCast_add]
  exact Int.bmod_eq_of_le_mul_two (by omega) (by omega)

/-- A sum that is too large comes out negative. -/
theorem intSum_neg {a b : ℕ} (ha : a ≤ intMax) (hb : b ≤ intMax) (h : intMax < a + b) : intSum a b < 0 := by
  have hmax : intMax = 2147483647 := rfl
  have hwrap : intSum a b = (a + b : ℤ) - 4294967296 := by
    rw [intSum, ← Int.sub_bmod_right]
    exact Int.bmod_eq_of_le_mul_two (by omega) (by omega)
  omega

/-- What the code uses of OpenSSL. -/
structure Evp where
  /-- `EVP_CIPHER`, `EVP_MD` and `EVP_CIPHER_CTX`. -/
  Cipher : Type
  Digest : Type
  Ctx : Type
  getCipherByName : String → Option Cipher
  getDigestByName : String → Option Digest
  /-- `cipher->iv_len` -/
  ivLen : Cipher → ℕ
  ivLen_le : ∀ c, ivLen c ≤ maxIvLength
  /-- The key that `EVP_BytesToKey` derives from a password without salt, in one round; `none` when it fails. -/
  bytesToKey : Cipher → Digest → List UInt8 → Option (List UInt8)
  /-- A new context without a cipher. -/
  newCtx : Ctx
  /-- A new context after `EVP_CipherInit_ex` with this cipher, key, IV and direction. -/
  cipherInit : Cipher → List UInt8 → List UInt8 → ℕ → Ctx
  /-- `EVP_EncryptUpdate`: the context afterwards, the bytes written to `out`, and `*out_size`. -/
  encryptUpdate : Ctx → List UInt8 → ℤ → Ctx × List UInt8 × ℤ

def cipherEncEncryption : ℕ := 1
def cipherEncDecryption : ℕ := 0

/-- The members of `Cryptor`. -/
structure Members (evp : Evp) where
  cipher : Option evp.Ctx
  decipher : Option evp.Ctx
  cipherIv : List UInt8
  decipherIv : Option (List UInt8)
  cipherIvLen : ℕ
  ivSent : Bool
  method : String
  password : List UInt8

/-- What an operation writes to `out` and to `*out_size`. -/
structure Output where
  bytes : List UInt8
  size : ℤ
  deriving DecidableEq, Repr

variable {evp : Evp}

/-- The constructor of `OpenSSLCrypto`; the IV is read as far as the cipher needs it. -/
def openSSLCrypto (evp : Evp) (method : String) (key iv : List UInt8) (op : ℕ) : evp.Ctx :=
  match evp.getCipherByName method with
  | none => evp.newCtx
  | some cipher => evp.cipherInit cipher key (iv.take (evp.ivLen cipher)) op

/-- `OpenSSLCrypto::update` -/
def update (ctx : evp.Ctx) (buf : Mem) (len : ℤ) : evp.Ctx × Output :=
  let (ctx, bytes, size) := evp.encryptUpdate ctx (slice buf 0 len.toNat) len
  (ctx, { bytes, size })

namespace Members

/-- `get_cipher`: the new `Crypto`, or `NULL`, and the members. -/
def getCipher (c : Members evp) (password : List UInt8) (method : String) (op : ℕ) (iv : List UInt8) :
    Option (Option evp.Ctx × Members evp) :=
  match evp.getDigestByName "md5" with
  | none => some (none, c)
  | some dgst =>
    match evp.getCipherByName method with
    -- `EVP_BytesToKey` and `cipher->iv_len` follow the pointer
    | none => none
    | some cipher =>
      match evp.bytesToKey cipher dgst password with
      | none => some (none, c)
      | some key =>
        let crypto := openSSLCrypto evp method key iv op
        let ivLen := evp.ivLen cipher
        let c := { c with cipherIvLen := ivLen }
        if op = cipherEncEncryption then
          some (some crypto, { c with cipherIv := iv.take ivLen })
        else
          some (some crypto, c)

/-- The constructor: `raw` is what the members hold before, `random` what `random_string` gives.  Before, `cipher_iv` is
`NULL` or what `set_cipher_iv` can delete; what happens otherwise is a matter of the whole life cycle. -/
def construct (raw : Members evp) (random : Fin maxIvLength → UInt8) (password : List UInt8) (method : String) :
    Option (Members evp) := do
  let (cipher, c) ← { raw with ivSent := false }.getCipher password method cipherEncEncryption (List.ofFn random)
  return { c with cipher, decipherIv := none, decipher := none, method, password }

def encrypt (c : Members evp) (buf : Mem) (len : ℤ) : Option (Members evp × Output) :=
  if len = 0 then
    some (c, { bytes := [], size := 0 })
  else
    match c.cipher with
    | none => none
    | some ctx =>
      let (ctx, encrypted) := update ctx buf len
      if c.ivSent then
        some ({ c with cipher := some ctx }, encrypted)
      else
        some ({ c with cipher := some ctx, ivSent := true },
          { bytes := c.cipherIv.take c.cipherIvLen ++ encrypted.bytes
            size := intSum encrypted.size c.cipherIvLen })

/-- The first part of `decrypt`: the decipher is made from the start of the payload. -/
def openDecipher (c : Members evp) (buf : Mem) (len : ℤ) : Option (Members evp × Mem × ℤ) :=
  match c.decipher with
  | some _ => some (c, buf, len)
  | none => do
    let decipherIv := slice buf 0 c.cipherIvLen
    let (decipher, c) ← { c with decipherIv := some decipherIv }.getCipher c.password c.method cipherEncDecryption
      decipherIv
    return ({ c with decipher }, fun i => buf (c.cipherIvLen + i), len - c.cipherIvLen)

def decrypt (c : Members evp) (buf : Mem) (len : ℤ) : Option (Members evp × Output) :=
  if len = 0 then
    some (c, { bytes := [], size := 0 })
  else do
    let (c, buf, len) ← c.openDecipher buf len
    if len = 0 then
      return (c, { bytes := [], size := 0 })
    else
      let ctx ← c.decipher
      let (ctx, decrypted) := update ctx buf len
      return ({ c with decipher := some ctx }, decrypted)

end Members

/-! ### Sequences of calls -/

/-- A call of `encrypt` or `decrypt`. -/
inductive Call where
  | encrypt (buf : Mem) (len : ℤ)
  | decrypt (buf : Mem) (len : ℤ)

def Call.isEncrypt : Call → Bool
  | .encrypt .. => true
  | .decrypt .. => false

def Members.call (c : Members evp) : Call → Option (Members evp × Output)
  | .encrypt buf len => c.encrypt buf len
  | .decrypt buf len => c.decrypt buf len

end Shadowc.Cryptor
