import Shadowc.Cryptor.Model

/-!
# A `Cryptor` after its construction

When `get_cipher` has succeeded once it succeeds again, since it depends on the password and the method alone
(`Keyed`).  A constructed `Cryptor` therefore never fails (`Ready`), and its operations are given by equations: one for
`encrypt` before and after the IV has been sent, and one for the decipher that `decrypt` makes of the first bytes.
-/

namespace Shadowc.Cryptor

open Lib Memory

variable {evp : Evp}

/-- What `get_cipher` finds for a password and a method. -/
structure Keyed (evp : Evp) (password : List UInt8) (method : String) (cipher : evp.Cipher) (key : List UInt8) :
    Prop where
  byName : evp.getCipherByName method = some cipher
  derived : ∃ dgst, evp.getDigestByName "md5" = some dgst ∧ evp.bytesToKey cipher dgst password = some key

theorem Keyed.unique {password : List UInt8} {method : String} {cipher cipher' : evp.Cipher} {key key' : List UInt8}
    (h : Keyed evp password method cipher key) (h' : Keyed evp password method cipher' key') :
    cipher = cipher' ∧ key = key' := by
  obtain rfl : cipher = cipher' := Option.some.inj (h.byName.symm.trans h'.byName)
  obtain ⟨dgst, hd, hk⟩ := h.derived
  obtain ⟨dgst', hd', hk'⟩ := h'.derived
  obtain rfl : dgst = dgst' := Option.some.inj (hd.symm.trans hd')
  exact ⟨rfl, Option.some.inj (hk.symm.trans hk')⟩

namespace Members

/-- `get_cipher` returns no `Crypto` unless it finds everything it needs. -/
theorem getCipher_some {c c' : Members evp} {password : List UInt8} {method : String} {op : ℕ} {iv : List UInt8}
    {ctx : evp.Ctx} (h : c.getCipher password method op iv = some (some ctx, c')) :
    ∃ cipher key, Keyed evp password method cipher key := by
  unfold getCipher at h
  split at h
  · cases h
  next dgst hd =>
  split at h
  · cases h
  next cipher hc =>
  split at h
  · cases h
  next key hk => exact ⟨cipher, key, hc, dgst, hd, hk⟩

theorem getCipher_keyed {password : List UInt8} {method : String} {cipher : evp.Cipher} {key : List UInt8}
    (hk : Keyed evp password method cipher key) (c : Members evp) (op : ℕ) (iv : List UInt8) :
    c.getCipher password method op iv = some (some (evp.cipherInit cipher key (iv.take (evp.ivLen cipher)) op),
      if op = cipherEncEncryption then
        { c with cipherIvLen := evp.ivLen cipher, cipherIv := iv.take (evp.ivLen cipher) }
      else { c with cipherIvLen := evp.ivLen cipher }) := by
  obtain ⟨dgst, hd, hkey⟩ := hk.derived
  simp only [getCipher, hd, hk.byName, hkey, openSSLCrypto]
  split <;> rfl

end Members

/-- The IV of a new `Cryptor`: as much of the random bytes as the cipher needs. -/
def ivOf (cipher : evp.Cipher) (random : Fin maxIvLength → UInt8) : List UInt8 :=
  (List.ofFn random).take (evp.ivLen cipher)

@[simp] theorem length_ivOf (cipher : evp.Cipher) (random : Fin maxIvLength → UInt8) :
    (ivOf cipher random).length = evp.ivLen cipher := by
  simp [ivOf, evp.ivLen_le cipher]

/-- The members of a new `Cryptor`. -/
def fresh (cipher : evp.Cipher) (key : List UInt8) (random : Fin maxIvLength → UInt8) (password : List UInt8)
    (method : String) : Members evp where
  cipher := some (evp.cipherInit cipher key (ivOf cipher random) cipherEncEncryption)
  decipher := none
  cipherIv := ivOf cipher random
  decipherIv := none
  cipherIvLen := evp.ivLen cipher
  ivSent := false
  method := method
  password := password

/-- **A construction succeeds** when the password and the method have a cipher and a key, and then the members are
those of `fresh`. -/
theorem construct_eq {raw c : Members evp} {random : Fin maxIvLength → UInt8} {password : List UInt8} {method : String}
    (h : Members.construct raw random password method = some c) (hc : c.cipher ≠ none) :
    ∃ cipher key, Keyed evp password method cipher key ∧ c = fresh cipher key random password method := by
  obtain ⟨⟨ctx, c₁⟩, hget, h⟩ := Option.bind_eq_some_iff.1 h
  cases h
  obtain ⟨ctx, rfl⟩ : ∃ x, ctx = some x := Option.ne_none_iff_exists'.1 hc
  obtain ⟨cipher, key, hk⟩ := Members.getCipher_some hget
  refine ⟨cipher, key, hk, ?_⟩
  rw [Members.getCipher_keyed hk, if_pos rfl] at hget
  obtain ⟨h1, rfl⟩ := Prod.mk.inj (Option.some.inj hget)
  rw [← h1]
  rfl

theorem construct_fresh {password : List UInt8} {method : String} {cipher : evp.Cipher} {key : List UInt8}
    (hk : Keyed evp password method cipher key) (raw : Members evp) (random : Fin maxIvLength → UInt8) :
    Members.construct raw random password method = some (fresh cipher key random password method) := by
  rw [Members.construct, Members.getCipher_keyed hk, if_pos rfl]
  rfl

/-! ### The operations -/

/-- A `Cryptor` that can be used: it has a cipher, and `get_cipher` would succeed again. -/
structure Ready (c : Members evp) (cipher : evp.Cipher) (key : List UInt8) : Prop where
  keyed : Keyed evp c.password c.method cipher key
  ivLen : c.cipherIvLen = evp.ivLen cipher
  cipher : c.cipher ≠ none

theorem ready_fresh {password : List UInt8} {method : String} {cipher : evp.Cipher} {key : List UInt8}
    (hk : Keyed evp password method cipher key) (random : Fin maxIvLength → UInt8) :
    Ready (fresh cipher key random password method) cipher key :=
  ⟨hk, rfl, by simp [fresh]⟩

section Equations

variable (c : Members evp) (buf : Mem) {len : ℤ}

theorem encrypt_zero : c.encrypt buf 0 = some (c, { bytes := [], size := 0 }) := rfl

theorem decrypt_zero : c.decrypt buf 0 = some (c, { bytes := [], size := 0 }) := rfl

theorem encrypt_sent {c : Members evp} {ctx : evp.Ctx} (hc : c.cipher = some ctx) (hs : c.ivSent = true)
    (hlen : len ≠ 0) : c.encrypt buf len =
      some ({ c with cipher := some (update ctx buf len).1 }, (update ctx buf len).2) := by
  simp only [Members.encrypt, if_neg hlen, hc, hs, if_true]

theorem encrypt_first {c : Members evp} {ctx : evp.Ctx} (hc : c.cipher = some ctx) (hs : c.ivSent = false)
    (hlen : len ≠ 0) : c.encrypt buf len =
      some ({ c with cipher := some (update ctx buf len).1, ivSent := true },
        { bytes := c.cipherIv.take c.cipherIvLen ++ (update ctx buf len).2.bytes
          size := intSum (update ctx buf len).2.size c.cipherIvLen }) := by
  simp only [Members.encrypt, if_neg hlen, hc, hs, Bool.false_eq_true, if_false]

/-- The decipher that `decrypt` makes of the first bytes of the payload. -/
def decipherOf (cipher : evp.Cipher) (key : List UInt8) (buf : Mem) : evp.Ctx :=
  evp.cipherInit cipher key (slice buf 0 (evp.ivLen cipher)) cipherEncDecryption

theorem openDecipher_some {c : Members evp} {ctx : evp.Ctx} (hd : c.decipher = some ctx) :
    c.openDecipher buf len = some (c, buf, len) := by
  simp only [Members.openDecipher, hd]

theorem openDecipher_none {c : Members evp} {cipher : evp.Cipher} {key : List UInt8} (hr : Ready c cipher key)
    (hd : c.decipher = none) : c.openDecipher buf len =
      some ({ c with decipher := some (decipherOf cipher key buf), decipherIv := some (slice buf 0 c.cipherIvLen) },
        fun i => buf (c.cipherIvLen + i), len - c.cipherIvLen) := by
  have htake : (slice buf 0 c.cipherIvLen).take (evp.ivLen cipher) = slice buf 0 (evp.ivLen cipher) := by
    rw [← hr.ivLen, List.take_of_length_le (by simp)]
  simp only [Members.openDecipher, hd]
  rw [Members.getCipher_keyed hr.keyed, if_neg (by decide), htake, ← hr.ivLen]
  simp only [decipherOf, ← hr.ivLen, Option.bind_eq_bind, Option.bind_some]
  rfl

theorem decrypt_open {c : Members evp} {ctx : evp.Ctx} (hd : c.decipher = some ctx) (hlen : len ≠ 0) :
    c.decrypt buf len = some ({ c with decipher := some (update ctx buf len).1 }, (update ctx buf len).2) := by
  simp only [Members.decrypt, if_neg hlen, openDecipher_some buf hd, hd, Option.bind_eq_bind, Option.bind_some]
  rfl

/-- The first call of `decrypt` that is given something. -/
theorem decrypt_first {c : Members evp} {cipher : evp.Cipher} {key : List UInt8} (hr : Ready c cipher key)
    (hd : c.decipher = none) (hlen : len ≠ 0) : c.decrypt buf len = some
      (if len - c.cipherIvLen = 0 then
        ({ c with decipher := some (decipherOf cipher key buf), decipherIv := some (slice buf 0 c.cipherIvLen) },
          { bytes := [], size := 0 })
      else
        ({ c with
            decipher := some (update (decipherOf cipher key buf) (fun i => buf (c.cipherIvLen + i))
              (len - c.cipherIvLen)).1
            decipherIv := some (slice buf 0 c.cipherIvLen) },
          (update (decipherOf cipher key buf) (fun i => buf (c.cipherIvLen + i)) (len - c.cipherIvLen)).2)) := by
  simp only [Members.decrypt, if_neg hlen, openDecipher_none buf hr hd, Option.bind_eq_bind, Option.bind_some]
  split <;> rfl

end Equations

end Shadowc.Cryptor
