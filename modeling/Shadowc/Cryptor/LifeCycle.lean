import Shadowc.Cryptor.CfbMode
import Shadowc.Cryptor.InputBounds

/-!
# A `Cryptor` from its constructor to its destructor

`Members` is a `Cryptor` whose members all hold something.  Here the members start out unassigned, and a life cycle
ends with the first misuse: a member that is read before it is assigned, or a pointer that is followed when it is
`NULL`.  OpenSSL may fail to give the digest and to derive the key, each time anew.

Between operations of the same name on `Cells` and on `Members` stands `Cells.of`: on members that are all assigned
they are the same (`encrypt_of`, `decrypt_of`, `construct_of`).  `lifeCycle_eq` gives the first misuse of every life
cycle.
-/

namespace Shadowc.Cryptor

open Lib Memory Interference

variable {evp : Evp}

/-- The members of `Cryptor`, by name. -/
inductive Member where
  | cipher
  | decipher
  | cipherIv
  | decipherIv
  | cipherIvLen
  | ivSent
  | method
  | password
  deriving DecidableEq, Repr

inductive Misuse where
  /-- The member is read, and nothing has been assigned to it. -/
  | unassigned (member : Member)
  /-- The member is `NULL`, and it is used as an object. -/
  | absent (member : Member)
  /-- OpenSSL knows no such method, and the description of its cipher is used. -/
  | absentDescription
  deriving DecidableEq, Repr

/-- What is needed is there. -/
def need {α : Type} (misuse : Misuse) : Option α → Except Misuse α
  | some a => .ok a
  | none => .error misuse

/-- What `EVP_get_digestbyname` and `EVP_BytesToKey` give in one call of `get_cipher`; `none` when they fail. -/
structure KeyAnswers (evp : Evp) where
  digest : Option evp.Digest
  key : Option (List UInt8)

/-- The members; the outer `none` is a member that has not been assigned, the inner one is `NULL`. -/
structure Cells (evp : Evp) where
  cipher : Option (Option evp.Ctx)
  decipher : Option (Option evp.Ctx)
  cipherIv : Option (Option (List UInt8))
  decipherIv : Option (Option (List UInt8))
  cipherIvLen : Option ℕ
  ivSent : Option Bool
  method : Option String
  password : Option (List UInt8)

namespace Cells

/-- Nothing has been assigned. -/
def blank : Cells evp where
  cipher := none
  decipher := none
  cipherIv := none
  decipherIv := none
  cipherIvLen := none
  ivSent := none
  method := none
  password := none

/-- `set_cipher_iv` looks at the old IV, in order to delete it. -/
def setCipherIv (c : Cells evp) (iv : List UInt8) : Except Misuse (Cells evp) := do
  let _ ← need (.unassigned .cipherIv) c.cipherIv
  return { c with cipherIv := some (some iv) }

def getCipher (c : Cells evp) (answers : KeyAnswers evp) (method : String) (op : ℕ) (iv : List UInt8) :
    Except Misuse (Option evp.Ctx × Cells evp) :=
  match answers.digest with
  | none => return (none, c)
  | some _ => do
    -- `EVP_BytesToKey` and `cipher->iv_len` follow the pointer
    let cipher ← need .absentDescription (evp.getCipherByName method)
    match answers.key with
    | none => return (none, c)
    | some key =>
      let crypto := openSSLCrypto evp method key iv op
      let ivLen := evp.ivLen cipher
      let c := { c with cipherIvLen := some ivLen }
      if op = cipherEncEncryption then
        let c ← c.setCipherIv (iv.take ivLen)
        return (some crypto, c)
      else
        return (some crypto, c)

/-- The constructor, on what the members hold before. -/
def construct (raw : Cells evp) (answers : KeyAnswers evp) (random : Fin maxIvLength → UInt8) (password : List UInt8)
    (method : String) : Except Misuse (Cells evp) := do
  let (cipher, c) ← { raw with ivSent := some false }.getCipher answers method cipherEncEncryption (List.ofFn random)
  return { c with
    cipher := some cipher, decipherIv := some none, decipher := some none, method := some method,
    password := some password }

/-- `this->cipher->update` -/
def updateCipher (c : Cells evp) (buf : Mem) (len : ℤ) : Except Misuse (Cells evp × Output) := do
  let cipher ← need (.unassigned .cipher) c.cipher
  let ctx ← need (.absent .cipher) cipher
  let (ctx, out) := update ctx buf len
  return ({ c with cipher := some (some ctx) }, out)

def encrypt (c : Cells evp) (buf : Mem) (len : ℤ) : Except Misuse (Cells evp × Output) :=
  if len = 0 then
    return (c, { bytes := [], size := 0 })
  else do
    let ivSent ← need (.unassigned .ivSent) c.ivSent
    if ivSent then
      c.updateCipher buf len
    else
      let ivLen ← need (.unassigned .cipherIvLen) c.cipherIvLen
      let cipherIv ← need (.unassigned .cipherIv) c.cipherIv
      let iv ← need (.absent .cipherIv) cipherIv
      let (c, encrypted) ← c.updateCipher buf len
      return ({ c with ivSent := some true },
        { bytes := iv.take ivLen ++ encrypted.bytes, size := intSum encrypted.size ivLen })

/-- The first part of `decrypt`. -/
def openDecipher (c : Cells evp) (answers : KeyAnswers evp) (buf : Mem) (len : ℤ) :
    Except Misuse (Cells evp × Mem × ℤ) := do
  let decipher ← need (.unassigned .decipher) c.decipher
  match decipher with
  | some _ => return (c, buf, len)
  | none =>
    let ivLen ← need (.unassigned .cipherIvLen) c.cipherIvLen
    let decipherIv := slice buf 0 ivLen
    let c := { c with decipherIv := some (some decipherIv) }
    let _ ← need (.unassigned .password) c.password
    let method ← need (.unassigned .method) c.method
    let (decipher, c) ← c.getCipher answers method cipherEncDecryption decipherIv
    let ivLen ← need (.unassigned .cipherIvLen) c.cipherIvLen
    return ({ c with decipher := some decipher }, fun i => buf (ivLen + i), len - ivLen)

def decrypt (c : Cells evp) (answers : KeyAnswers evp) (buf : Mem) (len : ℤ) : Except Misuse (Cells evp × Output) :=
  if len = 0 then
    return (c, { bytes := [], size := 0 })
  else do
    let (c, buf, len) ← c.openDecipher answers buf len
    if len = 0 then
      return (c, { bytes := [], size := 0 })
    else
      let decipher ← need (.unassigned .decipher) c.decipher
      let ctx ← need (.absent .decipher) decipher
      let (ctx, decrypted) := update ctx buf len
      return ({ c with decipher := some (some ctx) }, decrypted)

/-- The destructor: it looks at each of the pointers, in order to delete what is there.  (It deletes the array of
`decipher_iv` as if it were an object, which frees it all the same.) -/
def destruct (c : Cells evp) : Except Misuse Unit := do
  let _ ← need (.unassigned .cipher) c.cipher
  let _ ← need (.unassigned .cipherIv) c.cipherIv
  let _ ← need (.unassigned .decipher) c.decipher
  let _ ← need (.unassigned .decipherIv) c.decipherIv

def call (c : Cells evp) (answers : KeyAnswers evp) : Call → Except Misuse (Cells evp × Output)
  | .encrypt buf len => c.encrypt buf len
  | .decrypt buf len => c.decrypt answers buf len

/-- The calls one after the other. -/
def calls (c : Cells evp) : List (Call × KeyAnswers evp) → Except Misuse (Cells evp × List Output)
  | [] => return (c, [])
  | (a, answers) :: rest => do
    let (c, out) ← c.call answers a
    let (c, outs) ← c.calls rest
    return (c, out :: outs)

end Cells

/-- The constructor, calls of `encrypt` and `decrypt`, and the destructor, on what the members hold before. -/
def lifeCycle (raw : Cells evp) (answers : KeyAnswers evp) (random : Fin maxIvLength → UInt8) (password : List UInt8)
    (method : String) (calls : List (Call × KeyAnswers evp)) : Except Misuse (List Output) := do
  let c ← raw.construct answers random password method
  let (c, outs) ← c.calls calls
  c.destruct
  return outs

/-! ### Members that are all assigned -/

/-- What OpenSSL gives for a password and a method, if it does not fail otherwise. -/
def Evp.keyAnswers (evp : Evp) (password : List UInt8) (method : String) : KeyAnswers evp where
  digest := evp.getDigestByName "md5"
  key := (evp.getDigestByName "md5").bind fun dgst =>
    (evp.getCipherByName method).bind fun cipher => evp.bytesToKey cipher dgst password

theorem toOption_bind {α β : Type} (x : Except Misuse α) (f : α → Except Misuse β) :
    (x >>= f).toOption = x.toOption.bind fun a => (f a).toOption := by
  cases x <;> rfl

theorem ok_of_toOption {α : Type} {x : Except Misuse α} {a : α} (h : x.toOption = some a) : x = .ok a := by
  cases x with
  | error misuse => cases h
  | ok b => exact congrArg _ (Option.some.inj h)

@[simp] theorem need_some {α : Type} (misuse : Misuse) (a : α) : need misuse (some a) = .ok a := rfl

namespace Cells

/-- The members, as they are. -/
def of (c : Members evp) : Cells evp where
  cipher := some c.cipher
  decipher := some c.decipher
  cipherIv := some (some c.cipherIv)
  decipherIv := some c.decipherIv
  cipherIvLen := some c.cipherIvLen
  ivSent := some c.ivSent
  method := some c.method
  password := some c.password

section Refinement

variable (c : Members evp) (buf : Mem) (len : ℤ)

theorem getCipher_of (password : List UInt8) (method : String) (op : ℕ) (iv : List UInt8) :
    ((of c).getCipher (evp.keyAnswers password method) method op iv).toOption =
      (c.getCipher password method op iv).map fun p => (p.1, of p.2) := by
  unfold getCipher Members.getCipher Evp.keyAnswers
  cases evp.getDigestByName "md5" with
  | none => rfl
  | some dgst =>
    cases evp.getCipherByName method with
    | none => rfl
    | some cipher =>
      simp only [Option.bind_some, need_some]
      cases evp.bytesToKey cipher dgst password with
      | none => rfl
      | some key =>
        by_cases hop : op = cipherEncEncryption
        · simp only [if_pos hop]
          rfl
        · simp only [if_neg hop]
          rfl

theorem construct_of (raw : Members evp) (random : Fin maxIvLength → UInt8) (password : List UInt8) (method : String) :
    ((of raw).construct (evp.keyAnswers password method) random password method).toOption =
      (Members.construct raw random password method).map of := by
  have h := getCipher_of { raw with ivSent := false } password method cipherEncEncryption (List.ofFn random)
  simp only [construct, Members.construct, toOption_bind, Option.bind_eq_bind, Option.map_bind]
  rw [show ({ of raw with ivSent := some false } : Cells evp) = of { raw with ivSent := false } from rfl, h,
    Option.bind_map]
  rfl

/-- On other memory the construction is the same, if `cipher_iv` has been assigned there. -/
theorem construct_keyed {password : List UInt8} {method : String} {cipher : evp.Cipher} {key : List UInt8}
    (hk : Keyed evp password method cipher key) (raw : Cells evp) (random : Fin maxIvLength → UInt8) :
    raw.construct (evp.keyAnswers password method) random password method =
      match raw.cipherIv with
      | none => .error (.unassigned .cipherIv)
      | some _ => .ok (of (fresh cipher key random password method)) := by
  obtain ⟨dgst, hd, hkey⟩ := hk.derived
  simp only [construct, getCipher, Evp.keyAnswers, hd, hk.byName, hkey, Option.bind_some, need_some, openSSLCrypto]
  cases raw.cipherIv <;> rfl

theorem encrypt_of : ((of c).encrypt buf len).toOption = (c.encrypt buf len).map fun p => (of p.1, p.2) := by
  obtain ⟨cipher, decipher, cipherIv, decipherIv, cipherIvLen, ivSent, method, password⟩ := c
  unfold encrypt Members.encrypt
  split
  · rfl
  · cases cipher <;> cases ivSent <;> rfl

theorem openDecipher_of : ((of c).openDecipher (evp.keyAnswers c.password c.method) buf len).toOption =
    (c.openDecipher buf len).map fun p => (of p.1, p.2) := by
  obtain ⟨cipher, decipher, cipherIv, decipherIv, cipherIvLen, ivSent, method, password⟩ := c
  cases decipher with
  | some ctx => rfl
  | none =>
    have h := getCipher_of
      ⟨cipher, none, cipherIv, some (slice buf 0 cipherIvLen), cipherIvLen, ivSent, method, password⟩
      password method cipherEncDecryption (slice buf 0 cipherIvLen)
    have hopen : (of ⟨cipher, none, cipherIv, decipherIv, cipherIvLen, ivSent, method, password⟩).openDecipher
          (evp.keyAnswers password method) buf len =
        (of ⟨cipher, none, cipherIv, some (slice buf 0 cipherIvLen), cipherIvLen, ivSent, method, password⟩).getCipher
          (evp.keyAnswers password method) method cipherEncDecryption (slice buf 0 cipherIvLen) >>= fun p =>
            need (.unassigned .cipherIvLen) p.2.cipherIvLen >>= fun ivLen =>
              pure ({ p.2 with decipher := some p.1 }, fun i => buf (ivLen + i), len - ivLen) := rfl
    rw [hopen, toOption_bind, h, Option.bind_map, Members.openDecipher, Option.bind_eq_bind, Option.map_bind]
    rfl

theorem decrypt_of : ((of c).decrypt (evp.keyAnswers c.password c.method) buf len).toOption =
    (c.decrypt buf len).map fun p => (of p.1, p.2) := by
  unfold decrypt Members.decrypt
  split
  · rfl
  · rw [toOption_bind, openDecipher_of, Option.bind_map, Option.bind_eq_bind, Option.map_bind]
    congr 1
    funext ⟨c', buf', len'⟩
    obtain ⟨cipher, decipher, cipherIv, decipherIv, cipherIvLen, ivSent, method, password⟩ := c'
    simp only [Function.comp]
    split
    · rfl
    · cases decipher <;> rfl

/-- **A call on assigned members is a call on `Members`.** -/
theorem call_of (a : Call) : ((of c).call (evp.keyAnswers c.password c.method) a).toOption =
    (c.call a).map fun p => (of p.1, p.2) := by
  cases a with
  | encrypt buf len => exact encrypt_of c buf len
  | decrypt buf len => exact decrypt_of c buf len

end Refinement

/-- The calls of a session on assigned members, when OpenSSL gives the same each time. -/
theorem calls_of {c : Members evp} (hc : c.Settled) (as : List Call) :
    ((of c).calls (as.map fun a => (a, evp.keyAnswers c.password c.method))).toOption =
      (answers Members.call c as).map fun p => (of p.1, p.2.map Prod.snd) := by
  induction as generalizing c with
  | nil => rfl
  | cons a as ih =>
    simp only [List.map_cons, calls, answers, toOption_bind, call_of, Option.bind_map, Option.map_bind]
    cases ha : c.call a with
    | none => rfl
    | some p =>
      obtain ⟨hp, hm, -⟩ := Members.call_frame hc ha
      have h := ih (Members.settled_call hc ha)
      rw [hp, hm] at h
      simp only [Option.bind_some, Function.comp, h, Option.bind_map, Option.map_map]
      cases answers Members.call p.1 as <;> rfl

end Cells

/-- **On memory in which all members hold something** a life cycle is a session of `Members`. -/
theorem lifeCycle_of (raw : Members evp) (random : Fin maxIvLength → UInt8) (password : List UInt8) (method : String)
    (as : List Call) :
    (lifeCycle (.of raw) (evp.keyAnswers password method) random password method
        (as.map fun a => (a, evp.keyAnswers password method))).toOption =
      (Members.construct raw random password method).bind fun c =>
        (answers Members.call c as).map fun p => p.2.map Prod.snd := by
  simp only [lifeCycle, toOption_bind, Cells.construct_of, Option.bind_map]
  cases hc : Members.construct raw random password method with
  | none => rfl
  | some c =>
    have hkey : c.password = password ∧ c.method = method := by
      obtain ⟨_, -, h⟩ := Option.bind_eq_some_iff.1 hc
      cases h
      exact ⟨rfl, rfl⟩
    have h := Cells.calls_of (Members.settled_construct hc) as
    rw [hkey.1, hkey.2] at h
    simp only [Option.bind_some, Function.comp, h, Option.bind_map]
    cases answers Members.call c as <;> rfl

/-! ### Members that start out unassigned -/

namespace Cells

/-- The members after a constructor for which `get_cipher` has returned `NULL`. -/
def keyless (password : List UInt8) (method : String) : Cells evp where
  cipher := some none
  decipher := some none
  cipherIv := none
  decipherIv := some none
  cipherIvLen := none
  ivSent := some false
  method := some method
  password := some password

section Keyless

variable (answers : KeyAnswers evp) (random : Fin maxIvLength → UInt8) (password : List UInt8) (method : String)

/-- A constructor that gets as far as the IV looks at the old one. -/
theorem construct_blank : blank.construct answers random password method =
    match answers.digest, evp.getCipherByName method, answers.key with
    | some _, none, _ => .error .absentDescription
    | some _, some _, some _ => .error (.unassigned .cipherIv)
    | _, _, _ => .ok (keyless password method) := by
  unfold construct getCipher
  cases answers.digest with
  | none => rfl
  | some dgst =>
    cases evp.getCipherByName method with
    | none => rfl
    | some cipher => cases answers.key <;> rfl

theorem encrypt_keyless (buf : Mem) (len : ℤ) : (keyless password method : Cells evp).encrypt buf len =
    if len = 0 then .ok (keyless password method, { bytes := [], size := 0 })
    else .error (.unassigned .cipherIvLen) := by
  unfold encrypt
  split <;> rfl

theorem decrypt_keyless (buf : Mem) (len : ℤ) : (keyless password method : Cells evp).decrypt answers buf len =
    if len = 0 then .ok (keyless password method, { bytes := [], size := 0 })
    else .error (.unassigned .cipherIvLen) := by
  unfold decrypt
  split <;> rfl

/-- Without a key the length of the IV is not known. -/
theorem call_keyless (a : Call) : (keyless password method : Cells evp).call answers a =
    if a.len = 0 then .ok (keyless password method, { bytes := [], size := 0 })
    else .error (.unassigned .cipherIvLen) := by
  cases a with
  | encrypt buf len => exact encrypt_keyless password method buf len
  | decrypt buf len => exact decrypt_keyless answers password method buf len

theorem calls_keyless (as : List (Call × KeyAnswers evp)) : (keyless password method : Cells evp).calls as =
    if ∀ a ∈ as, a.1.len = 0 then .ok (keyless password method, as.map fun _ => { bytes := [], size := 0 })
    else .error (.unassigned .cipherIvLen) := by
  induction as with
  | nil => rfl
  | cons a as ih =>
    rw [calls, call_keyless]
    have hcons : (∀ b ∈ a :: as, b.1.len = 0) ↔ a.1.len = 0 ∧ ∀ b ∈ as, b.1.len = 0 := List.forall_mem_cons
    by_cases ha : a.1.len = 0
    · rw [if_pos ha]
      simp only [bind, Except.bind]
      by_cases has : ∀ b ∈ as, b.1.len = 0
      · rw [ih, if_pos has, if_pos (hcons.2 ⟨ha, has⟩)]
        rfl
      · rw [ih, if_neg has, if_neg fun h => has (hcons.1 h).2]
    · rw [if_neg ha, if_neg fun h => ha (hcons.1 h).1]
      rfl

end Keyless

end Cells

/-- When `get_cipher` returns `NULL` in the constructor: the first call that is given something is a misuse, and the
destructor otherwise. -/
def misuseWithoutKey (calls : List (Call × KeyAnswers evp)) : Misuse :=
  if ∀ a ∈ calls, a.1.len = 0 then .unassigned .cipherIv else .unassigned .cipherIvLen

/-- The first misuse in a life cycle. -/
def firstMisuse (answers : KeyAnswers evp) (method : String) (calls : List (Call × KeyAnswers evp)) : Misuse :=
  match answers.digest, evp.getCipherByName method, answers.key with
  | some _, none, _ => .absentDescription
  | some _, some _, some _ => .unassigned .cipherIv
  | _, _, _ => misuseWithoutKey calls

section FirstMisuse

variable (answers : KeyAnswers evp) (random : Fin maxIvLength → UInt8) (password : List UInt8) (method : String)
  (calls : List (Call × KeyAnswers evp))

theorem lifeCycle_keyless : (do
      let (c, outs) ← (Cells.keyless password method : Cells evp).calls calls
      c.destruct
      return outs : Except Misuse (List Output)) = .error (misuseWithoutKey calls) := by
  rw [Cells.calls_keyless, misuseWithoutKey]
  split <;> rfl

theorem lifeCycle_eq :
    lifeCycle .blank answers random password method calls = .error (firstMisuse answers method calls) := by
  have hkeyless := lifeCycle_keyless password method calls
  rw [lifeCycle, Cells.construct_blank, firstMisuse]
  cases answers.digest with
  | none => exact hkeyless
  | some dgst =>
    cases evp.getCipherByName method with
    | none => rfl
    | some cipher =>
      cases answers.key with
      | none => exact hkeyless
      | some key => rfl

/-- No member is read before it is assigned, and nothing that is absent is used. -/
def Clean (run : Except Misuse (List Output)) : Prop := ∃ outs, run = .ok outs

/-- **No life cycle is clean.**  Whatever the password, the method, the answers of OpenSSL and the calls are, it ends
with a misuse: `set_cipher_iv` or the destructor reads `cipher_iv`, which the constructor leaves unassigned, unless
something that is absent is used before. -/
theorem life_cycle_misused :
    ¬ Clean (lifeCycle .blank answers random password method calls) ∧
      lifeCycle .blank answers random password method calls = .error (firstMisuse answers method calls) := by
  refine ⟨?_, lifeCycle_eq answers random password method calls⟩
  rintro ⟨outs, h⟩
  rw [lifeCycle_eq] at h
  cases h

end FirstMisuse

/-- A life cycle without any call, in which OpenSSL does not fail. -/
theorem life_cycle_unassigned :
    lifeCycle .blank (knownEvp.keyAnswers knownPassword "aes-256-cfb") knownIv knownPassword "aes-256-cfb" [] =
        .error (.unassigned .cipherIv) ∧
      ¬ Clean (lifeCycle .blank (knownEvp.keyAnswers knownPassword "aes-256-cfb") knownIv knownPassword "aes-256-cfb"
        []) := by
  refine ⟨rfl, ?_⟩
  rintro ⟨outs, h⟩
  cases h

end Shadowc.Cryptor
