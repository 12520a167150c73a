import Shadowc.Cryptor.LifeCycle
import Shadowc.Dns.EncodeSpec

/-!
# The test programs for the ciphers

`test_crypto` encrypts a large array in pieces of random length, decrypts the result in other pieces and compares;
`test_cryptor` sends one text from one `Cryptor` to another.  For a cipher in a streaming mode that undoes itself they
find no error, whatever `rand` and `/dev/urandom` give: `runCipher_good`, `testEncryptor_ok_iff`.  The second must find
something in `cipher_iv` that can be deleted, or `NULL`.
-/

namespace Shadowc.Cryptor

open Lib Memory Transducer
open Dns (storeBytes storeBytes_nil storeBytes_append slice_storeBytes storeBytes_of_ge)

variable {evp : Evp}

/-! ### `run_cipher` -/

namespace TestCrypto

def blockSize : ℕ := 16384
def rounds : ℕ := 1024

/-- The length of the three arrays. -/
def total : ℕ := blockSize * rounds

/-- The variables of a loop: the cipher, how often `rand` has been called, `pos`, the array that is written, and
`result_pos`. -/
structure Pieces (evp : Evp) where
  ctx : evp.Ctx
  calls : ℕ
  pos : ℕ
  out : Mem
  resultPos : ℕ

/-- The length of a piece. -/
def pieceLen (modulus r pos : ℕ) : ℕ :=
  let l := r % modulus + 100
  if pos + l < total then l else total - pos

/-- One turn; what `rand` gives at its `n`-th call is `rand n`. -/
def Pieces.turn (modulus : ℕ) (rand : ℕ → ℕ) (data : Mem) (p : Pieces evp) : Pieces evp :=
  let l := pieceLen modulus (rand p.calls) p.pos
  let (ctx, result) := update p.ctx (fun i => data (p.pos + i)) l
  { ctx
    calls := p.calls + 1
    pos := p.pos + l
    out := storeBytes p.out p.resultPos result.bytes
    resultPos := p.resultPos + result.size.toNat }

theorem pieceLen_pos (modulus r : ℕ) {pos : ℕ} (h : pos < total) :
    0 < pieceLen modulus r pos ∧ pos + pieceLen modulus r pos ≤ total := by
  simp only [pieceLen]
  split <;> omega

/-- `while (pos < BLOCK_SIZE * rounds)`: each turn moves `pos` on. -/
def Pieces.run (modulus : ℕ) (rand : ℕ → ℕ) (data : Mem) (p : Pieces evp) : Pieces evp :=
  if p.pos < total then run modulus rand data (p.turn modulus rand data) else p
termination_by total - p.pos
decreasing_by
  have := pieceLen_pos modulus (rand p.calls) ‹p.pos < total›
  simp only [Pieces.turn]
  omega

/-- The lines of the comparison. -/
def mismatches (plain decrypted : Mem) (n : ℕ) : List String :=
  ((List.range n).filter fun i => plain i ≠ decrypted i).map fun i =>
    "i=" ++ toString i ++ ": " ++ toString (plain i).toNat ++ " != " ++ toString (decrypted i).toNat

/-- What `run_cipher` prints after its start.  `encrypted` and `decrypted` are the new arrays as they are allocated. -/
def runCipher (cipher decipher : evp.Ctx) (rand : ℕ → ℕ) (plain encrypted decrypted : Mem) : List String :=
  let p := Pieces.run 32688 rand plain { ctx := cipher, calls := 0, pos := 0, out := encrypted, resultPos := 0 }
  let q := Pieces.run 32668 rand p.out { ctx := decipher, calls := p.calls, pos := 0, out := decrypted, resultPos := 0 }
  let errors := mismatches plain q.out total
  if errors = [] then ["All good!"] else errors

/-- What a loop has done: it has passed on the first `pos` bytes, and written what the cipher gives for them. -/
structure Done {cipher : evp.Cipher} (m : StreamMode evp cipher) (ctx : evp.Ctx) (data out : Mem) (p : Pieces evp) :
    Prop where
  pos : p.pos ≤ total
  resultPos : p.resultPos = p.pos
  resumes : Resumes m.live m.crypt ctx (slice data 0 p.pos) p.ctx
  written : p.out = storeBytes out 0 (m.crypt ctx (slice data 0 p.pos)).2

variable {cipher : evp.Cipher} {m : StreamMode evp cipher} {ctx : evp.Ctx} {data out : Mem}

theorem Done.start (hl : m.live ctx) (calls : ℕ) :
    Done m ctx data out { ctx, calls, pos := 0, out, resultPos := 0 } := by
  refine ⟨Nat.zero_le _, rfl, m.streaming.resumes_start hl, ?_⟩
  rw [slice_zero, m.streaming.output_nil hl, storeBytes_nil]

theorem Done.turn {p : Pieces evp} (h : Done m ctx data out p) (hl : m.live ctx) (modulus : ℕ) (rand : ℕ → ℕ)
    (hpos : p.pos < total) : Done m ctx data out (p.turn modulus rand data) := by
  have hlen := pieceLen_pos modulus (rand p.calls) hpos
  have hmax : total ≤ intMax := by decide
  simp only [Pieces.turn]
  generalize pieceLen modulus (rand p.calls) p.pos = l at hlen
  have hpiece : slice (fun i => data (p.pos + i)) 0 l = slice data p.pos l :=
    slice_congr fun i _ => by rw [Nat.zero_add]
  have hslice : slice data 0 (p.pos + l) = slice data 0 p.pos ++ slice data p.pos l := by
    rw [slice_add, Nat.zero_add]
  have hwritten := m.streaming.length ctx (slice data 0 p.pos) hl
  rw [length_slice] at hwritten
  rw [update_chunk m h.resumes.1 _ (by omega), hpiece]
  refine ⟨hlen.2, ?_, ?_, ?_⟩
  · simp only [h.resultPos, Int.toNat_natCast]
  · simp only [hslice]
    exact m.streaming.resumes h.resumes _
  · have happend := storeBytes_append out 0 (m.crypt ctx (slice data 0 p.pos)).2
      (m.crypt p.ctx (slice data p.pos l)).2
    rw [hwritten, Nat.zero_add] at happend
    simp only [hslice, h.resumes.2, h.written, h.resultPos, happend]

/-- **A loop** writes what the cipher gives for the whole array, whatever the pieces. -/
theorem Done.run {p : Pieces evp} (h : Done m ctx data out p) (hl : m.live ctx) (modulus : ℕ) (rand : ℕ → ℕ) :
    (p.run modulus rand data).out = storeBytes out 0 (m.crypt ctx (slice data 0 total)).2 := by
  induction p using Pieces.run.induct modulus rand data with
  | case1 p hpos ih =>
    rw [Pieces.run, if_pos hpos]
    exact ih (h.turn hl modulus rand hpos)
  | case2 p hpos =>
    have hend : p.pos = total := Nat.le_antisymm h.pos (Nat.le_of_not_lt hpos)
    rw [Pieces.run, if_neg hpos, h.written, hend]

theorem mismatches_eq_nil {plain decrypted : Mem} {n : ℕ} (h : slice decrypted 0 n = slice plain 0 n) :
    mismatches plain decrypted n = [] := by
  have hfilter : (List.range n).filter (fun i => plain i ≠ decrypted i) = [] := by
    apply List.filter_eq_nil_iff.2
    intro i hi
    have hget := getElem?_slice decrypted 0 (List.mem_range.1 hi)
    rw [h, getElem?_slice plain 0 (List.mem_range.1 hi), Nat.zero_add] at hget
    simpa using Option.some.inj hget
  rw [mismatches, hfilter, List.map_nil]

/-- **The test finds no error.**  For a cipher in a streaming mode that undoes itself, and every key and IV: whatever
pieces `rand` cuts both arrays into, whatever the text is and the new arrays hold. -/
theorem runCipher_good (m : StreamMode evp cipher) (hinv : Inverse m) {name : String}
    (hname : evp.getCipherByName name = some cipher) {key iv : List UInt8} (hiv : evp.ivLen cipher ≤ iv.length)
    (rand : ℕ → ℕ) (plain encrypted decrypted : Mem) :
    runCipher (openSSLCrypto evp name key iv cipherEncEncryption) (openSSLCrypto evp name key iv cipherEncDecryption)
      rand plain encrypted decrypted = ["All good!"] := by
  simp only [runCipher, openSSLCrypto, hname]
  have hlive := fun op => m.init key (iv.take (evp.ivLen cipher)) op
  have hpart : (iv.take (evp.ivLen cipher)).length = evp.ivLen cipher := by
    rw [List.length_take]
    omega
  have hlen := m.streaming.length _ (slice plain 0 total) (hlive cipherEncEncryption)
  rw [length_slice] at hlen
  rw [(Done.start (hlive cipherEncEncryption) 0).run (hlive cipherEncEncryption)]
  rw [(Done.start (hlive cipherEncDecryption) _).run (hlive cipherEncDecryption)]
  have hread := slice_storeBytes encrypted 0
    (m.crypt (evp.cipherInit cipher key (iv.take (evp.ivLen cipher)) cipherEncEncryption)
      (slice plain 0 total)).2
  rw [hlen] at hread
  rw [hread, hinv key _ _ hpart]
  have hplain := slice_storeBytes decrypted 0 (slice plain 0 total)
  rw [length_slice] at hplain
  rw [mismatches_eq_nil hplain, if_pos rfl]

/-- The key and the IV of the program, and a `rand` that counts. -/
theorem runCipher_good_known : runCipher
    (openSSLCrypto knownEvp "aes-256-cfb" ((List.range 32).map UInt8.ofNat) ((List.range' 1 16).map UInt8.ofNat) 1)
    (openSSLCrypto knownEvp "aes-256-cfb" ((List.range 32).map UInt8.ofNat) ((List.range' 1 16).map UInt8.ofNat) 0)
    (fun n => n) (fun _ => 1) (fun _ => 0) (fun _ => 0) = ["All good!"] :=
  runCipher_good knownMode (cfb_inverse _ _) rfl
    (show 16 ≤ ((List.range' 1 16).map UInt8.ofNat).length by decide) (fun n => n) (fun _ => 1) (fun _ => 0) fun _ => 0

end TestCrypto

/-! ### `test_encryptor` -/

namespace TestCryptor

/-- The length of `plain` and `plain2`, and of `encrypted`. -/
def plainLen : ℕ := 10240
def encryptedLen : ℕ := 15240

def password : List UInt8 := [107, 101, 121]
def method : String := "aes-256-cfb"

/-- What `test_encryptor` prints after the lines of the two `Cryptor`s, which are destructed at its end.  The arguments
are what the members and the arrays hold before, and what `/dev/urandom` gives. -/
def testEncryptor (raw raw' : Cells evp) (random random' : Fin maxIvLength → UInt8)
    (plain encrypted plain2 : Mem) : Except Misuse (List String) := do
  let encryptor ← raw.construct (evp.keyAnswers password method) random password method
  let decryptor ← raw'.construct (evp.keyAnswers password method) random' password method
  let (encryptor, out) ← encryptor.encrypt plain plainLen
  let encrypted := storeBytes encrypted 0 out.bytes
  let (decryptor, out2) ← decryptor.decrypt (evp.keyAnswers password method) encrypted out.size
  let plain2 := storeBytes plain2 0 out2.bytes
  let lines := match (List.range plainLen).find? fun i => plain i ≠ plain2 i with
    | some i => ["error at " ++ toString i, "Error!"]
    | none => ["OK!"]
  decryptor.destruct
  encryptor.destruct
  return lines

theorem find?_mismatch_eq_none {plain plain2 : Mem} {n : ℕ} (h : slice plain2 0 n = slice plain 0 n) :
    (List.range n).find? (fun i => plain i ≠ plain2 i) = none := by
  apply List.find?_eq_none.2
  intro i hi
  have hget := getElem?_slice plain2 0 (List.mem_range.1 hi)
  rw [h, getElem?_slice plain 0 (List.mem_range.1 hi), Nat.zero_add] at hget
  simpa using Option.some.inj hget

section Text

variable {cipher : evp.Cipher} {key : List UInt8} (m : StreamMode evp cipher) (random : Fin maxIvLength → UInt8)
  (plain : Mem)

/-- The ciphertext of the text. -/
def ciphertext (key : List UInt8) : List UInt8 :=
  (m.crypt (evp.cipherInit cipher key (ivOf cipher random) cipherEncEncryption) (slice plain 0 plainLen)).2

theorem length_ciphertext : (ciphertext m random plain key).length = plainLen := by
  rw [ciphertext, m.streaming.length _ _ (m.init ..), length_slice]

/-- The first `Cryptor` encrypts the text. -/
theorem encrypt_plain : ∃ c, (fresh cipher key random password method).encrypt plain plainLen =
    some (c, { bytes := ivOf cipher random ++ ciphertext m random plain key
               size := (plainLen + evp.ivLen cipher : ℕ) }) := by
  have hmax : plainLen + 16 ≤ intMax := by decide
  have hiv : evp.ivLen cipher ≤ 16 := evp.ivLen_le cipher
  have henc := encrypt_first_chunk m ⟨plain, plainLen, by omega⟩ (c := fresh cipher key random password method)
    rfl rfl (m.init key (ivOf cipher random) cipherEncEncryption) (length_ivOf cipher random)
    (show plainLen ≠ 0 by decide)
  have hsize : intSum plainLen (fresh cipher key random password method).cipherIvLen =
      (plainLen + evp.ivLen cipher : ℕ) := intSum_eq (show plainLen + evp.ivLen cipher ≤ intMax by omega)
  rw [hsize] at henc
  exact ⟨_, henc⟩

/-- The second takes the IV from what it receives, and decrypts what follows. -/
theorem decrypt_received (hk : Keyed evp password method cipher key) (hinv : Inverse m)
    (random' : Fin maxIvLength → UInt8) {received : Mem}
    (hr : slice received 0 (evp.ivLen cipher + plainLen) = ivOf cipher random ++ ciphertext m random plain key) :
    ∃ d, (fresh cipher key random' password method).decrypt received ((plainLen + evp.ivLen cipher : ℕ) : ℤ) =
      some (d, { bytes := slice plain 0 plainLen, size := plainLen }) := by
  have hiv := length_ivOf cipher random
  rw [slice_add, Nat.zero_add] at hr
  obtain ⟨hfront, hrest⟩ := List.append_inj hr (by rw [length_slice, hiv])
  have hpay : slice (fun i => received (evp.ivLen cipher + i)) 0 plainLen = ciphertext m random plain key := by
    rw [← hrest]
    exact slice_congr fun i _ => by rw [Nat.zero_add]
  have hctx : decipherOf cipher key received = evp.cipherInit cipher key (ivOf cipher random) cipherEncDecryption := by
    rw [decipherOf, hfront]
  have hsub : ((plainLen + evp.ivLen cipher : ℕ) : ℤ) - ((fresh cipher key random' password method).cipherIvLen : ℤ) =
      (plainLen : ℕ) := by
    show ((plainLen + evp.ivLen cipher : ℕ) : ℤ) - (evp.ivLen cipher : ℤ) = _
    omega
  have hpos : 0 < plainLen := by decide
  have hdec := decrypt_first received (ready_fresh hk random') rfl
    (show ((plainLen + evp.ivLen cipher : ℕ) : ℤ) ≠ 0 by omega)
  have hiv' : (fresh cipher key random' password method).cipherIvLen = evp.ivLen cipher := rfl
  rw [hsub, if_neg (by omega), hctx, update_chunk m (m.init ..) _ (by decide)] at hdec
  simp only [hiv', hpay, ciphertext, hinv key (ivOf cipher random) _ hiv] at hdec
  exact ⟨_, hdec⟩

end Text

/-- **When the test prints `OK!`**: whatever the text and the two IVs are, exactly when `cipher_iv` holds something that
`set_cipher_iv` can look at in both `Cryptor`s, `NULL` or a block; and what is encrypted fits into its array. -/
theorem testEncryptor_ok_iff {cipher : evp.Cipher} {key : List UInt8} (hk : Keyed evp password method cipher key)
    (m : StreamMode evp cipher) (hinv : Inverse m) (raw raw' : Cells evp) (random random' : Fin maxIvLength → UInt8)
    (plain encrypted plain2 : Mem) :
    (testEncryptor raw raw' random random' plain encrypted plain2 = .ok ["OK!"] ↔
      raw.cipherIv ≠ none ∧ raw'.cipherIv ≠ none) ∧
    ∃ c out, (fresh cipher key random password method).encrypt plain plainLen = some (c, out) ∧
      out.bytes.length ≤ encryptedLen := by
  obtain ⟨c, henc⟩ : ∃ c, (fresh cipher key random password method).encrypt plain plainLen =
      some (c, { bytes := ivOf cipher random ++ ciphertext m random plain key
                 size := (plainLen + evp.ivLen cipher : ℕ) }) := encrypt_plain m random plain
  constructor
  · unfold testEncryptor
    rw [Cells.construct_keyed hk, Cells.construct_keyed hk]
    cases raw.cipherIv with
    | none => exact iff_of_false nofun fun h => h.1 rfl
    | some iv =>
      cases raw'.cipherIv with
      | none => exact iff_of_false nofun fun h => h.2 rfl
      | some iv' =>
        have hcopy := slice_storeBytes encrypted 0 (ivOf cipher random ++ ciphertext m random plain key)
        rw [List.length_append, length_ivOf, length_ciphertext] at hcopy
        obtain ⟨d, hdec⟩ := decrypt_received m random plain hk hinv random' hcopy
        have hplain := slice_storeBytes plain2 0 (slice plain 0 plainLen)
        rw [length_slice] at hplain
        refine iff_of_true ?_ ⟨Option.some_ne_none _, Option.some_ne_none _⟩
        have henc' : (Cells.of (fresh cipher key random password method)).encrypt plain plainLen = .ok (.of c, _) :=
          ok_of_toOption ((Cells.encrypt_of ..).trans (congrArg _ henc))
        have hdec' : (Cells.of (fresh cipher key random' password method)).decrypt
            (evp.keyAnswers password method) _ _ = .ok (.of d, _) :=
          ok_of_toOption ((Cells.decrypt_of ..).trans (congrArg _ hdec))
        simp only [bind, Except.bind, henc', hdec', find?_mismatch_eq_none hplain]
        rfl
  · refine ⟨c, _, henc, ?_⟩
    have hmax : evp.ivLen cipher ≤ 16 := evp.ivLen_le cipher
    have hfits : plainLen + 16 ≤ encryptedLen := by decide
    rw [List.length_append, length_ciphertext, length_ivOf]
    omega

/-- Memory of which only `cipher_iv` is known: it is `NULL`. -/
def nullIv : Cells knownEvp := { Cells.blank with cipherIv := some none }

theorem testEncryptor_ok_iff_known :
    testEncryptor nullIv nullIv knownIv (fun _ => 7) (fun _ => 1) (fun _ => 0) (fun _ => 0) = .ok ["OK!"] :=
  (testEncryptor_ok_iff ⟨rfl, (), rfl, rfl⟩ knownMode (cfb_inverse _ _) nullIv nullIv knownIv (fun _ => 7)
    (fun _ => 1) (fun _ => 0) fun _ => 0).1.2 ⟨Option.some_ne_none _, Option.some_ne_none _⟩

end TestCryptor

end Shadowc.Cryptor
