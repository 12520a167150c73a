import Shadowc.Cryptor.Directions
import Shadowc.Cryptor.Stream
import Shadowc.Lib.Cfb

/-!
# `aes-256-cfb`

OpenSSL with one cipher, in CFB mode over any block function and with any key derivation.  It is in a streaming mode
and its contexts undo each other (`cfbStreamMode`, `cfb_inverse`), so that the stream of a `Cryptor` does what
`Stream` says; the block function and the key derivation that give the values of AES and MD5 on one input show the
results at work.
-/

namespace Shadowc.Cryptor

open Lib Memory Transducer Interference

/-- A context after `EVP_CipherInit_ex`. -/
structure CfbContext where
  key : List UInt8
  op : ℕ
  state : Cfb.State

/-- A block function under a key. -/
abbrev BlockCipher := List UInt8 → List UInt8 → List UInt8

/-- One byte, in the direction of the context. -/
def cfbByte (aes : BlockCipher) (key : List UInt8) (op : ℕ) : Cfb.State → UInt8 → Cfb.State × UInt8 :=
  if op = cipherEncEncryption then Cfb.encryptByte (aes key) else Cfb.decryptByte (aes key)

/-- `EVP_EncryptUpdate` of the CFB ciphers. -/
def CfbContext.update (aes : BlockCipher) (ctx : CfbContext) (data : List UInt8) : CfbContext × List UInt8 :=
  ({ ctx with state := (each (cfbByte aes ctx.key ctx.op) ctx.state data).1 },
    (each (cfbByte aes ctx.key ctx.op) ctx.state data).2)

/-- OpenSSL with the one cipher `aes-256-cfb` over the block function `aes`, and `kdf` as its key derivation. -/
def cfbEvp (aes : BlockCipher) (kdf : List UInt8 → List UInt8) : Evp where
  Cipher := Unit
  Digest := Unit
  Ctx := Option CfbContext
  getCipherByName name := if name = "aes-256-cfb" then some () else none
  getDigestByName name := if name = "md5" then some () else none
  ivLen _ := 16
  ivLen_le _ := le_rfl
  bytesToKey _ _ password := some (kdf password)
  newCtx := none
  cipherInit _ key iv op := some { key, op, state := { register := iv, used := 0 } }
  encryptUpdate ctx data inl :=
    match ctx with
    | none => (none, [], 0)
    | some ctx =>
      if inl ≤ 0 then (some ctx, [], 0)
      else (some (ctx.update aes data).1, (ctx.update aes data).2, data.length)

section Cfb

variable (aes : BlockCipher) (kdf : List UInt8 → List UInt8)

theorem streaming_update : Streaming (fun _ => True) (CfbContext.update aes) where
  closed _ _ _ := trivial
  length ctx data _ := (streaming_each _).length ctx.state data trivial
  append ctx a b _ := by
    have h := (streaming_each (cfbByte aes ctx.key ctx.op)).append ctx.state a b trivial
    simp only [CfbContext.update, h]

/-- A text of any length, for a context that has a cipher. -/
def cfbCrypt : Option CfbContext → List UInt8 → Option CfbContext × List UInt8
  | none, _ => (none, [])
  | some ctx, data => (some (ctx.update aes data).1, (ctx.update aes data).2)

/-- **CFB is a streaming mode**, whatever the block function. -/
def cfbStreamMode : StreamMode (cfbEvp aes kdf) () where
  live ctx := ctx ≠ none
  init key iv op := by simp [cfbEvp]
  crypt := cfbCrypt aes
  streaming := by
    have hs := streaming_update aes
    constructor
    · rintro (_ | ctx) a h
      · exact absurd rfl h
      · exact Option.some_ne_none _
    · rintro (_ | ctx) a h
      · exact absurd rfl h
      · exact hs.length ctx a trivial
    · rintro (_ | ctx) a b h
      · exact absurd rfl h
      · rw [cfbCrypt, hs.append ctx a b trivial]
        rfl
  update := by
    rintro (_ | ctx) data h -
    · exact absurd rfl h
    · cases data with
      | nil => rfl
      | cons b data =>
        have h : ¬ ((b :: data).length : ℤ) ≤ 0 := by simp only [List.length_cons]; omega
        simp only [cfbEvp, if_neg h, cfbCrypt]

/-- **The contexts undo each other.** -/
theorem cfb_inverse : Inverse (cfbStreamMode aes kdf) := by
  intro key iv data _
  exact Cfb.decrypt_encrypt (aes key) { register := iv, used := 0 } data

end Cfb

/-! ### One session -/

/-- The password `key`, and the key that `EVP_BytesToKey` derives from it. -/
def knownPassword : List UInt8 := [107, 101, 121]

def knownKey : List UInt8 :=
  [60, 110, 11, 138, 156, 21, 34, 74, 130, 40, 185, 169, 140, 161, 83, 29, 209, 226, 163, 95, 186, 80, 155, 100, 50,
    237, 185, 109, 133, 14, 17, 159]

/-- The IV 0, 1, 2, ..., 15, and its encryption under that key. -/
def knownIv (i : Fin maxIvLength) : UInt8 := UInt8.ofNat i

def knownBlock : List UInt8 := [5, 54, 46, 218, 118, 202, 30, 250, 35, 8, 84, 133, 229, 145, 101, 66]

/-- The values of AES and of the key derivation on these inputs. -/
def knownEvp : Evp :=
  cfbEvp (fun key block => if key = knownKey ∧ block = List.ofFn knownIv then knownBlock else block)
    fun password => if password = knownPassword then knownKey else password

def knownMode : StreamMode knownEvp () := cfbStreamMode _ _

/-- Members that hold nothing yet. -/
def blank : Members knownEvp where
  cipher := none
  decipher := none
  cipherIv := []
  decipherIv := none
  cipherIvLen := 0
  ivSent := true
  method := ""
  password := []

def knownCryptor : Members knownEvp := fresh () knownKey knownIv knownPassword "aes-256-cfb"

theorem construct_known :
    Members.construct blank knownIv knownPassword "aes-256-cfb" = some knownCryptor := by
  exact construct_fresh ⟨rfl, (), rfl, rfl⟩ blank knownIv

def hi : Chunk := .ofBytes [104, 105] (by decide)

/-- The text `hi!` in two chunks, with an empty one between them. -/
def greeting : List Chunk := [hi, .ofBytes [] (by decide), .ofBytes [33] (by decide)]

theorem joined_greeting : joined greeting = [104, 105, 33] := by decide

theorem greeting_fits : FirstFits 16 greeting := by
  intro ch hch
  obtain rfl := Option.some.inj hch
  decide

/-- The IV, and the first byte behind it. -/
def firstPart : Chunk := .ofBytes [0, 1, 2, 3, 4, 5, 6, 7, 8, 9, 10, 11, 12, 13, 14, 15, 109] (by decide)

/-- The stream for it, cut elsewhere. -/
def segments : List Chunk := [.ofBytes [] (by decide), firstPart, .ofBytes [95, 15] (by decide)]

theorem segments_hold : FirstHolds 16 segments := by
  intro ch hch
  obtain rfl := Option.some.inj hch
  decide

theorem wire_format_iff_greeting : ∃ c' outs,
    answers Members.call knownCryptor (greeting.map encryptCall) = some (c', outs) ∧
    wire outs = [0, 1, 2, 3, 4, 5, 6, 7, 8, 9, 10, 11, 12, 13, 14, 15, 109, 95, 15] ∧ totalSize outs = 19 := by
  obtain ⟨key, iv, -, -, hctx, c', outs, h, hiff, -⟩ :=
    wire_format_iff construct_known (by simp [knownCryptor, fresh]) rfl knownMode greeting
  obtain ⟨hw, ht⟩ := hiff.2 greeting_fits
  have hctx : some (some (CfbContext.mk knownKey 1 ⟨List.ofFn knownIv, 0⟩)) =
      some (some (CfbContext.mk key 1 ⟨iv, 0⟩)) := hctx
  simp only [Option.some.injEq, CfbContext.mk.injEq, Cfb.State.mk.injEq, true_and, and_true] at hctx
  obtain ⟨rfl, rfl⟩ := hctx
  exact ⟨c', outs, h, hw.trans (by rfl), ht.trans (by rfl)⟩

/-- Another `Cryptor` with the same password gets the text back from the segments. -/
theorem round_trip_iff_greeting : ∃ d' received,
    answers Members.call (fresh () knownKey (fun _ => 7) knownPassword "aes-256-cfb" : Members knownEvp)
      (segments.map decryptCall) = some (d', received) ∧ wire received = [104, 105, 33] := by
  have hsent : (answers Members.call knownCryptor (greeting.map encryptCall)).map (fun p => wire p.2) =
      some (joined segments) := by rfl
  obtain ⟨c', sent, h, hall⟩ := round_trip_iff construct_known (by simp [knownCryptor, fresh])
    (construct_fresh ⟨rfl, (), rfl, rfl⟩ blank fun _ => 7) rfl knownMode (cfb_inverse _ _) greeting
  rw [h] at hsent
  obtain ⟨d', received, h', hiff⟩ := hall segments (Option.some.inj hsent).symm segments_hold
  exact ⟨d', received, h', (hiff.2 greeting_fits).trans joined_greeting⟩

/-- A text of the greatest length. -/
def longest : Chunk := ⟨fun _ => 0, intMax, le_rfl⟩

/-- What `encrypt` makes of it: the size wraps around. -/
theorem encrypt_longest : ∃ c' outs, answers Members.call knownCryptor [encryptCall longest] = some (c', outs) ∧
    wire outs = [] ∧ totalSize outs = -2147483633 := by
  have hcall := encrypt_first_chunk knownMode longest (c := knownCryptor) rfl rfl (Option.some_ne_none _)
    rfl (show intMax ≠ 0 by decide)
  have hsize : intSum longest.len knownCryptor.cipherIvLen = -2147483633 := by decide
  rw [hsize] at hcall
  refine ⟨_, _, answers_cons hcall rfl, ?_, rfl⟩
  rw [wire_cons, reported_neg (by decide)]
  rfl

/-- Its stream is empty, and the size is not its length and that of the IV. -/
theorem wire_format_longest :
    Members.construct blank knownIv knownPassword "aes-256-cfb" = some knownCryptor ∧
    ∃ c' outs, answers Members.call knownCryptor ([longest].map encryptCall) = some (c', outs) ∧
      wire outs ≠ List.ofFn knownIv ++ (knownMode.crypt
        (knownEvp.cipherInit () knownKey (List.ofFn knownIv) cipherEncEncryption) (joined [longest])).2 ∧
      totalSize outs ≠ (joined [longest]).length + 16 := by
  obtain ⟨c', outs, h, hw, ht⟩ := encrypt_longest
  refine ⟨construct_known, c', outs, h, ?_, ?_⟩
  · rw [hw]
    exact fun h0 => absurd (List.append_eq_nil_iff.1 h0.symm).1 (by decide)
  · rw [ht]
    omega

/-- Nothing arrives of it. -/
theorem round_trip_longest :
    Members.construct blank knownIv knownPassword "aes-256-cfb" = some knownCryptor ∧
    ∃ c' sent, answers Members.call knownCryptor ([longest].map encryptCall) = some (c', sent) ∧
      joined [] = wire sent ∧ FirstHolds knownCryptor.cipherIvLen [] ∧
      ∃ d' received, answers Members.call
          (fresh () knownKey (fun _ => 7) knownPassword "aes-256-cfb" : Members knownEvp) ([].map decryptCall) =
        some (d', received) ∧ wire received ≠ joined [longest] := by
  obtain ⟨c', sent, h, hw, -⟩ := encrypt_longest
  exact ⟨construct_known, c', sent, h, hw.symm, nofun, _, [], rfl, (joined_ne_nil (by decide) []).symm⟩

/-- A forged segment between two calls of `encrypt`. -/
def forged : List Call :=
  [.encrypt (load [104, 105] fun _ => 0) 2, .decrypt (fun _ => 1) 3, .encrypt (load [33] fun _ => 0) 1]

theorem directions_independent_forged : ∃ c' outs, answers Members.call knownCryptor forged = some (c', outs) ∧
    (∃ d, answers Members.call knownCryptor (forged.filter Call.isEncrypt) =
      some (d, outs.filter fun o => o.1.isEncrypt)) ∧
    ∃ d, answers Members.call knownCryptor (forged.filter fun a => !a.isEncrypt) =
      some (d, outs.filter fun o => !o.1.isEncrypt) :=
  directions_independent construct_known (by simp [knownCryptor, fresh]) forged

end Shadowc.Cryptor
