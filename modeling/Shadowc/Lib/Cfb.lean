import Shadowc.Lib.Transducer
import Mathlib.Data.UInt

/-!
# Cipher feedback mode

CFB over any function `e` from blocks to blocks, byte by byte: the register is encrypted whenever a block has been
used up, its bytes are the key stream, and each of them is replaced by the byte of ciphertext that it gave or met.

Encryption and decryption go through the same registers, so decryption undoes encryption whatever `e` is
(`decrypt_encrypt`).
-/

namespace Shadowc.Lib.Cfb

open Transducer

/-- The register, and how many of its bytes have been used. -/
structure State where
  register : List UInt8
  used : ℕ
  deriving DecidableEq, Repr

def blockSize : ℕ := 16

/-- The register from which the next byte of key stream is taken. -/
def refill (e : List UInt8 → List UInt8) (s : State) : List UInt8 :=
  if s.used = 0 then e s.register else s.register

/-- The next byte of key stream. -/
def keyByte (e : List UInt8 → List UInt8) (s : State) : UInt8 := (refill e s).getD s.used 0

/-- The state after a byte of ciphertext. -/
def advance (e : List UInt8 → List UInt8) (s : State) (cipherByte : UInt8) : State where
  register := (refill e s).set s.used cipherByte
  used := (s.used + 1) % blockSize

def encryptByte (e : List UInt8 → List UInt8) (s : State) (b : UInt8) : State × UInt8 :=
  (advance e s (b ^^^ keyByte e s), b ^^^ keyByte e s)

def decryptByte (e : List UInt8 → List UInt8) (s : State) (b : UInt8) : State × UInt8 :=
  (advance e s b, b ^^^ keyByte e s)

theorem xor_xor_self (a b : UInt8) : a ^^^ b ^^^ b = a := by
  rw [UInt8.xor_assoc, UInt8.xor_self, UInt8.xor_zero]

/-- **Decryption undoes encryption.** -/
theorem decrypt_encrypt (e : List UInt8 → List UInt8) (s : State) (plain : List UInt8) :
    (each (decryptByte e) s (each (encryptByte e) s plain).2).2 = plain := by
  refine each_inverse (R := Eq) (fun s t b hst => ?_) plain rfl
  subst hst
  exact ⟨rfl, xor_xor_self b (keyByte e s)⟩

end Shadowc.Lib.Cfb
