import Shadowc.Cryptor.Session
import Shadowc.Lib.Interference

/-!
# The two directions of a `Cryptor`

`encrypt` works with `cipher`, `cipher_iv` and `iv_sent`, `decrypt` with `decipher`, the password and the method; both
read `cipher_iv_len`, which the second `get_cipher` sets to the value it has.  So the calls in one direction see
nothing of those in the other: `directions_independent`.
-/

namespace Shadowc.Cryptor

open Lib Memory Interference

variable {evp : Evp}

/-- What `encrypt` depends on. -/
def Members.sending (c : Members evp) : Option evp.Ctx × List UInt8 × ℕ × Bool :=
  (c.cipher, c.cipherIv, c.cipherIvLen, c.ivSent)

/-- What `decrypt` depends on. -/
def Members.receiving (c : Members evp) : Option evp.Ctx × ℕ × List UInt8 × String :=
  (c.decipher, c.cipherIvLen, c.password, c.method)

/-- A `Cryptor` that can be used. -/
def Usable (c : Members evp) : Prop := ∃ cipher key, Ready c cipher key

theorem encrypt_usable {c : Members evp} (hc : Usable c) (buf : Mem) (len : ℤ) :
    ∃ c' out, c.encrypt buf len = some (c', out) ∧ Usable c' ∧ c'.receiving = c.receiving := by
  obtain ⟨cipher, key, hr⟩ := hc
  obtain ⟨ctx, hctx⟩ := Option.ne_none_iff_exists'.1 hr.cipher
  by_cases hlen : len = 0
  · subst hlen
    exact ⟨c, _, encrypt_zero c buf, ⟨cipher, key, hr⟩, rfl⟩
  cases hs : c.ivSent with
  | true => exact ⟨_, _, encrypt_sent buf hctx hs hlen, ⟨cipher, key, hr.keyed, hr.ivLen, by simp⟩, rfl⟩
  | false => exact ⟨_, _, encrypt_first buf hctx hs hlen, ⟨cipher, key, hr.keyed, hr.ivLen, by simp⟩, rfl⟩

theorem decrypt_usable {c : Members evp} (hc : Usable c) (buf : Mem) (len : ℤ) :
    ∃ c' out, c.decrypt buf len = some (c', out) ∧ Usable c' ∧ c'.sending = c.sending := by
  obtain ⟨cipher, key, hr⟩ := hc
  by_cases hlen : len = 0
  · subst hlen
    exact ⟨c, _, decrypt_zero c buf, ⟨cipher, key, hr⟩, rfl⟩
  cases hd : c.decipher with
  | some ctx => exact ⟨_, _, decrypt_open buf hd hlen, ⟨cipher, key, hr.keyed, hr.ivLen, hr.cipher⟩, rfl⟩
  | none =>
    rw [decrypt_first buf hr hd hlen]
    split
    · exact ⟨_, _, rfl, ⟨cipher, key, hr.keyed, hr.ivLen, hr.cipher⟩, rfl⟩
    · exact ⟨_, _, rfl, ⟨cipher, key, hr.keyed, hr.ivLen, hr.cipher⟩, rfl⟩

theorem call_usable (c : Members evp) (a : Call) (hc : Usable c) : ∃ c' out, c.call a = some (c', out) ∧ Usable c' := by
  cases a with
  | encrypt buf len =>
    obtain ⟨c', out, h, hu, -⟩ := encrypt_usable hc buf len
    exact ⟨c', out, h, hu⟩
  | decrypt buf len =>
    obtain ⟨c', out, h, hu, -⟩ := decrypt_usable hc buf len
    exact ⟨c', out, h, hu⟩

/-- What `encrypt` gives depends on the sending members alone. -/
theorem encrypt_congr {c d c' d' : Members evp} {buf : Mem} {len : ℤ} {o p : Output} (hv : c.sending = d.sending)
    (hc : c.encrypt buf len = some (c', o)) (hd : d.encrypt buf len = some (d', p)) :
    o = p ∧ c'.sending = d'.sending := by
  simp only [Members.sending, Prod.mk.injEq] at hv
  obtain ⟨h1, h2, h3, h4⟩ := hv
  unfold Members.encrypt at hc hd
  rw [h1, h2, h3, h4] at hc
  split at hc
  · next hlen =>
    rw [if_pos hlen] at hd
    cases hc
    cases hd
    exact ⟨rfl, by simp [Members.sending, h1, h2, h3, h4]⟩
  next hlen =>
  rw [if_neg hlen] at hd
  cases hctx : d.cipher with
  | none => simp [hctx] at hc
  | some ctx =>
    simp only [hctx] at hc hd
    split at hc
    · next hs =>
      rw [if_pos hs] at hd
      cases hc
      cases hd
      exact ⟨rfl, rfl⟩
    · next hs =>
      rw [if_neg hs] at hd
      cases hc
      cases hd
      exact ⟨rfl, rfl⟩

/-- What `decrypt` gives depends on the receiving members alone. -/
theorem decrypt_congr {c d c' d' : Members evp} {buf : Mem} {len : ℤ} {o p : Output} (huc : Usable c) (hud : Usable d)
    (hv : c.receiving = d.receiving) (hc : c.decrypt buf len = some (c', o)) (hd : d.decrypt buf len = some (d', p)) :
    o = p ∧ c'.receiving = d'.receiving := by
  obtain ⟨cipher, key, hr⟩ := huc
  obtain ⟨cipher', key', hr'⟩ := hud
  simp only [Members.receiving, Prod.mk.injEq] at hv
  obtain ⟨h1, h2, h3, h4⟩ := hv
  obtain ⟨rfl, rfl⟩ : cipher = cipher' ∧ key = key' := (h3 ▸ h4 ▸ hr.keyed).unique hr'.keyed
  by_cases hlen : len = 0
  · subst hlen
    cases hc
    cases hd
    exact ⟨rfl, by simp [Members.receiving, h1, h2, h3, h4]⟩
  cases hdec : d.decipher with
  | some ctx =>
    rw [decrypt_open buf (h1.trans hdec) hlen] at hc
    rw [decrypt_open buf hdec hlen] at hd
    cases hc
    cases hd
    exact ⟨rfl, by simp [Members.receiving, h2, h3, h4]⟩
  | none =>
    rw [decrypt_first buf hr (h1.trans hdec) hlen, h2] at hc
    rw [decrypt_first buf hr' hdec hlen] at hd
    split at hc
    · next h0 =>
      rw [if_pos h0] at hd
      cases hc
      cases hd
      exact ⟨rfl, by simp [Members.receiving, h3, h4]⟩
    · next h0 =>
      rw [if_neg h0] at hd
      cases hc
      cases hd
      exact ⟨rfl, by simp [Members.receiving, h3, h4]⟩

/-- To a peer that sees the calls of `encrypt`, those of `decrypt` make no difference. -/
theorem encrypt_unwinding : Unwinding (σ := Members evp) Members.call Usable Call.isEncrypt Members.sending where
  total := call_usable
  unseen c a c' out hc ha h := by
    cases a with
    | encrypt buf len => cases ha
    | decrypt buf len =>
      obtain ⟨c₁, out₁, h₁, -, hv⟩ := decrypt_usable hc buf len
      obtain ⟨rfl, -⟩ := Prod.mk.inj (Option.some.inj (h₁.symm.trans h))
      exact hv
  same c d a c' d' o p _ _ ha hv hc hd := by
    cases a with
    | encrypt buf len => exact encrypt_congr hv hc hd
    | decrypt buf len => cases ha

/-- And the other way round. -/
theorem decrypt_unwinding :
    Unwinding (σ := Members evp) Members.call Usable (fun a => !a.isEncrypt) Members.receiving where
  total := call_usable
  unseen c a c' out hc ha h := by
    cases a with
    | encrypt buf len =>
      obtain ⟨c₁, out₁, h₁, -, hv⟩ := encrypt_usable hc buf len
      obtain ⟨rfl, -⟩ := Prod.mk.inj (Option.some.inj (h₁.symm.trans h))
      exact hv
    | decrypt buf len => cases ha
  same c d a c' d' o p hc' hd' ha hv hc hd := by
    cases a with
    | encrypt buf len => cases ha
    | decrypt buf len => exact decrypt_congr hc' hd' hv hc hd

/-- **The directions are independent.**  In every sequence of calls on a constructed `Cryptor`, whatever `decrypt` is
given, the calls of `encrypt` get the answers they get without those of `decrypt`, and the other way round. -/
theorem directions_independent {raw c : Members evp} {random : Fin maxIvLength → UInt8} {password : List UInt8}
    {method : String} (hc : Members.construct raw random password method = some c) (hcipher : c.cipher ≠ none)
    (calls : List Call) : ∃ c' outs, answers Members.call c calls = some (c', outs) ∧
      (∃ d, answers Members.call c (calls.filter Call.isEncrypt) = some (d, outs.filter fun o => o.1.isEncrypt)) ∧
      ∃ d, answers Members.call c (calls.filter fun a => !a.isEncrypt) =
        some (d, outs.filter fun o => !o.1.isEncrypt) := by
  obtain ⟨cipher, key, hk, rfl⟩ := construct_eq hc hcipher
  have hu : Usable (fresh cipher key random password method) := ⟨cipher, key, ready_fresh hk random⟩
  obtain ⟨c', outs, h⟩ := encrypt_unwinding.answers_total calls hu
  exact ⟨c', outs, h, encrypt_unwinding.purge calls hu hu rfl h, decrypt_unwinding.purge calls hu hu rfl h⟩

end Shadowc.Cryptor
