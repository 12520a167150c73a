import Mathlib.Data.List.Basic
import Mathlib.Data.Nat.Notation

/-!
# Reading from a buffer of known size

Code that walks a byte buffer with raw pointers has three ends: it returns, it reads a byte the buffer does not have
(`Stop.oob`), or its loop goes round for ever (`Stop.hang`).  `Run` is the monad of such code.

A computation on a buffer is *local* (`Local`) when bytes appended to the buffer make no difference to it unless it
has run out of bytes.  Reads, sequencing and `strlen` are local; code built from them looks at nothing but the bytes
it was given.
-/

namespace Shadowc.Lib.Reading

/-- How code on a buffer ends when it does not return. -/
inductive Stop where
  | oob | hang
  deriving DecidableEq, Repr

abbrev Run (α : Type) := Except Stop α

/-- A sequence returns when both parts do. -/
theorem bind_eq_ok {α β : Type} {x : Run α} {f : α → Run β} {r : β} :
    x >>= f = .ok r ↔ ∃ a, x = .ok a ∧ f a = .ok r := by
  cases x <;> simp [Bind.bind, Except.bind]

/-- A sequence stops where its first part stops, or else where the second does. -/
theorem map_eq_ok {α β : Type} {x : Run α} {f : α → β} {b : β} : x.map f = .ok b ↔ ∃ a, x = .ok a ∧ f a = b := by
  cases x <;> simp [Except.map]

theorem bind_eq_error {α β : Type} {x : Run α} {f : α → Run β} {e : Stop} :
    x >>= f = .error e ↔ x = .error e ∨ ∃ a, x = .ok a ∧ f a = .error e := by
  cases x <;> simp [Bind.bind, Except.bind]

/-- The byte at index `i`. -/
def readByte (b : List UInt8) (i : ℕ) : Run UInt8 :=
  match b[i]? with
  | some x => .ok x
  | none => .error .oob

theorem readByte_eq {b : List UInt8} {i : ℕ} {x : UInt8} (h : b[i]? = some x) : readByte b i = .ok x := by
  simp [readByte, h]

theorem readByte_ok {b : List UInt8} {i : ℕ} {x : UInt8} (h : readByte b i = .ok x) : b[i]? = some x := by
  unfold readByte at h
  cases hb : b[i]? with
  | none => simp [hb] at h
  | some y => rw [hb] at h; cases h; rfl

theorem readByte_oob {b : List UInt8} {i : ℕ} (h : b[i]? = none) : readByte b i = .error .oob := by
  simp [readByte, h]

/-- `strlen` of the string that starts the buffer. -/
def strlen : List UInt8 → Run ℕ
  | [] => .error .oob
  | x :: b => if x = 0 then .ok 0 else (· + 1) <$> strlen b

theorem strlen_append_zero {s : List UInt8} (h : ∀ x ∈ s, x ≠ 0) (b : List UInt8) :
    strlen (s ++ 0 :: b) = .ok s.length := by
  induction s with
  | nil => simp [strlen]
  | cons x s ih =>
    have hx : x ≠ 0 := h x (by simp)
    rw [List.cons_append, strlen, if_neg hx, ih (fun y hy => h y (List.mem_cons_of_mem _ hy))]
    rfl

theorem strlen_ne_hang (b : List UInt8) : strlen b ≠ .error .hang := by
  induction b with
  | nil => simp [strlen]
  | cons x b ih =>
    rw [strlen]
    split
    · simp
    · cases h : strlen b with
      | error e => rw [h] at ih; simpa [Functor.map, Except.map] using ih
      | ok m => simp [Functor.map, Except.map]

/-! ### Local computations -/

/-- Bytes appended to the buffer change the outcome only of a computation that ran out of bytes. -/
def Local {α : Type} (f : List UInt8 → Run α) : Prop :=
  ∀ b c, f b ≠ .error .oob → f (b ++ c) = f b

section Rules

variable {α β : Type}

theorem Local.const (r : Run α) : Local fun _ => r := fun _ _ _ => rfl

theorem Local.bind {f : List UInt8 → Run α} {g : List UInt8 → α → Run β} (hf : Local f)
    (hg : ∀ a, Local fun b => g b a) : Local fun b => f b >>= g b := by
  intro b c h
  cases hb : f b with
  | error e =>
    have he : f b ≠ .error .oob := fun h' => h (by simp [h', Bind.bind, Except.bind])
    simp only [hf b c he, hb]
    rfl
  | ok a =>
    have hne : f b ≠ .error .oob := by simp [hb]
    simp only [hf b c hne, hb]
    refine hg a b c fun h' => h ?_
    simp only [hb]
    exact h'

theorem Local.ite {p : Prop} [Decidable p] {f g : List UInt8 → Run α} (hf : Local f) (hg : Local g) :
    Local fun b => if p then f b else g b := by
  by_cases h : p
  · simpa only [h, if_true] using hf
  · simpa only [h, if_false] using hg

theorem Local.readByte (i : ℕ) : Local fun b => readByte b i := by
  intro b c h
  cases hb : b[i]? with
  | none => exact absurd (readByte_oob hb) h
  | some x =>
    have hc : (b ++ c)[i]? = some x := by
      rw [List.getElem?_append_left (List.getElem?_eq_some_iff.1 hb).1, hb]
    simp only [readByte_eq hb, readByte_eq hc]

theorem Local.strlen : Local strlen := by
  intro b c
  induction b with
  | nil => intro h; exact absurd rfl h
  | cons x b ih =>
    intro h
    simp only [List.cons_append, Reading.strlen] at h ⊢
    split
    · rfl
    · next hx =>
      have hb : Reading.strlen b ≠ .error .oob := fun h' => h (by rw [if_neg hx, h']; rfl)
      rw [ih hb]

/-- A local computation on the buffer from index `k` on is local. -/
theorem Local.drop {f : List UInt8 → Run α} (hf : Local f) (k : ℕ) : Local fun b => f (b.drop k) := by
  intro b c h
  simp only [List.drop_append]
  exact hf _ _ h

/-- Two buffers that agree on their first `n` bytes have the same outcome when the first `n` bytes suffice. -/
theorem Local.eq_of_take {f : List UInt8 → Run α} (hf : Local f) {b c : List UInt8} {n : ℕ}
    (hbc : b.take n = c.take n) (h : f (b.take n) ≠ .error .oob) : f b = f c := by
  have hb := hf (b.take n) (b.drop n) h
  have hc := hf (b.take n) (c.drop n) h
  rw [List.take_append_drop] at hb
  rw [hbc, List.take_append_drop] at hc
  rw [hb, hc, hbc]

end Rules

end Shadowc.Lib.Reading
