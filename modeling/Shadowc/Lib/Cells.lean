import Shadowc.Lib.Throwing
import Mathlib.Logic.Function.Basic

/-!
# Many cells, written one at a time

A store has a cell for each key, of a type of its own.  Each of a list of inputs goes to the cell of its key, which
takes it or throws.  What becomes of a cell is a matter of the inputs that go to it: the whole list is taken when each
cell takes its own inputs, in order, and then each cell is what its inputs make of it (`writes_eq_ok_iff`).
-/

namespace Shadowc.Lib.Cells

open Throwing

variable {ε κ β : Type} [DecidableEq κ] {V : κ → Type}

/-- The inputs that go to a cell. -/
def inputsFor (l : List (κ × β)) (k : κ) : List β := l.filterMap fun p => if p.1 = k then some p.2 else none

@[simp] theorem inputsFor_nil (k : κ) : inputsFor ([] : List (κ × β)) k = [] := rfl

theorem inputsFor_cons_self (k : κ) (b : β) (l : List (κ × β)) : inputsFor ((k, b) :: l) k = b :: inputsFor l k := by
  simp [inputsFor]

theorem inputsFor_cons_of_ne {k k' : κ} (h : k ≠ k') (b : β) (l : List (κ × β)) :
    inputsFor ((k, b) :: l) k' = inputsFor l k' := by
  simp [inputsFor, h]

variable (take : (k : κ) → V k → β → Except ε (V k))

/-- Each input goes to its cell. -/
def writes (s : (k : κ) → V k) (l : List (κ × β)) : Except ε ((k : κ) → V k) :=
  l.foldlM (fun s p => do
    let v ← take p.1 (s p.1) p.2
    return Function.update s p.1 v) s

theorem writes_nil (s : (k : κ) → V k) : writes take s ([] : List (κ × β)) = .ok s := rfl

theorem writes_append (s : (k : κ) → V k) (l l' : List (κ × β)) : writes take s (l ++ l') = (do
    let s ← writes take s l
    writes take s l') := List.foldlM_append

/-- **Cells are independent.** -/
theorem writes_eq_ok_iff {l : List (κ × β)} : ∀ {s s' : (k : κ) → V k},
    writes take s l = .ok s' ↔ ∀ k, (inputsFor l k).foldlM (take k) (s k) = .ok (s' k) := by
  induction l with
  | nil =>
    intro s s'
    constructor
    · intro h k
      cases h
      rfl
    · intro h
      have heq : s = s' := funext fun k => Except.ok.inj (h k)
      exact congrArg Except.ok heq
  | cons p l ih =>
    obtain ⟨k₀, b⟩ := p
    intro s s'
    rw [writes, List.foldlM_cons]
    constructor
    · intro h k
      obtain ⟨s₁, h₁, h⟩ := bind_eq_ok.1 h
      obtain ⟨v, hv, h₁⟩ := bind_eq_ok.1 h₁
      cases h₁
      have hk := ih.1 h k
      by_cases hkey : k₀ = k
      · subst hkey
        rw [inputsFor_cons_self, List.foldlM_cons, hv, ok_bind]
        rwa [Function.update_self] at hk
      · rw [inputsFor_cons_of_ne hkey]
        rwa [Function.update_of_ne (Ne.symm hkey)] at hk
    · intro h
      have hk₀ := h k₀
      rw [inputsFor_cons_self, List.foldlM_cons] at hk₀
      obtain ⟨v, hv, hk₀⟩ := bind_eq_ok.1 hk₀
      refine bind_eq_ok.2 ⟨Function.update s k₀ v, bind_eq_ok.2 ⟨v, hv, rfl⟩, ih.2 fun k => ?_⟩
      by_cases hkey : k = k₀
      · subst hkey
        rwa [Function.update_self]
      · have hk := h k
        rw [inputsFor_cons_of_ne (Ne.symm hkey)] at hk
        rwa [Function.update_of_ne hkey]

end Shadowc.Lib.Cells
