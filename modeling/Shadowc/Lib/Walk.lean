import Mathlib.Computability.StateTransition
import Mathlib.Data.Finset.Card

/-!
# Walks of a partial step function over a finite set

A step function `f : σ → Option σ` either runs off (`f a = none`) or goes round for ever.  On a finite set of
states with a successor the two are told apart by one question: does the walk come to a state that leads back to
itself (`Loops`)?

* `steps_eq_none_of_not_loops`: a walk that does not loop has run off after `S.card + 1` steps;
* `steps_ne_none_of_loops`: a walk that loops never runs off;
* `not_loops_iff`: the two together.
-/

namespace Shadowc.Lib.Walk

open StateTransition Relation

variable {σ : Type*} {f : σ → Option σ}

/-- The state after `n` steps, `none` once the walk has run off. -/
def steps (f : σ → Option σ) : ℕ → σ → Option σ
  | 0, a => some a
  | n + 1, a => (f a).bind (steps f n)

@[simp] theorem steps_zero (a : σ) : steps f 0 a = some a := rfl

theorem steps_succ_of_none {a : σ} (h : f a = none) (n : ℕ) : steps f (n + 1) a = none := by
  simp [steps, h]

theorem steps_succ_of_some {a b : σ} (h : f a = some b) (n : ℕ) : steps f (n + 1) a = steps f n b := by
  simp [steps, h]

/-- The walk from `a` comes to a state that leads back to itself. -/
def Loops (f : σ → Option σ) (a : σ) : Prop := ∃ b, Reaches f a b ∧ Reaches₁ f b b

theorem not_loops_of_none {a : σ} (h : f a = none) : ¬ Loops f a := by
  rintro ⟨b, hab, hbb⟩
  rcases hab.cases_head with rfl | ⟨c, hc, -⟩
  · obtain ⟨c, hc, -⟩ := TransGen.head'_iff.1 hbb
    simp [h] at hc
  · simp [h] at hc

theorem loops_iff_of_some {a b : σ} (h : f a = some b) : Loops f a ↔ Loops f b := by
  constructor
  · rintro ⟨c, hac, hcc⟩
    rcases hac.cases_head with rfl | ⟨d, hd, hdc⟩
    · -- the state that leads back to itself is `a`: so is its successor `b`
      have hba : Reaches f b a := reaches₁_fwd hcc h
      exact ⟨b, .refl, TransGen.tail'_iff.2 ⟨a, hba, h⟩⟩
    · cases Option.mem_unique hd h
      exact ⟨c, hdc, hcc⟩
  · rintro ⟨c, hbc, hcc⟩
    exact ⟨c, hbc.head h, hcc⟩

/-- Induction on a finite set that holds every state of the walk which has a successor: the state the walk leaves is
taken out of the set, as a walk that does not loop never comes back to it. -/
theorem steps_eq_none_of_not_loops [DecidableEq σ] (S : Finset σ) :
    ∀ {a : σ}, (∀ b c, Reaches f a b → f b = some c → b ∈ S) → ¬ Loops f a → steps f (S.card + 1) a = none := by
  induction hn : S.card generalizing S with
  | zero =>
    intro a hS _
    have hS0 : S = ∅ := Finset.card_eq_zero.1 hn
    cases h : f a with
    | none => exact steps_succ_of_none h _
    | some b => simpa [hS0] using hS a b .refl h
  | succ n ih =>
    intro a hS hl
    cases h : f a with
    | none => exact steps_succ_of_none h _
    | some b =>
      have ha : a ∈ S := hS a b .refl h
      have hcard : (S.erase a).card = n := by rw [Finset.card_erase_of_mem ha, hn]; rfl
      rw [steps_succ_of_some h]
      refine ih (S.erase a) hcard (fun c d hbc hcd => ?_) (fun hb => hl ((loops_iff_of_some h).2 hb))
      refine Finset.mem_erase.2 ⟨?_, hS c d (hbc.head h) hcd⟩
      rintro rfl
      exact hl ⟨c, .refl, TransGen.head'_iff.2 ⟨b, h, hbc⟩⟩

theorem steps_ne_none_of_loops {a : σ} (h : Loops f a) (n : ℕ) : steps f n a ≠ none := by
  induction n generalizing a with
  | zero => simp
  | succ n ih =>
    cases hf : f a with
    | none => exact absurd h (not_loops_of_none hf)
    | some b =>
      rw [steps_succ_of_some hf]
      exact ih ((loops_iff_of_some hf).1 h)

/-- **A walk over a finite set runs off exactly when it does not loop.** -/
theorem not_loops_iff [DecidableEq σ] (S : Finset σ) (hS : ∀ b c, f b = some c → b ∈ S) {a : σ} :
    ¬ Loops f a ↔ ∃ n, steps f n a = none := by
  constructor
  · exact fun h => ⟨_, steps_eq_none_of_not_loops S (fun b c _ => hS b c) h⟩
  · rintro ⟨n, hn⟩ hl
    exact steps_ne_none_of_loops hl n hn

end Shadowc.Lib.Walk
