import Mathlib.Data.List.Basic

/-!
# Machines with two kinds of calls

A machine answers each call with an output, and may fail.  Some of the calls are `seen`.  When an unseen call does not
change what the answers to the seen ones depend on, deleting the unseen calls from a run changes none of these answers
(`Unwinding.purge`).
-/

namespace Shadowc.Lib.Interference

variable {σ α β ν : Type*}

/-- The calls one after the other, with their answers; `none` when one of them fails. -/
def answers (step : σ → α → Option (σ × β)) : σ → List α → Option (σ × List (α × β))
  | s, [] => some (s, [])
  | s, a :: as => (step s a).bind fun (s, b) => (answers step s as).map fun (s, bs) => (s, (a, b) :: bs)

theorem answers_cons {step : σ → α → Option (σ × β)} {s s₁ s₂ : σ} {a : α} {as : List α} {b : β}
    {bs : List (α × β)} (h : step s a = some (s₁, b)) (h' : answers step s₁ as = some (s₂, bs)) :
    answers step s (a :: as) = some (s₂, (a, b) :: bs) := by
  simp only [answers, h, h', Option.bind_some, Option.map_some]

/-- In the states of `inv` no call fails; the answers to the seen calls depend on the view alone, and the unseen calls
leave the view as it is. -/
structure Unwinding (step : σ → α → Option (σ × β)) (inv : σ → Prop) (seen : α → Bool) (view : σ → ν) : Prop where
  total : ∀ s a, inv s → ∃ s' b, step s a = some (s', b) ∧ inv s'
  unseen : ∀ s a s' b, inv s → seen a = false → step s a = some (s', b) → view s' = view s
  same : ∀ s t a s' t' b c, inv s → inv t → seen a = true → view s = view t → step s a = some (s', b) →
    step t a = some (t', c) → b = c ∧ view s' = view t'

variable {step : σ → α → Option (σ × β)} {inv : σ → Prop} {seen : α → Bool} {view : σ → ν}

theorem Unwinding.answers_total (h : Unwinding step inv seen view) (as : List α) :
    ∀ {s : σ}, inv s → ∃ s' bs, answers step s as = some (s', bs) := by
  induction as with
  | nil => intro s _; exact ⟨s, [], rfl⟩
  | cons a as ih =>
    intro s hs
    obtain ⟨s₁, b, hb, hs₁⟩ := h.total s a hs
    obtain ⟨s₂, bs, hbs⟩ := ih hs₁
    exact ⟨s₂, _, answers_cons hb hbs⟩

/-- **The unseen calls can be deleted**: the seen ones get the same answers, from every state with the same view. -/
theorem Unwinding.purge (h : Unwinding step inv seen view) (as : List α) :
    ∀ {s t s' : σ} {bs : List (α × β)}, inv s → inv t → view s = view t → answers step s as = some (s', bs) →
      ∃ t', answers step t (as.filter seen) = some (t', bs.filter fun p => seen p.1) := by
  induction as with
  | nil =>
    intro s t s' bs _ _ _ hbs
    cases hbs
    exact ⟨t, rfl⟩
  | cons a as ih =>
    intro s t s' bs hs ht hv hbs
    obtain ⟨s₁, b, hb, hs₁⟩ := h.total s a hs
    obtain ⟨s₂, rest, hrest⟩ := h.answers_total as hs₁
    obtain ⟨rfl, rfl⟩ := Prod.mk.inj (Option.some.inj (hbs.symm.trans (answers_cons hb hrest)))
    cases hseen : seen a with
    | false =>
      -- the call is deleted, and its answer too
      have hv' : view s₁ = view t := (h.unseen s a s₁ b hs hseen hb).trans hv
      obtain ⟨t', ht'⟩ := ih hs₁ ht hv' hrest
      refine ⟨t', ?_⟩
      simpa [hseen] using ht'
    | true =>
      obtain ⟨t₁, c, hc, ht₁⟩ := h.total t a ht
      obtain ⟨rfl, hv'⟩ := h.same s t a s₁ t₁ b c hs ht hseen hv hb hc
      obtain ⟨t', ht'⟩ := ih hs₁ ht₁ hv' hrest
      refine ⟨t', ?_⟩
      simpa [hseen] using answers_cons hc ht'

end Shadowc.Lib.Interference
