import Mathlib.Data.List.Induction

/-!
# Runs of a labelled transition relation

A system is a relation `R s a t`: in state `s` the action `a` leads to `t`.  `Runs R s acts t` is a finite run.  A
condition on steps holds along a run (`Along`) when every step of it meets the condition in the state it is taken in.

* `Runs.induction`: what every step keeps holds at the end of every run;
* `Runs.induction_along`: the same for the runs along which a condition holds;
* `Runs.induction_history`: the same for what a run and its end have to do with each other;
* `forall_reached_iff`: a property that some steps keep and the others break.
-/

namespace Shadowc.Lib.Transition

variable {σ α : Type*} {R : σ → α → σ → Prop} {P : σ → Prop} {C : σ → α → Prop}

inductive Runs (R : σ → α → σ → Prop) : σ → List α → σ → Prop
  | nil {s : σ} : Runs R s [] s
  | cons {s t u : σ} {a : α} {acts : List α} : R s a t → Runs R t acts u → Runs R s (a :: acts) u

theorem Runs.append {s t u : σ} {acts acts' : List α} (h : Runs R s acts t) (h' : Runs R t acts' u) :
    Runs R s (acts ++ acts') u := by
  induction h with
  | nil => exact h'
  | cons ha _ ih => exact .cons ha (ih h')

theorem Runs.snoc {s t u : σ} {acts : List α} {a : α} (h : Runs R s acts t) (ha : R t a u) :
    Runs R s (acts ++ [a]) u :=
  h.append (.cons ha .nil)

theorem runs_cons {s u : σ} {a : α} {acts : List α} : Runs R s (a :: acts) u ↔ ∃ t, R s a t ∧ Runs R t acts u := by
  constructor
  · intro h
    cases h with
    | cons ha h => exact ⟨_, ha, h⟩
  · rintro ⟨t, ha, h⟩
    exact .cons ha h

theorem runs_append {s u : σ} {acts acts' : List α} :
    Runs R s (acts ++ acts') u ↔ ∃ t, Runs R s acts t ∧ Runs R t acts' u := by
  refine ⟨fun h => ?_, fun ⟨t, h, h'⟩ => h.append h'⟩
  induction acts generalizing s with
  | nil => exact ⟨s, .nil, h⟩
  | cons a acts ih =>
    obtain ⟨v, ha, h⟩ := runs_cons.1 h
    obtain ⟨t, ht, h⟩ := ih h
    exact ⟨t, .cons ha ht, h⟩

/-- When a step has one outcome at most, so has a run. -/
theorem Runs.unique (hR : ∀ s a t t', R s a t → R s a t' → t = t') {s t t' : σ} {acts : List α}
    (h : Runs R s acts t) (h' : Runs R s acts t') : t = t' := by
  induction h with
  | nil => cases h'; rfl
  | cons ha _ ih =>
    obtain ⟨v, ha', h'⟩ := runs_cons.1 h'
    obtain rfl := hR _ _ _ _ ha ha'
    exact ih h'

/-- Every step of the run `acts` from `s` meets the condition. -/
def Along (R : σ → α → σ → Prop) (C : σ → α → Prop) (s : σ) (acts : List α) : Prop :=
  ∀ pre a post t, acts = pre ++ a :: post → Runs R s pre t → C t a

theorem along_nil (s : σ) : Along R C s [] := by
  intro pre a post t h
  simp at h

theorem Along.head {s : σ} {a : α} {acts : List α} (h : Along R C s (a :: acts)) : C s a :=
  h [] a acts s rfl .nil

theorem Along.cons {s : σ} {a : α} {acts : List α} (ha : C s a) (h : ∀ t, R s a t → Along R C t acts) :
    Along R C s (a :: acts) := by
  intro pre b post u hacts hu
  cases pre with
  | nil =>
    obtain ⟨rfl, rfl⟩ := List.cons.inj hacts
    cases hu
    exact ha
  | cons a' pre =>
    obtain ⟨rfl, hrest⟩ := List.cons.inj hacts
    obtain ⟨t, hst, hu⟩ := runs_cons.1 hu
    exact h t hst pre b post u hrest hu

theorem Along.tail {s t : σ} {a : α} {acts : List α} (h : Along R C s (a :: acts)) (ha : R s a t) :
    Along R C t acts := by
  rintro pre b post u rfl hu
  exact h (a :: pre) b post u rfl (.cons ha hu)

/-- A condition holds along the first part of a run along which it holds. -/
theorem Along.init {s : σ} {acts acts' : List α} (h : Along R C s (acts ++ acts')) : Along R C s acts := by
  rintro pre a post t rfl ht
  exact h pre a (post ++ acts') t (by simp) ht

/-- A condition that holds along a run and along what follows it holds along both, when a step has one outcome at
most. -/
theorem Along.append (hR : ∀ s a t t', R s a t → R s a t' → t = t') {s t : σ} {acts acts' : List α}
    (ht : Runs R s acts t) (h : Along R C s acts) (h' : Along R C t acts') : Along R C s (acts ++ acts') := by
  induction ht with
  | nil => exact h'
  | cons ha _ ih =>
    refine .cons h.head fun v hv => ?_
    obtain rfl := hR _ _ _ _ ha hv
    exact ih (h.tail ha) h'

/-- Conditions that agree on the steps of a run hold along it or not together. -/
theorem along_congr {D : σ → α → Prop} {s : σ} {acts : List α}
    (h : ∀ pre a post t, acts = pre ++ a :: post → Runs R s pre t → (C t a ↔ D t a)) :
    Along R C s acts ↔ Along R D s acts := by
  constructor
  · intro hc pre a post t hacts hrun
    exact (h pre a post t hacts hrun).1 (hc pre a post t hacts hrun)
  · intro hd pre a post t hacts hrun
    exact (h pre a post t hacts hrun).2 (hd pre a post t hacts hrun)

/-- Actions that meet the condition in every state meet it along every run. -/
theorem Along.of_forall {s : σ} {acts : List α} (h : ∀ a ∈ acts, ∀ t, C t a) : Along R C s acts := by
  rintro pre a post t rfl -
  exact h a (by simp) t

/-- Along a run that does not meet the condition there is a step that does not. -/
theorem exists_of_not_along {s : σ} {acts : List α} (h : ¬ Along R C s acts) :
    ∃ pre a post t, acts = pre ++ a :: post ∧ Runs R s pre t ∧ ¬ C t a := by
  simp only [Along, not_forall] at h
  obtain ⟨pre, a, post, t, hacts, hpre, hc⟩ := h
  exact ⟨pre, a, post, t, hacts, hpre, hc⟩

/-- **What every step that meets the condition keeps holds at the end of every run along which it is met.** -/
theorem Runs.induction_along (hstep : ∀ s a t, P s → C s a → R s a t → P t) {s t : σ} {acts : List α}
    (h : Runs R s acts t) (hs : P s) (hc : Along R C s acts) : P t := by
  induction h with
  | nil => exact hs
  | cons ha _ ih => exact ih (hstep _ _ _ hs hc.head ha) (hc.tail ha)

/-- What every step keeps holds at the end of every run. -/
theorem Runs.induction (hstep : ∀ s a t, P s → R s a t → P t) {s t : σ} {acts : List α} (h : Runs R s acts t)
    (hs : P s) : P t :=
  h.induction_along (C := fun _ _ => True) (fun s a t hs _ => hstep s a t hs) hs (.of_forall fun _ _ _ => trivial)

/-- **When a property holds in every state that a run reaches**: exactly when every step of the run meets the condition
that decides whether the step keeps the property. -/
theorem forall_reached_iff {I : σ → Prop} {s : σ} (hI : ∀ s a t, I s → R s a t → I t)
    (hstep : ∀ s a t, I s → P s → R s a t → (P t ↔ C s a)) (htotal : ∀ s a, ¬ C s a → ∃ t, R s a t) (hIs : I s)
    (hs : P s) (acts : List α) :
    (∀ pre post t, acts = pre ++ post → Runs R s pre t → P t) ↔ Along R C s acts := by
  constructor
  · intro h pre a post t hacts hpre
    by_contra hnot
    obtain ⟨u, hu⟩ := htotal t a hnot
    have hPt : P t := h pre (a :: post) t hacts hpre
    have hPu : P u := h (pre ++ [a]) post u (by simp [hacts]) (hpre.snoc hu)
    exact hnot ((hstep t a u (hpre.induction hI hIs) hPt hu).1 hPu)
  · rintro h pre post t rfl hpre
    have hall : I t ∧ P t := by
      refine hpre.induction_along (P := fun t => I t ∧ P t) ?_ ⟨hIs, hs⟩ h.init
      intro t a u ht ha hu
      exact ⟨hI t a u ht.1 hu, (hstep t a u ht.1 ht.2 hu).2 ha⟩
    exact hall.2

/-- The same for what depends on the run so far. -/
theorem Runs.induction_history {Q : List α → σ → Prop} {s : σ} (hs : Q [] s)
    (hstep : ∀ acts t a u, Runs R s acts t → Q acts t → R t a u → Q (acts ++ [a]) u) {t : σ} {acts : List α}
    (h : Runs R s acts t) : Q acts t := by
  induction acts using List.reverseRecOn generalizing t with
  | nil =>
    cases h
    exact hs
  | append_singleton acts a ih =>
    obtain ⟨u, hu, h⟩ := runs_append.1 h
    obtain ⟨v, ha, h⟩ := runs_cons.1 h
    cases h
    exact hstep acts u a t hu (ih hu) ha

end Shadowc.Lib.Transition
