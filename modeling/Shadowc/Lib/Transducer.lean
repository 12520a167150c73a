import Mathlib.Data.List.Basic
import Mathlib.Data.Nat.Notation

/-!
# Stream transducers

A transducer takes a chunk of input in a state, and returns a state and a chunk of output.  It is *streaming* when its
output is as long as its input and does not depend on how the input is cut into chunks.

* `Streaming.feed_flatten`: the outputs for a sequence of chunks, put together, are the output for the chunks put
  together;
* `Streaming.resumes`: after some input the transducer goes on as if all the input came at once;
* `streaming_each`: what works item by item is streaming;
* `each_inverse`: two transducers that undo each other item by item undo each other on every input.
-/

namespace Shadowc.Lib.Transducer

variable {σ τ α β : Type*}

/-- In the states that are `live`, chunks may be cut and joined. -/
structure Streaming (live : σ → Prop) (f : σ → List α → σ × List β) : Prop where
  closed : ∀ s a, live s → live (f s a).1
  length : ∀ s a, live s → (f s a).2.length = a.length
  append : ∀ s a b, live s → f s (a ++ b) = ((f (f s a).1 b).1, (f s a).2 ++ (f (f s a).1 b).2)

/-- The chunks one after the other; an empty chunk is not passed on. -/
def feed (f : σ → List α → σ × List β) (s : σ) : List (List α) → σ × List (List β)
  | [] => (s, [])
  | c :: cs =>
    let (s, out) := if c.length = 0 then (s, []) else f s c
    let (s, outs) := feed f s cs
    (s, out :: outs)

theorem feed_cons_of_empty (f : σ → List α → σ × List β) (s : σ) {c : List α} (h : c.length = 0)
    (cs : List (List α)) : feed f s (c :: cs) = ((feed f s cs).1, [] :: (feed f s cs).2) := by
  rw [feed, if_pos h]

theorem feed_cons (f : σ → List α → σ × List β) (s : σ) {c : List α} (h : c.length ≠ 0) (cs : List (List α)) :
    feed f s (c :: cs) = ((feed f (f s c).1 cs).1, (f s c).2 :: (feed f (f s c).1 cs).2) := by
  rw [feed, if_neg h]

/-- **Cutting the input into chunks makes no difference.** -/
theorem Streaming.feed_flatten {live : σ → Prop} {f : σ → List α → σ × List β} (h : Streaming live f)
    (cs : List (List α)) : ∀ {s : σ}, live s → (feed f s cs).2.flatten = (f s cs.flatten).2 := by
  induction cs with
  | nil =>
    intro s hs
    exact (List.length_eq_zero_iff.1 (h.length s [] hs)).symm
  | cons c cs ih =>
    intro s hs
    by_cases hc : c.length = 0
    · rw [feed_cons_of_empty f s hc, List.flatten_cons, List.flatten_cons, List.length_eq_zero_iff.1 hc, ih hs]
      rfl
    · rw [feed_cons f s hc, List.flatten_cons, List.flatten_cons, h.append s c _ hs, ih (h.closed s c hs)]

/-- In state `t` the transducer gives what it gives in state `s` after the input `a`. -/
def Resumes (live : σ → Prop) (f : σ → List α → σ × List β) (s : σ) (a : List α) (t : σ) : Prop :=
  live t ∧ ∀ b, (f s (a ++ b)).2 = (f s a).2 ++ (f t b).2

theorem Streaming.output_nil {live : σ → Prop} {f : σ → List α → σ × List β} (h : Streaming live f) {s : σ}
    (hs : live s) : (f s []).2 = [] :=
  List.length_eq_zero_iff.1 (h.length s [] hs)

theorem Streaming.resumes_start {live : σ → Prop} {f : σ → List α → σ × List β} (h : Streaming live f) {s : σ}
    (hs : live s) : Resumes live f s [] s := by
  refine ⟨hs, fun b => ?_⟩
  rw [h.output_nil hs, List.nil_append, List.nil_append]

/-- Input that is given later is input all the same. -/
theorem Streaming.resumes {live : σ → Prop} {f : σ → List α → σ × List β} (h : Streaming live f) {s t : σ} {a : List α}
    (ht : Resumes live f s a t) (b : List α) : Resumes live f s (a ++ b) (f t b).1 := by
  refine ⟨h.closed t b ht.1, fun c => ?_⟩
  rw [List.append_assoc, ht.2 (b ++ c), h.append t b c ht.1, ht.2 b, List.append_assoc]

/-! ### Item by item -/

/-- The transducer that works item by item. -/
def each (step : σ → α → σ × β) (s : σ) : List α → σ × List β
  | [] => (s, [])
  | a :: as =>
    let (s, b) := step s a
    let (s, bs) := each step s as
    (s, b :: bs)

theorem streaming_each (step : σ → α → σ × β) : Streaming (fun _ => True) (each step) where
  closed _ _ _ := trivial
  length s a _ := by
    induction a generalizing s with
    | nil => rfl
    | cons x a ih => simp [each, ih]
  append s a b _ := by
    induction a generalizing s with
    | nil => rfl
    | cons x a ih => simp [each, ih]

/-- Two transducers that go through related states, each undoing the items of the other. -/
theorem each_inverse {step : σ → α → σ × β} {back : τ → β → τ × α} {R : σ → τ → Prop}
    (h : ∀ s t a, R s t → R (step s a).1 (back t (step s a).2).1 ∧ (back t (step s a).2).2 = a) (as : List α) :
    ∀ {s : σ} {t : τ}, R s t → (each back t (each step s as).2).2 = as := by
  induction as with
  | nil => intro s t _; rfl
  | cons a as ih =>
    intro s t hR
    obtain ⟨hR', ha⟩ := h s t a hR
    simp only [each]
    rw [ha, ih hR']

end Shadowc.Lib.Transducer
