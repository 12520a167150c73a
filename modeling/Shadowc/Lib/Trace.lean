import Mathlib.Data.List.Basic

/-!
# Computations that log what they do

`Traced ε ρ α` is a computation that returns an `α` or stops with a `ρ`, with the events `ε` it has logged by then.
Forgetting the log is a map of monads (`outcome_bind`), so that an instrumented function can be compared with the one
it instruments.  A condition on all events holds of a sequence when it holds of its parts (`all_bind`), of the second
part at the value the first one returns.
-/

namespace Shadowc.Lib.Trace

structure Traced (ε ρ α : Type) where
  trace : List ε
  outcome : Except ρ α

namespace Traced

variable {ε ρ α β : Type}

instance : Monad (Traced ε ρ) where
  pure a := { trace := [], outcome := .ok a }
  bind x f :=
    match x.outcome with
    | .ok a => { trace := x.trace ++ (f a).trace, outcome := (f a).outcome }
    | .error e => { trace := x.trace, outcome := .error e }

/-- Log one event. -/
def emit (e : ε) : Traced ε ρ Unit := { trace := [e], outcome := .ok () }

/-- Log several events, in this order. -/
def emits (es : List ε) : Traced ε ρ Unit := { trace := es, outcome := .ok () }

/-- A computation that logs nothing. -/
def lift (x : Except ρ α) : Traced ε ρ α := { trace := [], outcome := x }

@[simp] theorem outcome_pure (a : α) : (pure a : Traced ε ρ α).outcome = .ok a := rfl

@[simp] theorem outcome_emit (e : ε) : (emit e : Traced ε ρ Unit).outcome = .ok () := rfl

@[simp] theorem outcome_emits (es : List ε) : (emits es : Traced ε ρ Unit).outcome = .ok () := rfl

@[simp] theorem outcome_lift (x : Except ρ α) : (lift x : Traced ε ρ α).outcome = x := rfl

@[simp] theorem trace_pure (a : α) : (pure a : Traced ε ρ α).trace = [] := rfl

@[simp] theorem trace_emit (e : ε) : (emit e : Traced ε ρ Unit).trace = [e] := rfl

@[simp] theorem trace_emits (es : List ε) : (emits es : Traced ε ρ Unit).trace = es := rfl

@[simp] theorem trace_lift (x : Except ρ α) : (lift x : Traced ε ρ α).trace = [] := rfl

section Sequence

variable {x : Traced ε ρ α} {f : α → Traced ε ρ β}

/-- **The log makes no difference** to what a sequence returns. -/
theorem outcome_bind : (x >>= f).outcome = x.outcome >>= fun a => (f a).outcome := by
  show (match x.outcome with
    | .ok a => ({ trace := x.trace ++ (f a).trace, outcome := (f a).outcome } : Traced ε ρ β)
    | .error e => { trace := x.trace, outcome := .error e }).outcome = _
  cases x.outcome <;> rfl

theorem bind_ok {a : α} (h : x.outcome = .ok a) :
    x >>= f = { trace := x.trace ++ (f a).trace, outcome := (f a).outcome } := by
  show (match x.outcome with
    | .ok a => ({ trace := x.trace ++ (f a).trace, outcome := (f a).outcome } : Traced ε ρ β)
    | .error e => { trace := x.trace, outcome := .error e }) = _
  rw [h]

theorem bind_error {e : ρ} (h : x.outcome = .error e) : x >>= f = { trace := x.trace, outcome := .error e } := by
  show (match x.outcome with
    | .ok a => ({ trace := x.trace ++ (f a).trace, outcome := (f a).outcome } : Traced ε ρ β)
    | .error e => { trace := x.trace, outcome := .error e }) = _
  rw [h]

theorem trace_bind_ok {a : α} (h : x.outcome = .ok a) : (x >>= f).trace = x.trace ++ (f a).trace := by rw [bind_ok h]

end Sequence

/-! ### Conditions on all events -/

/-- Every event that is logged meets the condition. -/
def All (p : ε → Prop) (x : Traced ε ρ α) : Prop := ∀ e ∈ x.trace, p e

variable {p : ε → Prop}

@[simp] theorem all_pure (a : α) : All p (pure a : Traced ε ρ α) := by
  intro e he
  cases he

@[simp] theorem all_lift (x : Except ρ α) : All p (lift x : Traced ε ρ α) := by
  intro e he
  cases he

@[simp] theorem all_emit (e : ε) : All p (emit e : Traced ε ρ Unit) ↔ p e := by simp [All]

@[simp] theorem all_emits (es : List ε) : All p (emits es : Traced ε ρ Unit) ↔ ∀ e ∈ es, p e := Iff.rfl

/-- **A sequence logs what its parts do**, the second one as far as it is reached. -/
theorem all_bind {x : Traced ε ρ α} {f : α → Traced ε ρ β} :
    All p (x >>= f) ↔ All p x ∧ ∀ a, x.outcome = .ok a → All p (f a) := by
  cases h : x.outcome with
  | ok a =>
    rw [bind_ok h]
    simp [All, or_imp, forall_and]
  | error e =>
    rw [bind_error h]
    simp [All]

/-- The same when the first part is known to return. -/
theorem all_bind_ok {x : Traced ε ρ α} {f : α → Traced ε ρ β} {a : α} (h : x.outcome = .ok a) :
    All p (x >>= f) ↔ All p x ∧ All p (f a) := by
  rw [all_bind, h]
  simp

theorem All.mono {q : ε → Prop} {x : Traced ε ρ α} (h : All p x) (hpq : ∀ e, p e → q e) : All q x :=
  fun e he => hpq e (h e he)

/-! ### Part of the log -/

/-- What `f` keeps of the events that are logged, in their order. -/
def logged {γ : Type} (f : ε → Option γ) (x : Traced ε ρ α) : List γ := x.trace.filterMap f

section Logged

variable {γ : Type} {f : ε → Option γ}

theorem logged_bind_ok {x : Traced ε ρ α} {g : α → Traced ε ρ β} {a : α} (h : x.outcome = .ok a) :
    logged f (x >>= g) = logged f x ++ logged f (g a) := by
  rw [logged, trace_bind_ok h, List.filterMap_append]
  rfl

theorem logged_bind_error {x : Traced ε ρ α} {g : α → Traced ε ρ β} {e : ρ} (h : x.outcome = .error e) :
    logged f (x >>= g) = logged f x := by
  rw [bind_error h]
  rfl

theorem logged_eq_nil {x : Traced ε ρ α} (h : All (fun e => f e = none) x) : logged f x = [] :=
  List.filterMap_eq_nil_iff.2 h

end Logged

end Traced

end Shadowc.Lib.Trace
