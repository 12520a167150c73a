import Shadowc.EventLoop.Dispatch
import Mathlib.Data.List.Nodup

/-!
# `EventLoop::run`

`run` calls `epoll_wait` again and again, and for each event of the batch it gets the handler that it finds in
`fd_handler_map`.  What a handler does is up to the handler (`Handlers`); to the loop and to the descriptors it does it
by their own operations.

`run` refines the system of single actions: each turn of its inner loop is a dispatch, followed by what the handler
does (`dispatchEvents_refines`), and each answer of `epoll_wait` a batch (`run_refines`).  So what holds along all runs
of the system holds in `run`; an event that finds no handler there has lost it to a handler of the same batch
(`skipped_removed`).
-/

namespace Shadowc.EventLoop

open Lib Transition

/-- What `epoll_wait` gives back: events, or -1 and `errno`. -/
inductive Wait where
  | events (events : List Event)
  | error (errno : ℤ)
  deriving DecidableEq, Repr

def eintr : ℤ := 4

/-- The error ends `run`. -/
def Wait.fatal : Wait → Bool
  | events _ => false
  | error errno => errno != eintr

/-- The answers that `run` goes through. -/
def used (answers : List Wait) : List Wait := answers.takeWhile fun answer => !answer.fatal

@[simp] theorem used_events (events : List Event) (answers : List Wait) :
    used (.events events :: answers) = .events events :: used answers := rfl

theorem used_error_of_eq {errno : ℤ} (h : errno = eintr) (answers : List Wait) :
    used (.error errno :: answers) = .error errno :: used answers := by
  simp [used, Wait.fatal, h]

theorem used_error_of_ne {errno : ℤ} (h : errno ≠ eintr) (answers : List Wait) :
    used (.error errno :: answers) = [] := by
  simp [used, Wait.fatal, h]

/-- An action that code outside `run` may take. -/
def Action.Operation {H : Type} : Action H → Prop
  | .wait _ => False
  | .dispatch => False
  | _ => True

instance {H : Type} : DecidablePred (Action.Operation (H := H)) := fun a => by
  cases a <;> unfold Action.Operation <;> infer_instance

/-- What `run` itself does for an answer. -/
def Wait.loopActions {H : Type} : Wait → List (Action H)
  | events batch => .wait batch :: List.replicate batch.length .dispatch
  | error _ => []

/-- The loop and the descriptors, and what the handlers have of their own. -/
structure Process (H S : Type) where
  kernel : Kernel
  fdHandlerMap : ℤ → Option H
  own : S

variable {H S : Type}

/-- The state of the loop while `batch` is still to be dispatched. -/
def Process.state (p : Process H S) (batch : List Event) : State H :=
  { kernel := p.kernel, fdHandlerMap := p.fdHandlerMap, batch }

/-- The code of the handlers: what `handle_event` does, `none` when it does not return, and the operations by which it
does it to the loop and the descriptors. -/
structure Handlers (H S : Type) where
  handleEvent : H → Event → Process H S → Option (Process H S)
  operations : H → Event → Process H S → List (Action H)
  operation : ∀ handler e p, ∀ a ∈ operations handler e p, a.Operation
  performs : ∀ handler e p p', handleEvent handler e p = some p' → ∀ batch,
    Runs Steps (p.state batch) (operations handler e p) (p'.state batch)

section Run

variable (hs : Handlers H S)

/-- The inner loop of `run`: a handler that is not found is reported and skipped. -/
def dispatchEvents (p : Process H S) : List Event → Option (Process H S)
  | [] => some p
  | e :: events =>
    match p.fdHandlerMap e.fd with
    | none => dispatchEvents p events
    | some handler => (hs.handleEvent handler e p).bind fun p => dispatchEvents p events

/-- `run`, as far as the answers of `epoll_wait` go: the process, and what `run` has returned. -/
def run (p : Process H S) : List Wait → Option (Process H S × Option ℤ)
  | [] => some (p, none)
  | .error errno :: answers => if errno ≠ eintr then some (p, some (-1)) else run p answers
  | .events events :: answers => (dispatchEvents hs p events).bind fun p => run p answers

/-- What `epoll_wait` can report: watched descriptors, each of them once, and not more than there is room for. -/
def Reports (p : Process H S) (events : List Event) : Prop :=
  events.length ≤ maxEvents ∧ (events.map Event.fd).Nodup ∧ ∀ e ∈ events, p.kernel.watched e.fd ≠ none

/-- Each answer is one that `epoll_wait` can give when it is called. -/
def Answers (p : Process H S) : List Wait → Prop
  | [] => True
  | .error errno :: answers => errno = eintr → Answers p answers
  | .events events :: answers =>
    Reports p events ∧ ∀ p', dispatchEvents hs p events = some p' → Answers p' answers

/-! ### The actions of a run -/

/-- What happens while `events` are dispatched. -/
def eventActions (p : Process H S) : List Event → List (Action H)
  | [] => []
  | e :: events =>
    match p.fdHandlerMap e.fd with
    | none => .dispatch :: eventActions p events
    | some handler => .dispatch :: (hs.operations handler e p ++
        ((hs.handleEvent handler e p).elim [] fun p => eventActions p events))

/-- What happens in a run. -/
def runActions (p : Process H S) : List Wait → List (Action H)
  | [] => []
  | .error errno :: answers => if errno ≠ eintr then [] else runActions p answers
  | .events events :: answers => .wait events :: (eventActions hs p events ++
      ((dispatchEvents hs p events).elim [] fun p => runActions p answers))

variable {hs}

/-- What the handlers keep holds after a batch. -/
theorem dispatchEvents_induction {P : Process H S → Prop}
    (hstep : ∀ handler e p p', P p → p.fdHandlerMap e.fd = some handler → hs.handleEvent handler e p = some p' → P p')
    {p p' : Process H S} {events : List Event} (hp : P p) (h : dispatchEvents hs p events = some p') : P p' := by
  induction events generalizing p with
  | nil =>
    obtain rfl := Option.some.inj h
    exact hp
  | cons e events ih =>
    simp only [dispatchEvents] at h
    cases hm : p.fdHandlerMap e.fd with
    | none =>
      simp only [hm] at h
      exact ih hp h
    | some handler =>
      simp only [hm] at h
      obtain ⟨p₁, hp₁, h⟩ := Option.bind_eq_some_iff.1 h
      exact ih (hstep handler e p p₁ hp hm hp₁) h

/-- What the handlers keep holds at the end of a run. -/
theorem run_induction {P : Process H S → Prop}
    (hstep : ∀ handler e p p', P p → p.fdHandlerMap e.fd = some handler → hs.handleEvent handler e p = some p' → P p')
    {p p' : Process H S} {answers : List Wait} {r : Option ℤ} (hp : P p) (h : run hs p answers = some (p', r)) :
    P p' := by
  induction answers generalizing p with
  | nil =>
    obtain ⟨rfl, -⟩ := Prod.mk.inj (Option.some.inj h)
    exact hp
  | cons answer answers ih =>
    cases answer with
    | error errno =>
      simp only [run] at h
      split at h
      · obtain ⟨rfl, -⟩ := Prod.mk.inj (Option.some.inj h)
        exact hp
      · exact ih hp h
    | events events =>
      obtain ⟨p₁, hp₁, h⟩ := Option.bind_eq_some_iff.1 h
      exact ih (dispatchEvents_induction hstep hp hp₁) h

/-- **One batch**: a dispatch for each event, followed by the operations of the handler. -/
theorem dispatchEvents_refines {p p' : Process H S} {events : List Event}
    (h : dispatchEvents hs p events = some p') (rest : List Event) :
    Runs Steps (p.state (events ++ rest)) (eventActions hs p events) (p'.state rest) := by
  induction events generalizing p with
  | nil =>
    obtain rfl := Option.some.inj h
    exact .nil
  | cons e events ih =>
    have htake : Steps (p.state (e :: events ++ rest)) .dispatch (p.state (events ++ rest)) := rfl
    simp only [dispatchEvents, eventActions] at h ⊢
    cases hm : p.fdHandlerMap e.fd with
    | none =>
      simp only [hm] at h
      exact .cons htake (ih h)
    | some handler =>
      simp only [hm] at h
      obtain ⟨p₁, hp, h⟩ := Option.bind_eq_some_iff.1 h
      simp only [hp, Option.elim_some]
      exact .cons htake ((hs.performs _ _ _ _ hp _).append (ih h))

/-- The answers that `run` has used up, when the whole list of them is one that can be given. -/
theorem Answers.append {p p' : Process H S} {answers answers' : List Wait} (ha : Answers hs p (answers ++ answers'))
    (h : run hs p answers = some (p', none)) : Answers hs p answers ∧ Answers hs p' answers' := by
  induction answers generalizing p with
  | nil =>
    obtain ⟨rfl, -⟩ := Prod.mk.inj (Option.some.inj h)
    exact ⟨trivial, ha⟩
  | cons answer answers ih =>
    cases answer with
    | error errno =>
      simp only [run] at h
      split at h
      · simp at h
      · next he =>
        obtain ⟨hpre, hpost⟩ := ih (ha (not_not.1 he)) h
        exact ⟨fun _ => hpre, hpost⟩
    | events events =>
      obtain ⟨hreports, ha⟩ := ha
      obtain ⟨p₁, hp, h⟩ := Option.bind_eq_some_iff.1 h
      obtain ⟨hpre, hpost⟩ := ih (ha p₁ hp) h
      refine ⟨⟨hreports, fun p₂ hp₂ => ?_⟩, hpost⟩
      obtain rfl := Option.some.inj (hp.symm.trans hp₂)
      exact hpre

/-- **`run` refines the system of single actions.** -/
theorem run_refines {p p' : Process H S} {answers : List Wait} {r : Option ℤ} (ha : Answers hs p answers)
    (h : run hs p answers = some (p', r)) : Runs Steps (p.state []) (runActions hs p answers) (p'.state []) := by
  induction answers generalizing p with
  | nil =>
    obtain ⟨rfl, -⟩ := Prod.mk.inj (Option.some.inj h)
    exact .nil
  | cons answer answers ih =>
    cases answer with
    | error errno =>
      simp only [run, runActions] at h ⊢
      split at h
      · next he =>
        obtain ⟨rfl, -⟩ := Prod.mk.inj (Option.some.inj h)
        rw [if_pos he]
        exact .nil
      · next he =>
        rw [if_neg he]
        exact ih (ha (not_not.1 he)) h
    | events events =>
      obtain ⟨⟨hlen, hnodup, hwatched⟩, ha⟩ := ha
      obtain ⟨p₁, hp, h⟩ := Option.bind_eq_some_iff.1 h
      have hwait : Steps (p.state []) (.wait events) (p.state events) := if_pos ⟨rfl, hlen, hnodup, hwatched⟩
      have hevents := dispatchEvents_refines hp []
      rw [List.append_nil] at hevents
      simp only [runActions, hp, Option.elim_some]
      exact .cons hwait (hevents.append (ih (ha p₁ hp) h))

/-! ### Events that find no handler -/

/-- A handler is lost by a removal. -/
theorem removed_of_lost {s s' : State H} {fd : ℤ} {acts : List (Action H)} (h : Runs Steps s acts s')
    (hs : s.fdHandlerMap fd ≠ none) (hs' : s'.fdHandlerMap fd = none) : .remove fd ∈ acts := by
  by_contra hnot
  have hkept := h.induction_along (P := fun s => s.fdHandlerMap fd ≠ none) (C := fun _ a => a ≠ .remove fd)
    (fun s a t hs ha hst => ?_) hs (.of_forall fun a ha _ e => hnot (e ▸ ha))
  · exact hkept hs'
  · rcases fdHandlerMap_step hst fd with he | ⟨hr, -⟩ | ⟨mode, handler, -, -, he⟩
    · rw [he]
      exact hs
    · exact absurd hr ha
    · rw [he]
      simp

/-- What happens while events are dispatched, the handlers do. -/
theorem mem_eventActions {p p' : Process H S} {events : List Event} {a : Action H}
    (h : dispatchEvents hs p events = some p') (ha : a ∈ eventActions hs p events) (hop : a.Operation) :
    ∃ before e after p₁ handler, events = before ++ e :: after ∧ dispatchEvents hs p before = some p₁ ∧
      p₁.fdHandlerMap e.fd = some handler ∧ a ∈ hs.operations handler e p₁ := by
  induction events generalizing p with
  | nil => simp [eventActions] at ha
  | cons e events ih =>
    simp only [dispatchEvents, eventActions] at h ha
    cases hm : p.fdHandlerMap e.fd with
    | none =>
      simp only [hm, List.mem_cons] at h ha
      rcases ha with rfl | ha
      · exact hop.elim
      obtain ⟨before, e', after, p₁, handler, rfl, hb, hh, hmem⟩ := ih h ha
      refine ⟨e :: before, e', after, p₁, handler, rfl, ?_, hh, hmem⟩
      simp only [dispatchEvents, hm, hb]
    | some handler =>
      simp only [hm] at h ha
      obtain ⟨p₁, hp, h⟩ := Option.bind_eq_some_iff.1 h
      simp only [hp, Option.elim_some, List.mem_cons, List.mem_append] at ha
      rcases ha with rfl | ha | ha
      · exact hop.elim
      · exact ⟨[], e, events, p, handler, rfl, rfl, hm, ha⟩
      obtain ⟨before, e', after, p₂, handler', rfl, hb, hh, hmem⟩ := ih h ha
      refine ⟨e :: before, e', after, p₂, handler', rfl, ?_, hh, hmem⟩
      simp only [dispatchEvents, hm, hp, Option.bind_some, hb]

/-- **Why an event finds no handler.**  The loop has been constructed, and set up by any actions.  When in its run an
event of a batch finds no handler at its turn, the handler of an earlier event of that batch has removed its
descriptor. -/
theorem skipped_removed {kernel : Kernel} {setup : List (Action H)} {p : Process H S} {answers : List Wait}
    {before after : List Event} {e : Event} {p₁ p₂ : Process H S} {answers' : List Wait}
    (hsetup : Runs Steps (State.construct kernel) setup (p.state []))
    (ha : Answers hs p (answers ++ .events (before ++ e :: after) :: answers'))
    (hrun : run hs p answers = some (p₁, none)) (hbefore : dispatchEvents hs p₁ before = some p₂)
    (hskip : p₂.fdHandlerMap e.fd = none) :
    ∃ first e' rest p₃ handler, before = first ++ e' :: rest ∧ dispatchEvents hs p₁ first = some p₃ ∧
      p₃.fdHandlerMap e'.fd = some handler ∧ .remove e.fd ∈ hs.operations handler e' p₃ := by
  obtain ⟨hpre, ⟨-, -, hwatched⟩, -⟩ := ha.append hrun
  have hreg : Registered (p₁.state []) := registered_run (hsetup.append (run_refines hpre hrun))
  -- the handler was there when the batch was reported
  have hhad : (p₁.state (before ++ (e :: after))).fdHandlerMap e.fd ≠ none := hreg e.fd (hwatched e (by simp))
  have hremoved := removed_of_lost (dispatchEvents_refines hbefore (e :: after)) hhad hskip
  exact mem_eventActions hbefore hremoved trivial

/-! ### The loop's own actions -/

/-- Of what happens in a batch the dispatches are the loop's own. -/
theorem filter_eventActions {p p' : Process H S} {events : List Event} (h : dispatchEvents hs p events = some p') :
    (eventActions hs p events).filter (fun a => ¬ a.Operation) = List.replicate events.length .dispatch := by
  induction events generalizing p with
  | nil => rfl
  | cons e events ih =>
    have hown : ¬ (Action.dispatch : Action H).Operation := id
    simp only [dispatchEvents, eventActions] at h ⊢
    cases hm : p.fdHandlerMap e.fd with
    | none =>
      simp only [hm] at h
      rw [List.filter_cons_of_pos (by simpa using hown), ih h]
      rfl
    | some handler =>
      simp only [hm] at h
      obtain ⟨p₁, hp, h⟩ := Option.bind_eq_some_iff.1 h
      have hops : (hs.operations handler e p).filter (fun a => ¬ a.Operation) = [] :=
        List.filter_eq_nil_iff.2 fun a ha => by simpa using hs.operation handler e p a ha
      simp only [hp, Option.elim_some]
      rw [List.filter_cons_of_pos (by simpa using hown), List.filter_append, hops, List.nil_append, ih h]
      rfl

theorem filter_runActions {p p' : Process H S} {answers : List Wait} {r : Option ℤ}
    (h : run hs p answers = some (p', r)) :
    (runActions hs p answers).filter (fun a => ¬ a.Operation) = (used answers).flatMap Wait.loopActions := by
  induction answers generalizing p with
  | nil => rfl
  | cons answer answers ih =>
    cases answer with
    | error errno =>
      simp only [run, runActions] at h ⊢
      by_cases he : errno = eintr
      · rw [if_neg (not_not.2 he)] at h ⊢
        rw [used_error_of_eq he, ih h]
        rfl
      · rw [if_pos he, used_error_of_ne he]
        rfl
    | events events =>
      obtain ⟨p₁, hp, h⟩ := Option.bind_eq_some_iff.1 h
      have hown : ¬ (Action.wait events : Action H).Operation := id
      simp only [runActions, hp, Option.elim_some, used_events, List.flatMap_cons, Wait.loopActions]
      rw [List.filter_cons_of_pos (by simpa using hown), List.filter_append, filter_eventActions hp, ih h]
      rfl

/-- `run` returns -1 at the first fatal error, and nothing else. -/
theorem run_result {p p' : Process H S} {answers : List Wait} {r : Option ℤ} (h : run hs p answers = some (p', r)) :
    r = if used answers = answers then none else some (-1) := by
  induction answers generalizing p with
  | nil => exact (Prod.mk.inj (Option.some.inj h)).2.symm
  | cons answer answers ih =>
    cases answer with
    | error errno =>
      simp only [run] at h
      by_cases he : errno = eintr
      · rw [if_neg (not_not.2 he)] at h
        simpa only [used_error_of_eq he, List.cons.injEq, true_and] using ih h
      · rw [if_pos he] at h
        simpa [used_error_of_ne he] using (Prod.mk.inj (Option.some.inj h)).2.symm
    | events events =>
      obtain ⟨p₁, -, h⟩ := Option.bind_eq_some_iff.1 h
      simpa only [used_events, List.cons.injEq, true_and] using ih h

end Run

/-! ### Handlers that remove descriptors -/

/-- Each handler removes one descriptor when it is called. -/
def removing (target : H → Event → ℤ) : Handlers H Unit where
  handleEvent handler e p :=
    some { p with
      kernel := p.kernel.epollCtlDel (target handler e)
      fdHandlerMap := Function.update p.fdHandlerMap (target handler e) none }
  operations handler e _ := [.remove (target handler e)]
  operation := by simp [Action.Operation]
  performs := by
    rintro handler e p _ ⟨⟩ batch
    exact .cons rfl .nil

/-- Two sockets are added, for handlers that remove each other. -/
def addTwo : List (Action ℤ) := [.openFd 5 true, .openFd 6 true, .add 5 1 6, .add 6 1 5]

/-- The loop after `addTwo`. -/
def twoAdded : Process ℤ Unit where
  kernel := (((Kernel.fresh.epollCreate.openFd 5 true).bind (·.openFd 6 true)).bind (·.epollCtlAdd 5 1)).bind
    (·.epollCtlAdd 6 1) |>.getD Kernel.fresh
  fdHandlerMap := State.insert (State.insert (fun _ => none) 5 6) 6 5
  own := ()

theorem setup_twoAdded : Runs Steps (State.construct Kernel.fresh) addTwo (twoAdded.state []) :=
  .cons rfl (.cons rfl (.cons rfl (.cons rfl .nil)))

/-! ### Whole runs -/

section Whole

variable {hs : Handlers H S} {kernel : Kernel} {setup : List (Action H)} {p : Process H S} {answers : List Wait}

/-- **`run` is a run of the system.**  Whatever the handlers do, and however the constructed loop has been set up: for
all answers that `epoll_wait` can give, what happens in `run` is a run of the system, in which the loop takes each batch
and dispatches its events one by one, and everything else is done by the handlers.  It ends at the first error that is
not `EINTR`, with -1. -/
theorem run_simulates {p' : Process H S} {r : Option ℤ}
    (hsetup : Runs Steps (State.construct kernel) setup (p.state [])) (ha : Answers hs p answers)
    (h : run hs p answers = some (p', r)) :
    (∃ acts, Runs Steps (State.construct kernel) (setup ++ acts) (p'.state []) ∧
      acts.filter (fun a => ¬ a.Operation) = (used answers).flatMap Wait.loopActions) ∧
    r = if used answers = answers then none else some (-1) :=
  ⟨⟨runActions hs p answers, hsetup.append (run_refines ha h), filter_runActions h⟩, run_result h⟩

/-- The handler of 5 removes 6, whose event is skipped; then a signal comes, and then the end. -/
theorem run_simulates_twoAdded : ∃ p' acts,
    run (removing fun target _ => target) twoAdded [.events [⟨1, 5⟩, ⟨1, 6⟩], .error eintr, .error 9] =
      some (p', some (-1)) ∧
    Runs Steps (State.construct Kernel.fresh) (addTwo ++ acts) (p'.state []) ∧
    acts.filter (fun a => ¬ a.Operation) = [.wait [⟨1, 5⟩, ⟨1, 6⟩], .dispatch, .dispatch] := by
  have ha : Answers (removing fun target _ => target) twoAdded
      [.events [⟨1, 5⟩, ⟨1, 6⟩], .error eintr, .error 9] :=
    ⟨⟨by decide, by decide, by decide⟩, fun _ _ _ h => absurd h (by decide)⟩
  obtain ⟨⟨acts, hruns, hown⟩, -⟩ := run_simulates setup_twoAdded ha rfl
  exact ⟨_, acts, rfl, hruns, hown⟩

/-- **No event is skipped** in a run of the loop whose handlers remove their own descriptors only. -/
theorem never_skips {before after : List Event} {e : Event} {p₁ p₂ : Process H S} {answers' : List Wait}
    (hown : ∀ handler e p fd, .remove fd ∈ hs.operations handler e p → fd = e.fd)
    (hsetup : Runs Steps (State.construct kernel) setup (p.state []))
    (ha : Answers hs p (answers ++ .events (before ++ e :: after) :: answers'))
    (hrun : run hs p answers = some (p₁, none)) (hbefore : dispatchEvents hs p₁ before = some p₂) :
    ∃ handler, p₂.fdHandlerMap e.fd = some handler := by
  rw [← Option.ne_none_iff_exists']
  intro hskip
  obtain ⟨-, ⟨-, hnodup, -⟩, -⟩ := ha.append hrun
  obtain ⟨first, e', rest, p₃, handler, rfl, -, -, hmem⟩ := skipped_removed hsetup ha hrun hbefore hskip
  have hfd : e.fd = e'.fd := hown _ _ _ _ hmem
  rw [List.map_append, List.nodup_append] at hnodup
  exact hnodup.2.2 e'.fd (List.mem_map_of_mem (by simp)) e.fd (by simp) hfd.symm

/-- Each handler removes its own descriptor. -/
theorem never_skips_twoAdded : ∃ p₂ handler,
    dispatchEvents (removing fun _ e => e.fd) twoAdded [⟨1, 5⟩] = some p₂ ∧ p₂.fdHandlerMap 5 = none ∧
      p₂.fdHandlerMap 6 = some handler := by
  have ha : Answers (removing fun _ e => e.fd) twoAdded ([] ++ .events ([⟨1, 5⟩] ++ ⟨1, 6⟩ :: []) :: []) :=
    ⟨⟨by decide, by decide, by decide⟩, fun _ _ => trivial⟩
  have hrun : run (removing fun _ e => e.fd) twoAdded [] = some (twoAdded, none) := rfl
  obtain ⟨handler, hfind⟩ := never_skips (by simp [removing]) setup_twoAdded ha hrun rfl
  exact ⟨_, handler, rfl, rfl, hfind⟩

end Whole

end Shadowc.EventLoop
