import Shadowc.Lib.Transition
import Mathlib.Data.Int.Notation
import Mathlib.Data.Nat.Notation
import Mathlib.Logic.Function.Basic

/-!
# `EventLoop` over the kernel's epoll set

Two registries say who listens to a descriptor: the epoll set of `efd` in the kernel, and `fd_handler_map` in the
program.  A handler is a value of any type `H`; what it does when it is called are further actions of the system.

`State` is the kernel, the map and the events of the batch that `run` has not dispatched yet.  `step` is one action:
a call of `add` or `remove`, a descriptor that is opened or closed, a return of `epoll_wait`, or one turn of the
dispatch loop.
-/

namespace Shadowc.EventLoop

open Lib Transition

/-! ### The kernel -/

structure Kernel where
  /-- The descriptors in use. -/
  inUse : ℤ → Bool
  /-- Those `epoll` can wait for. -/
  pollable : ℤ → Bool
  /-- The epoll set of `efd`: the events that are waited for. -/
  watched : ℤ → Option ℕ

namespace Kernel

/-- No descriptor is in use. -/
def fresh : Kernel := { inUse := fun _ => false, pollable := fun _ => false, watched := fun _ => none }

/-- `epoll_ctl(efd, EPOLL_CTL_ADD, fd, &ev)`; `none` is -1. -/
def epollCtlAdd (k : Kernel) (fd : ℤ) (events : ℕ) : Option Kernel :=
  if k.inUse fd ∧ k.pollable fd ∧ k.watched fd = none then
    some { k with watched := Function.update k.watched fd (some events) }
  else none

/-- `epoll_ctl(efd, EPOLL_CTL_DEL, fd, NULL)`; it fails for a descriptor that is not in the set, and changes nothing. -/
def epollCtlDel (k : Kernel) (fd : ℤ) : Kernel := { k with watched := Function.update k.watched fd none }

/-- `close(fd)`: the descriptor leaves the epoll set. -/
def close (k : Kernel) (fd : ℤ) : Kernel :=
  { k with inUse := Function.update k.inUse fd false, watched := Function.update k.watched fd none }

/-- A descriptor is handed out; `none` when its number is in use. -/
def openFd (k : Kernel) (fd : ℤ) (pollable : Bool) : Option Kernel :=
  if k.inUse fd then none
  else some { k with inUse := Function.update k.inUse fd true, pollable := Function.update k.pollable fd pollable }

end Kernel

/-! ### The loop -/

/-- `epoll_event` -/
structure Event where
  events : ℕ
  fd : ℤ
  deriving DecidableEq, Repr

structure State (H : Type) where
  kernel : Kernel
  fdHandlerMap : ℤ → Option H
  /-- What is left of the batch of the last `epoll_wait`. -/
  batch : List Event

namespace State

variable {H : Type}

/-- The loop when it has been constructed, and no handler has been added. -/
def init (kernel : Kernel) : State H := { kernel, fdHandlerMap := fun _ => none, batch := [] }

/-- `std::map::insert`: an entry that is there stays. -/
def insert (m : ℤ → Option H) (fd : ℤ) (handler : H) : ℤ → Option H :=
  match m fd with
  | some _ => m
  | none => Function.update m fd (some handler)

/-- `EventLoop::add`.  When `epoll_ctl` fails the handler is inserted all the same. -/
def add (s : State H) (fd : ℤ) (mode : ℕ) (handler : H) : State H :=
  { s with
    kernel := (s.kernel.epollCtlAdd fd mode).getD s.kernel
    fdHandlerMap := insert s.fdHandlerMap fd handler }

/-- `EventLoop::remove` -/
def remove (s : State H) (fd : ℤ) : State H :=
  { s with kernel := s.kernel.epollCtlDel fd, fdHandlerMap := Function.update s.fdHandlerMap fd none }

/-- The handler that the dispatch loop finds for an event. -/
def find (s : State H) (e : Event) : Option H := s.fdHandlerMap e.fd

end State

/-- What happens to the loop and its descriptors. -/
inductive Action (H : Type) where
  | add (fd : ℤ) (mode : ℕ) (handler : H)
  | remove (fd : ℤ)
  | openFd (fd : ℤ) (pollable : Bool)
  | close (fd : ℤ)
  /-- `epoll_wait` returns these events. -/
  | wait (events : List Event)
  /-- One turn of the dispatch loop. -/
  | dispatch

variable {H : Type}

def maxEvents : ℕ := 64

/-- One action; `none` when it cannot happen in this state.  `epoll_wait` is called when the batch is used up, and
reports descriptors of the epoll set, each of them once. -/
def step (s : State H) : Action H → Option (State H)
  | .add fd mode handler => some (s.add fd mode handler)
  | .remove fd => some (s.remove fd)
  | .openFd fd pollable => (s.kernel.openFd fd pollable).map fun kernel => { s with kernel }
  | .close fd => some { s with kernel := s.kernel.close fd }
  | .wait events =>
    if s.batch = [] ∧ events.length ≤ maxEvents ∧ (events.map Event.fd).Nodup ∧
        ∀ e ∈ events, s.kernel.watched e.fd ≠ none then
      some { s with batch := events }
    else none
  | .dispatch =>
    match s.batch with
    | [] => none
    | _ :: batch => some { s with batch }

/-! ### What the operations do to one descriptor -/

theorem insert_self (m : ℤ → Option H) (fd : ℤ) (handler : H) :
    State.insert m fd handler fd = some ((m fd).getD handler) := by
  unfold State.insert
  cases h : m fd <;> simp [h]

theorem insert_of_ne (m : ℤ → Option H) {fd fd' : ℤ} (h : fd' ≠ fd) (handler : H) :
    State.insert m fd handler fd' = m fd' := by
  unfold State.insert
  cases m fd <;> simp [h]

/-- **Which actions change the handler of a descriptor**: its removal, and an addition that finds none. -/
theorem fdHandlerMap_step {s s' : State H} {a : Action H} (h : step s a = some s') (fd : ℤ) :
    s'.fdHandlerMap fd = s.fdHandlerMap fd ∨
    (a = .remove fd ∧ s'.fdHandlerMap fd = none) ∨
    ∃ mode handler, a = .add fd mode handler ∧ s.fdHandlerMap fd = none ∧ s'.fdHandlerMap fd = some handler := by
  cases a with
  | add fd' mode handler =>
    obtain rfl := Option.some.inj h
    by_cases hfd : fd = fd'
    · subst hfd
      cases hm : s.fdHandlerMap fd with
      | none => exact .inr (.inr ⟨mode, handler, rfl, rfl, by simp [State.add, insert_self, hm]⟩)
      | some h' => exact .inl (by simp [State.add, insert_self, hm])
    · exact .inl (insert_of_ne _ hfd _)
  | remove fd' =>
    obtain rfl := Option.some.inj h
    by_cases hfd : fd = fd'
    · subst hfd
      exact .inr (.inl ⟨rfl, by simp [State.remove]⟩)
    · exact .inl (by simp [State.remove, hfd])
  | openFd fd' pollable =>
    obtain ⟨k, -, rfl⟩ := Option.map_eq_some_iff.1 h
    exact .inl rfl
  | close fd' =>
    obtain rfl := Option.some.inj h
    exact .inl rfl
  | wait events =>
    simp only [step] at h
    split at h
    · obtain rfl := Option.some.inj h
      exact .inl rfl
    · cases h
  | dispatch =>
    simp only [step] at h
    split at h
    · cases h
    · obtain rfl := Option.some.inj h
      exact .inl rfl

/-- **Which actions change whether a descriptor is watched**: its removal, its closing, and a successful addition. -/
theorem watched_step {s s' : State H} {a : Action H} (h : step s a = some s') (fd : ℤ) :
    s'.kernel.watched fd = s.kernel.watched fd ∨
    ((a = .remove fd ∨ a = .close fd) ∧ s'.kernel.watched fd = none) ∨
    ∃ mode handler, a = .add fd mode handler ∧ s.kernel.watched fd = none ∧ s'.kernel.watched fd = some mode := by
  cases a with
  | add fd' mode handler =>
    obtain rfl := Option.some.inj h
    simp only [State.add, Kernel.epollCtlAdd]
    split
    · next hc =>
      by_cases hfd : fd = fd'
      · subst hfd
        exact .inr (.inr ⟨mode, handler, rfl, hc.2.2, by simp⟩)
      · exact .inl (by simp [hfd])
    · exact .inl rfl
  | remove fd' =>
    obtain rfl := Option.some.inj h
    by_cases hfd : fd = fd'
    · subst hfd
      exact .inr (.inl ⟨.inl rfl, by simp [State.remove, Kernel.epollCtlDel]⟩)
    · exact .inl (by simp [State.remove, Kernel.epollCtlDel, hfd])
  | openFd fd' pollable =>
    obtain ⟨k, hk, rfl⟩ := Option.map_eq_some_iff.1 h
    unfold Kernel.openFd at hk
    split at hk
    · cases hk
    · obtain rfl := Option.some.inj hk
      exact .inl rfl
  | close fd' =>
    obtain rfl := Option.some.inj h
    by_cases hfd : fd = fd'
    · subst hfd
      exact .inr (.inl ⟨.inr rfl, by simp [Kernel.close]⟩)
    · exact .inl (by simp [Kernel.close, hfd])
  | wait events =>
    simp only [step] at h
    split at h
    · obtain rfl := Option.some.inj h
      exact .inl rfl
    · cases h
  | dispatch =>
    simp only [step] at h
    split at h
    · cases h
    · obtain rfl := Option.some.inj h
      exact .inl rfl

end Shadowc.EventLoop
