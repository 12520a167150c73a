import Shadowc.EventLoop.Ownership

/-!
# Dispatch across a batch

While `run` walks the events of a batch, handlers add and remove descriptors, also those whose events are still to
come.  Every descriptor of the epoll set has an entry in `fd_handler_map` (`Registered`), so that each event finds a
handler at the time it is reported; when it finds none at its turn, its descriptor has been removed in between
(`Reported`).  A removed descriptor has no entry until it is added again (`fdHandlerMap_removed`).
-/

namespace Shadowc.EventLoop

open Lib Transition

variable {H : Type}

/-- `epoll_create1(0)`: the epoll set of the new `efd` is empty. -/
def Kernel.epollCreate (k : Kernel) : Kernel := { k with watched := fun _ => none }

/-- The constructor of `EventLoop`. -/
def State.construct (kernel : Kernel) : State H := State.init kernel.epollCreate

/-! ### Both registries -/

/-- Every descriptor of the epoll set has a handler. -/
def Registered (s : State H) : Prop := ∀ fd, s.kernel.watched fd ≠ none → s.fdHandlerMap fd ≠ none

theorem registered_construct (kernel : Kernel) : Registered (State.construct kernel : State H) :=
  fun _ hw => absurd rfl hw

/-- Successful and failing additions, removals and closings at any point keep the two registries in step. -/
theorem registered_step {s s' : State H} {a : Action H} (hs : Registered s) (h : step s a = some s') :
    Registered s' := by
  intro fd hw
  rcases fdHandlerMap_step h fd with he | ⟨rfl, -⟩ | ⟨mode, handler, -, -, he⟩
  · -- the entry is as before, and the descriptor was watched, or else this is an addition that found it
    rw [he]
    rcases watched_step h fd with hsame | ⟨-, hnone⟩ | ⟨mode, handler, rfl, -, -⟩
    · exact hs fd (hsame ▸ hw)
    · exact absurd hnone hw
    · obtain rfl := Option.some.inj h
      rw [← he]
      show State.insert s.fdHandlerMap fd handler fd ≠ none
      rw [insert_self]
      simp
  · obtain rfl := Option.some.inj h
    exact absurd (by simp [State.remove, Kernel.epollCtlDel]) hw
  · rw [he]
    simp

theorem registered_run {kernel : Kernel} {s : State H} {acts : List (Action H)}
    (h : Runs Steps (State.construct kernel) acts s) : Registered s :=
  h.induction (fun _ _ _ hs hst => registered_step hs hst) (registered_construct kernel)

/-! ### The events of a batch -/

/-- **Where the events of a batch come from**: `epoll_wait` reports those of watched descriptors, and otherwise the
batch only gets shorter. -/
theorem batch_step {s s' : State H} {a : Action H} (h : step s a = some s') :
    (a = .wait s'.batch ∧ s'.fdHandlerMap = s.fdHandlerMap ∧ ∀ e ∈ s'.batch, s.kernel.watched e.fd ≠ none) ∨
    ((∀ events, a ≠ .wait events) ∧ ∀ e ∈ s'.batch, e ∈ s.batch) := by
  cases a with
  | add fd mode handler =>
    obtain rfl := Option.some.inj h
    exact .inr ⟨by simp, fun _ he => he⟩
  | remove fd =>
    obtain rfl := Option.some.inj h
    exact .inr ⟨by simp, fun _ he => he⟩
  | openFd fd pollable =>
    obtain ⟨k, -, rfl⟩ := Option.map_eq_some_iff.1 h
    exact .inr ⟨by simp, fun _ he => he⟩
  | close fd =>
    obtain rfl := Option.some.inj h
    exact .inr ⟨by simp, fun _ he => he⟩
  | wait events =>
    simp only [step] at h
    split at h
    · next hc =>
      obtain rfl := Option.some.inj h
      exact .inl ⟨rfl, rfl, hc.2.2.2⟩
    · cases h
  | dispatch =>
    simp only [step] at h
    split at h
    · cases h
    · next e batch hb =>
      obtain rfl := Option.some.inj h
      refine .inr ⟨by simp, ?_⟩
      intro e' he'
      rw [hb]
      exact List.mem_cons_of_mem _ he'

/-- In the run `acts` the latest `epoll_wait` has reported `e`, and when `removed` holds, the descriptor of `e` has been
removed since. -/
def Reported (acts : List (Action H)) (e : Event) (removed : Prop) : Prop :=
  ∃ pre events mid, acts = pre ++ .wait events :: mid ∧ (∀ events', .wait events' ∉ mid) ∧ e ∈ events ∧
    (removed → .remove e.fd ∈ mid)

/-- **The invariant of the dispatch loop**: an event of the batch that would find no handler has lost it by a removal
since it was reported. -/
theorem reported_of_mem_batch {kernel : Kernel} {s : State H} {acts : List (Action H)}
    (h : Runs Steps (State.construct kernel) acts s) : ∀ e ∈ s.batch, Reported acts e (s.find e = none) := by
  refine h.induction_history (Q := fun acts s => ∀ e ∈ s.batch, Reported acts e (s.find e = none)) ?_ ?_
  · intro e he
    exact absurd he (by simp [State.construct, State.init])
  · intro acts t a u hrun ih hst e he
    rcases batch_step hst with ⟨ha, hmap, hwatched⟩ | ⟨ha, hbatch⟩
    · refine ⟨acts, u.batch, [], by rw [ha], by simp, he, ?_⟩
      intro hnone
      rw [State.find, hmap] at hnone
      exact absurd hnone (registered_run hrun e.fd (hwatched e he))
    · obtain ⟨pre, events, mid, rfl, hmid, hmem, hrem⟩ := ih e (hbatch e he)
      refine ⟨pre, events, mid ++ [a], by simp, fun events' => ?_, hmem, fun hnone => ?_⟩
      · simpa [hmid events'] using fun e => ha events' e.symm
      · rcases fdHandlerMap_step hst e.fd with hsame | ⟨rfl, -⟩ | ⟨mode, handler, -, -, hsome⟩
        · rw [State.find, hsame] at hnone
          exact List.mem_append_left _ (hrem hnone)
        · simp
        · rw [State.find, hsome] at hnone
          cases hnone

/-- A removed descriptor has no handler until it is added again. -/
theorem fdHandlerMap_removed {s s' : State H} {fd : ℤ} {acts : List (Action H)} (h : Runs Steps s acts s')
    (hadd : ∀ mode handler, .add fd mode handler ∉ acts) (hs : s.fdHandlerMap fd = none) :
    s'.fdHandlerMap fd = none := by
  refine h.induction_along (P := fun s => s.fdHandlerMap fd = none)
    (C := fun _ a => ∀ mode handler, a ≠ .add fd mode handler) (fun s a t hs ha hst => ?_) hs
    (.of_forall fun a ha _ mode handler e => hadd mode handler (e ▸ ha))
  rcases fdHandlerMap_step hst fd with he | ⟨-, he⟩ | ⟨mode, handler, he, -⟩
  · rw [he, hs]
  · exact he
  · exact absurd he (ha mode handler)

/-! ### Dispatch -/

/-- The next turn of the dispatch loop calls the handler for the event. -/
def Handles (s : State H) (e : Event) (handler : H) : Prop := s.batch.head? = some e ∧ s.find e = some handler

/-- The next turn of the dispatch loop finds no handler for the event. -/
def Skips (s : State H) (e : Event) : Prop := s.batch.head? = some e ∧ s.find e = none

/-- **Dispatch is sound across a batch.**  In every run of the loop no handler is called for a descriptor that has been
removed and not added again; and an event is skipped only when its descriptor has been removed since the `epoll_wait`
that reported it. -/
theorem dispatch_sound {kernel : Kernel} {s : State H} {acts : List (Action H)}
    (h : Runs Steps (State.construct kernel) acts s) :
    (∀ pre fd mid, acts = pre ++ .remove fd :: mid → (∀ mode handler, .add fd mode handler ∉ mid) →
      ∀ e handler, e.fd = fd → ¬ Handles s e handler) ∧
    ∀ e, Skips s e → ∃ pre events mid, acts = pre ++ .wait events :: mid ∧ (∀ events', .wait events' ∉ mid) ∧
      e ∈ events ∧ .remove e.fd ∈ mid := by
  constructor
  · rintro pre fd mid rfl hadd e handler rfl ⟨-, hfind⟩
    obtain ⟨t, -, ht⟩ := runs_append.1 h
    obtain ⟨u, hrem, hu⟩ := runs_cons.1 ht
    obtain rfl := Option.some.inj hrem
    have hnone := fdHandlerMap_removed hu hadd (by simp [State.remove])
    rw [State.find, hnone] at hfind
    cases hfind
  · rintro e ⟨hhead, hnone⟩
    obtain ⟨pre, events, mid, hacts, hmid, hmem, hrem⟩ := reported_of_mem_batch h e (List.mem_of_mem_head? hhead)
    exact ⟨pre, events, mid, hacts, hmid, hmem, hrem hnone⟩

/-- The handler of 5 removes 6, whose event waits in the same batch. -/
def removedInBatch : List (Action ℕ) :=
  [.openFd 5 true, .openFd 6 true, .add 5 1 0, .add 6 1 1, .wait [⟨1, 5⟩, ⟨1, 6⟩], .dispatch, .remove 6]

theorem dispatch_sound_removedInBatch : ∃ s, Runs Steps (State.construct Kernel.fresh) removedInBatch s ∧
    Skips s ⟨1, 6⟩ ∧ (∀ handler, ¬ Handles s ⟨1, 6⟩ handler) ∧
    ∃ pre events mid, removedInBatch = pre ++ .wait events :: mid ∧ (∀ events', .wait events' ∉ mid) ∧
      ⟨1, 6⟩ ∈ events ∧ .remove 6 ∈ mid := by
  obtain ⟨s, hrun, hskip⟩ : ∃ s, Runs Steps (State.construct Kernel.fresh) removedInBatch s ∧ Skips s ⟨1, 6⟩ :=
    ⟨_, .cons rfl (.cons rfl (.cons rfl (.cons rfl (.cons rfl (.cons rfl (.cons rfl .nil)))))), rfl, rfl⟩
  obtain ⟨hremoved, hskipped⟩ := dispatch_sound hrun
  refine ⟨s, hrun, hskip, fun handler => ?_, hskipped _ hskip⟩
  exact hremoved (removedInBatch.take 6) 6 [] rfl (by simp) _ handler rfl

end Shadowc.EventLoop
