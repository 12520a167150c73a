import Shadowc.EventLoop.Model

/-!
# Who gets the events of a descriptor

A successful `add(fd, mode, handler)` should hand the events of `fd` to `handler` until the descriptor is removed or
closed.  Between the two, `fd` stays in the epoll set and every further `add` of it fails (`add_fails_in_window`), so
that the map keeps the entry it had after the `add` (`fdHandlerMap_window`).  That entry is the handler exactly when
the map held no other before: `insert` does not overwrite, and neither a failed `add` nor a `close` takes an entry
back out.
-/

namespace Shadowc.EventLoop

open Lib Transition

variable {H : Type}

/-- The steps of the loop, as a relation. -/
def Steps (s : State H) (a : Action H) (s' : State H) : Prop := step s a = some s'

/-- `EPOLL_CTL_ADD` succeeds. -/
def Added (s : State H) (fd : ℤ) (mode : ℕ) : Prop := (s.kernel.epollCtlAdd fd mode).isSome = true

instance (s : State H) (fd : ℤ) (mode : ℕ) : Decidable (Added s fd mode) := by unfold Added; infer_instance

/-- The actions neither remove nor close the descriptor. -/
def Window (fd : ℤ) (acts : List (Action H)) : Prop := ∀ a ∈ acts, a ≠ .remove fd ∧ a ≠ .close fd

/-! ### Between an addition and the removal -/

theorem watched_add {s : State H} {fd : ℤ} {mode : ℕ} (h : Added s fd mode) (handler : H) :
    (s.add fd mode handler).kernel.watched fd = some mode := by
  unfold Added Kernel.epollCtlAdd at h
  split at h
  · next hc => simp [State.add, Kernel.epollCtlAdd, hc]
  · cases h

/-- Only its removal and its closing take a descriptor out of the epoll set. -/
theorem watched_window {s s' : State H} {fd : ℤ} {acts : List (Action H)} (h : Runs Steps s acts s')
    (hw : Window fd acts) (hs : s.kernel.watched fd ≠ none) : s'.kernel.watched fd ≠ none := by
  refine h.induction_along (P := fun s => s.kernel.watched fd ≠ none) (C := fun _ a => a ≠ .remove fd ∧ a ≠ .close fd)
    (fun s a t hs ha hst => ?_) hs (.of_forall fun a ha _ => hw a ha)
  rcases watched_step hst fd with he | ⟨hr | hc, -⟩ | ⟨mode, handler, -, hnone, -⟩
  · rw [he]
    exact hs
  · exact absurd hr ha.1
  · exact absurd hc ha.2
  · exact absurd hnone hs

/-- As long as the descriptor is neither removed nor closed, no further addition of it succeeds. -/
theorem add_fails_in_window {s s' : State H} {fd : ℤ} {mode : ℕ} {handler : H} {acts : List (Action H)}
    (hadd : Added s fd mode) (hw : Window fd acts) (h : Runs Steps (s.add fd mode handler) acts s') (mode' : ℕ) :
    ¬ Added s' fd mode' := by
  have hs := watched_window h hw (by rw [watched_add hadd]; simp)
  simp [Added, Kernel.epollCtlAdd, hs]

/-- An entry of the map stays until its descriptor is removed. -/
theorem fdHandlerMap_window {s s' : State H} {fd : ℤ} {handler : H} {acts : List (Action H)} (h : Runs Steps s acts s')
    (hw : Window fd acts) (hs : s.fdHandlerMap fd = some handler) : s'.fdHandlerMap fd = some handler := by
  refine h.induction_along (P := fun s => s.fdHandlerMap fd = some handler)
    (C := fun _ a => a ≠ .remove fd ∧ a ≠ .close fd) (fun s a t hs ha hst => ?_) hs (.of_forall fun a ha _ => hw a ha)
  rcases fdHandlerMap_step hst fd with he | ⟨hr, -⟩ | ⟨mode, handler', -, hnone, -⟩
  · rw [he, hs]
  · exact absurd hr ha.1
  · rw [hs] at hnone
    cases hnone

/-! ### The next event -/

/-- The rest of the batch can be used up. -/
theorem drain (s : State H) : Runs Steps s (List.replicate s.batch.length .dispatch) { s with batch := [] } := by
  obtain ⟨kernel, m, batch⟩ := s
  induction batch with
  | nil => exact .nil
  | cons e batch ih => exact .cons rfl ih

/-- An event of a watched descriptor may come next. -/
theorem next_event {s : State H} {fd : ℤ} (hs : s.kernel.watched fd ≠ none) (events : ℕ) :
    ∃ acts s', Window fd acts ∧ Runs Steps s acts s' ∧ s'.batch = [⟨events, fd⟩] ∧
      s'.fdHandlerMap = s.fdHandlerMap := by
  refine ⟨List.replicate s.batch.length .dispatch ++ [.wait [⟨events, fd⟩]], { s with batch := [⟨events, fd⟩] }, ?_,
    (drain s).snoc ?_, rfl, rfl⟩
  · intro a ha
    rcases List.mem_append.1 ha with ha | ha
    · obtain rfl := (List.mem_replicate.1 ha).2
      exact ⟨by simp, by simp⟩
    · obtain rfl := List.mem_singleton.1 ha
      exact ⟨by simp, by simp⟩
  · simp [Steps, step, hs, maxEvents]

/-! ### Ownership -/

/-- In the run `acts` from `s`, every event of a descriptor that is dispatched after a successful addition of it, and
before it is removed or closed, goes to the handler that was added. -/
def Owned (s : State H) (acts : List (Action H)) : Prop :=
  ∀ pre fd mode handler mid post s₁ s₂ e, acts = pre ++ .add fd mode handler :: (mid ++ .dispatch :: post) →
    Runs Steps s pre s₁ → Added s₁ fd mode → Window fd mid → Runs Steps (s₁.add fd mode handler) mid s₂ →
    s₂.batch.head? = some e → e.fd = fd → s₂.find e = some handler

/-- A successful addition finds no entry in the map, or the handler that is added. -/
def FindsFree (s : State H) : Action H → Prop
  | .add fd mode handler => Added s fd mode → s.fdHandlerMap fd = none ∨ s.fdHandlerMap fd = some handler
  | _ => True

/-- **When an addition owns its descriptor**: whatever the state, the events that follow a successful `add` go to its
handler exactly when `fd_handler_map` held no other handler for the descriptor before. -/
theorem add_owns_iff (s : State H) {fd : ℤ} {mode : ℕ} {handler : H} (hadd : Added s fd mode) :
    (∀ mid s₂ e, Window fd mid → Runs Steps (s.add fd mode handler) mid s₂ → s₂.batch.head? = some e → e.fd = fd →
      s₂.find e = some handler) ↔ s.fdHandlerMap fd = none ∨ s.fdHandlerMap fd = some handler := by
  have hentry : (s.add fd mode handler).fdHandlerMap fd = some ((s.fdHandlerMap fd).getD handler) := insert_self ..
  constructor
  · intro h
    have hwatched : (s.add fd mode handler).kernel.watched fd ≠ none := by rw [watched_add hadd]; simp
    obtain ⟨mid, s₂, hw, hrun, hbatch, hmap⟩ :=
      next_event hwatched 1
    have hfind := h mid s₂ ⟨1, fd⟩ hw hrun (by rw [hbatch]; rfl) rfl
    rw [State.find, hmap, hentry] at hfind
    cases hm : s.fdHandlerMap fd with
    | none => exact .inl rfl
    | some h' => exact .inr (by simpa [hm] using hfind)
  · intro hfree mid s₂ e hw hrun _ he
    have hown : (s.add fd mode handler).fdHandlerMap fd = some handler := by
      rw [hentry]
      rcases hfree with hm | hm <;> rw [hm] <;> rfl
    rw [State.find, he]
    exact fdHandlerMap_window hrun hw hown

/-- **The latest successful registration owns the events**, along every run in which each successful addition finds
the map free of other handlers for its descriptor; and each addition that does not find it so loses an event that may
come next. -/
theorem latest_add_owns (kernel : Kernel) (acts : List (Action H)) :
    (Along Steps FindsFree (State.init kernel) acts → Owned (State.init kernel) acts) ∧
    ∀ (pre : List (Action H)) (s : State H) (fd : ℤ) (mode : ℕ) (handler : H), Runs Steps (State.init kernel) pre s →
      Added s fd mode →
      ((∀ mid s₂ e, Window fd mid → Runs Steps (s.add fd mode handler) mid s₂ → s₂.batch.head? = some e → e.fd = fd →
        s₂.find e = some handler) ↔ s.fdHandlerMap fd = none ∨ s.fdHandlerMap fd = some handler) := by
  refine ⟨fun hfree pre fd mode handler mid post s₁ s₂ e hacts hpre hadd hw hmid hhead he => ?_,
    fun pre s fd mode handler _ hadd => add_owns_iff s hadd⟩
  have hfind : FindsFree s₁ (.add fd mode handler) := hfree pre _ _ s₁ hacts hpre
  exact (add_owns_iff s₁ hadd).2 (hfind hadd) mid s₂ e hw hmid hhead he

/-- A handler 0 that removes its descriptor before it closes it, and a handler 1 whose descriptor gets the same
number. -/
def removed : List (Action ℕ) :=
  [.openFd 5 true, .add 5 1 0, .remove 5, .close 5, .openFd 5 true, .add 5 1 1, .wait [⟨1, 5⟩], .dispatch]

/-- The second handler owns the descriptor. -/
theorem latest_add_owns_removed : Owned (State.init Kernel.fresh) removed ∧
    ∃ s, Runs Steps (State.init Kernel.fresh) (removed.take 5) s ∧
      ∀ mid s₂ e, Window 5 mid → Runs Steps (s.add 5 1 1) mid s₂ → s₂.batch.head? = some e → e.fd = 5 →
        s₂.find e = some 1 := by
  have hpre : Runs Steps (State.init Kernel.fresh) (removed.take 5) _ :=
    .cons rfl (.cons rfl (.cons rfl (.cons rfl (.cons rfl .nil))))
  refine ⟨(latest_add_owns Kernel.fresh removed).1 ?_, _, hpre, ?_⟩
  · refine .cons trivial ?_
    intro s hs
    obtain rfl := Option.some.inj hs
    refine .cons (fun _ => .inl rfl) fun s hs => ?_
    obtain rfl := Option.some.inj hs
    refine .cons trivial ?_
    intro s hs
    obtain rfl := Option.some.inj hs
    refine .cons trivial ?_
    intro s hs
    obtain rfl := Option.some.inj hs
    refine .cons trivial ?_
    intro s hs
    obtain rfl := Option.some.inj hs
    refine .cons (fun _ => .inl rfl) fun s hs => ?_
    exact .cons trivial fun s _ => .cons trivial fun s _ => along_nil s
  · exact ((latest_add_owns Kernel.fresh removed).2 (removed.take 5) _ 5 1 1 hpre (by decide)).2 (.inl rfl)

/-! ### A descriptor that is closed without being removed -/

/-- A handler 0 that has closed its descriptor upon an error, as the resolver does, and a handler 1 whose descriptor
gets the same number. -/
def reuse : List (Action ℕ) :=
  [.openFd 5 true, .add 5 1 0, .wait [⟨8, 5⟩], .dispatch, .close 5, .openFd 5 true, .add 5 1 1, .wait [⟨1, 5⟩],
    .dispatch]

/-- The event of the second descriptor goes to the handler of the first. -/
theorem reuse_not_owned : ¬ Owned (State.init Kernel.fresh) reuse := by
  intro h
  have hpre : Runs Steps (State.init Kernel.fresh) (reuse.take 6) _ :=
    .cons rfl (.cons rfl (.cons rfl (.cons rfl (.cons rfl (.cons rfl .nil)))))
  have hfind := h (reuse.take 6) 5 1 1 [.wait [⟨1, 5⟩]] [] _ _ ⟨1, 5⟩ rfl hpre (by decide)
    (by simp [Window]) (.cons rfl .nil) rfl rfl
  revert hfind
  decide

end Shadowc.EventLoop
