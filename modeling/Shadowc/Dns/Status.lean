import Shadowc.Dns.Accounting
import Shadowc.Lib.Transition

/-!
# The status of a host name

`resolve` enters a host name in both maps, `call_callback` takes it out of `hostname_status_map` and leaves it in
`hostname_to_cb` with an empty list.  From then on `resolve` finds it there, and takes the branch that enters no status:
a callback is pending for a name without one.

`statusKept_resolve` says when a call of `resolve` keeps the two maps in step, and `status_kept_iff` when all calls of a
run do.
-/

namespace Shadowc.Dns.Resolver

open Lib Reading Transition

variable {Cb : Type}

/-- A host name has a status as long as a callback is pending for it. -/
def StatusKept (s : Resolver Cb) : Prop := ∀ h, s.hostnameStatusMap h ≠ none ↔ s.pending h ≠ []

/-- A call of `resolve`, or a reply that is delivered, with whatever memory the resolver finds. -/
def Acts (s : Resolver Cb) (act : Action Cb) (s' : Resolver Cb) : Prop :=
  ∃ env calls, History.plainStep env (s, []) act = .ok (s', calls)

/-- `resolve` finds no entry for its host name, or one that is in use. -/
def FindsNoneEmptied (s : Resolver Cb) : Action Cb → Prop
  | .resolve hostname _ => s.hostnameToCb hostname ≠ some []
  | .deliver _ => True

/-! ### What the operations do to the status -/

theorem hostnameStatusMap_resolve (env : Env) (s : Resolver Cb) (hostname : Host) (cb : Cb) :
    (s.resolve env hostname cb).1.hostnameStatusMap =
      if s.hostnameToCb hostname = none then Function.update s.hostnameStatusMap hostname (some statusFirst)
      else s.hostnameStatusMap := by
  unfold resolve
  cases s.hostnameToCb hostname <;> rfl

theorem hostnameStatusMap_callCallback (s : Resolver Cb) (hostname : Host) (ip : String) :
    (s.callCallback hostname ip).1.hostnameStatusMap =
      if s.hostnameToCb hostname = none then s.hostnameStatusMap
      else Function.update s.hostnameStatusMap hostname none := by
  unfold callCallback
  cases s.hostnameToCb hostname <;> rfl

/-- What a step can be. -/
theorem acts_cases {s s' : Resolver Cb} {act : Action Cb} (h : s.Acts act s') :
    (∃ env hostname cb, act = .resolve hostname cb ∧ s' = (s.resolve env hostname cb).1) ∨
    (∃ data, act = .deliver data ∧ (s' = s ∨ ∃ hostname ip, s' = (s.callCallback hostname ip).1)) := by
  obtain ⟨env, calls, h⟩ := h
  cases act with
  | resolve hostname cb => exact .inl ⟨env, hostname, cb, rfl, (congrArg Prod.fst (Except.ok.inj h)).symm⟩
  | deliver data =>
    obtain ⟨⟨s₁, calls₁⟩, hd, h⟩ := bind_eq_ok.1 h
    obtain rfl : s₁ = s' := congrArg Prod.fst (Except.ok.inj h)
    obtain ⟨answers, -, ⟨-, hs, -⟩ | ⟨hostname, ip, -, hs, -⟩⟩ := handleData_cases hd
    · exact .inr ⟨data, rfl, .inl hs⟩
    · exact .inr ⟨data, rfl, .inr ⟨hostname, ip, hs⟩⟩

/-- **A call of `resolve` keeps the maps in step** unless a reply has emptied the list of its host name. -/
theorem statusKept_resolve {s : Resolver Cb} (hs : s.StatusKept) (env : Env) (hostname : Host) (cb : Cb) :
    (s.resolve env hostname cb).1.StatusKept ↔ s.hostnameToCb hostname ≠ some [] := by
  constructor
  · intro hs' hempty
    have hnone : s.hostnameStatusMap hostname = none := by
      by_contra hne
      exact (hs hostname).1 hne (by simp [pending, hempty])
    have hstatus : (s.resolve env hostname cb).1.hostnameStatusMap hostname ≠ none := by
      apply (hs' hostname).2
      rw [pending_resolve, if_pos rfl]
      simp
    rw [hostnameStatusMap_resolve, if_neg (by simp [hempty])] at hstatus
    exact hstatus hnone
  · intro hne h
    rw [pending_resolve, hostnameStatusMap_resolve]
    by_cases hh : h = hostname
    · subst hh
      cases hm : s.hostnameToCb h with
      | none => simp
      | some cbs =>
        have hcbs : s.pending h ≠ [] := by
          simp only [pending, hm, Option.getD_some]
          rintro rfl
          exact hne hm
        simpa using (hs h).2 hcbs
    · have hstatus := hs h
      split <;> simpa [hh] using hstatus

/-- A reply takes away the status together with the callbacks. -/
theorem statusKept_callCallback {s : Resolver Cb} (hs : s.StatusKept) (hostname : Host) (ip : String) :
    (s.callCallback hostname ip).1.StatusKept := by
  intro h
  rw [pending_callCallback, hostnameStatusMap_callCallback]
  by_cases hh : h = hostname
  · subst hh
    cases hm : s.hostnameToCb h with
    | none => simpa [pending, hm] using hs h
    | some cbs => simp
  · have hstatus := hs h
    split <;> simpa [hh] using hstatus

theorem statusKept_step {s s' : Resolver Cb} {act : Action Cb} (hs : s.StatusKept) (h : s.Acts act s') :
    s'.StatusKept ↔ s.FindsNoneEmptied act := by
  rcases acts_cases h with ⟨env, hostname, cb, rfl, rfl⟩ | ⟨data, rfl, rfl | ⟨hostname, ip, rfl⟩⟩
  · exact statusKept_resolve hs env hostname cb
  · exact iff_of_true hs trivial
  · exact iff_of_true (statusKept_callCallback hs hostname ip) trivial

/-- **When the status bookkeeping holds.**  Along every run of calls of `resolve` and delivered replies, in all states
that are reached the names with a status are those with a pending callback, exactly when no call of `resolve` is for a
name whose list a reply has emptied before. -/
theorem status_kept_iff (acts : List (Action Cb)) :
    (∀ pre post s, acts = pre ++ post → Runs Acts init pre s → s.StatusKept) ↔
      Along Acts FindsNoneEmptied init acts := by
  refine forall_reached_iff (I := fun _ => True) (fun _ _ _ _ _ => trivial) ?_ ?_ trivial ?_ acts
  · intro s act s' _ hs h
    exact statusKept_step hs h
  · intro s act hnot
    cases act with
    | resolve hostname cb => exact ⟨_, .zero, _, rfl⟩
    | deliver data => exact absurd trivial hnot
  · intro h
    simp [init, pending]

/-- `resolve("a", cb)`, a reply for `a`, and `resolve("a", cb)` again. -/
def askedTwice : List (Action Unit) := [.resolve [97] (), .deliver directReply.msg, .resolve [97] ()]

/-- The second callback is pending, and there is no status. -/
theorem status_lost : ∃ s : Resolver Unit, Runs Acts init askedTwice s ∧ s.pending [97] = [()] ∧
    s.hostnameStatusMap [97] = none ∧ ¬ s.StatusKept := by
  let answered : Resolver Unit := (askedForA.callCallback [97] "192.0.2.1").1
  let again : Resolver Unit := (answered.resolve .zero [97] ()).1
  have hreply := handleData_response .zero askedForA directReply
  have hrun : Runs Acts init askedTwice again := by
    apply Runs.cons (t := askedForA)
    · exact ⟨.zero, _, rfl⟩
    apply Runs.cons (t := answered)
    · exact ⟨.zero, _, bind_eq_ok.2 ⟨_, hreply, rfl⟩⟩
    apply Runs.cons (t := again) _ .nil
    exact ⟨.zero, _, rfl⟩
  have hpending : again.pending [97] = [()] := by decide
  have hstatus : again.hostnameStatusMap [97] = none := by decide
  refine ⟨again, hrun, hpending, hstatus, ?_⟩
  intro hkept
  exact (hkept [97]).2 (by simp [hpending]) hstatus

end Shadowc.Dns.Resolver
