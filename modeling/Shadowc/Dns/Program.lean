import Shadowc.Dns.Accounting
import Shadowc.Dns.Events
import Shadowc.EventLoop.Run

/-!
# The resolver in the running loop

The whole program: a resolver and a loop are constructed, `add_to_loop` registers the one with the other, `resolve` is
called for some hostnames, and `run` takes over.  Everything that happens from then on `run` does, with the answers of
`epoll_wait` and of `recvfrom`.

The program refines the history of its resolver (`Boot.history`), so its callbacks are accounted for:
`program_accounts`.  Nothing but the resolver's socket is ever watched (`Boot.watched`); an error event closes it, and
the loop waits forever with what is pending then: `error_silences`.
-/

namespace Shadowc.Dns

open Lib Reading Transition EventLoop

variable {Cb : Type}

/-! ### The resolver and its socket -/

namespace Resolver

/-- The resolver in the loop at address `loop`, with the socket `fd`. -/
def attach (s : Resolver Cb) (loop : ℕ) (fd : ℤ) : Resolver Cb := { s with loop := some loop, dnsSocket := fd }

/-- A resolver has the same callbacks pending whatever its socket is. -/
theorem resolve_attach (env : Env) (s : Resolver Cb) (loop : ℕ) (fd : ℤ) (hostname : Host) (cb : Cb) :
    ((s.attach loop fd).resolve env hostname cb).1 = (s.resolve env hostname cb).1.attach loop fd := by
  unfold resolve
  cases hm : s.hostnameToCb hostname <;> simp only [attach, hm] <;> rfl

theorem callCallback_attach (s : Resolver Cb) (loop : ℕ) (fd : ℤ) (hostname : Host) (ip : String) :
    (s.attach loop fd).callCallback hostname ip =
      ((s.callCallback hostname ip).1.attach loop fd, (s.callCallback hostname ip).2) := by
  unfold callCallback
  cases hm : s.hostnameToCb hostname <;> simp only [attach, hm]

/-- And it makes the same calls. -/
theorem handleData_attach (env : Env) (s : Resolver Cb) (loop : ℕ) (fd : ℤ) (data : List UInt8) :
    (s.attach loop fd).handleData env data =
      (s.handleData env data).map fun r => (r.1.attach loop fd, r.2) := by
  unfold handleData
  cases parseResponse env.heap data with
  | error e => rfl
  | ok answers =>
    simp only [Bind.bind, Except.bind]
    cases firstAddress env.heap data answers with
    | error e => rfl
    | ok first =>
      cases first with
      | none => rfl
      | some p => exact congrArg Except.ok (callCallback_attach s loop fd p.1 p.2)

end Resolver

/-! ### The program -/

/-- The resolver, the calls it has made and the buffers that `handle_data` has been given. -/
structure Serving (Cb : Type) where
  resolver : Resolver Cb
  calls : List (Invocation Cb)
  delivered : List (List UInt8)
  /-- How often `handle_event` has been called. -/
  events : ℕ

namespace Serving

/-- `handle_event` for an event, with what `recvfrom` gives back if it is called. -/
def handleEvent (env : Env) (t : Serving Cb) (e : Event) (received : Received) : Run (Serving Cb × Option ℤ) := do
  let (resolver, calls, closed) ← t.resolver.handleEvent env e received
  let delivered := if t.resolver.Reads e then t.delivered ++ [received.buf] else t.delivered
  return ({ resolver, calls := t.calls ++ calls, delivered, events := t.events + 1 }, closed)

/-- The resolver as the handler of its socket.  `recv n` is what `recvfrom` gives back in the `n`-th call of
`handle_event`. -/
def handlers (env : Env) (recv : ℕ → Received) : Handlers Unit (Serving Cb) where
  handleEvent _ e p :=
    match p.own.handleEvent env e (recv p.own.events) with
    | .error _ => none
    | .ok (own, closed) => some { p with kernel := closed.elim p.kernel p.kernel.close, own }
  operations _ e p :=
    match p.own.handleEvent env e (recv p.own.events) with
    | .error _ => []
    | .ok (_, closed) => (closed.map .close).toList
  operation := by
    intro _ e p a ha
    split at ha
    · simp at ha
    · next closed _ =>
      cases closed with
      | none => simp at ha
      | some fd =>
        obtain rfl : a = .close fd := by simpa using ha
        trivial
  performs := by
    intro _ e p p' h batch
    split at h
    · cases h
    · next own closed _ =>
      cases h
      cases closed with
      | none => exact .nil
      | some fd => exact .cons rfl .nil

/-- The calls of `resolve` before the loop runs. -/
def resolveAll (env : Env) (s : Resolver Cb) (registrations : List (Host × Cb)) : Resolver Cb :=
  registrations.foldl (fun s r => (s.resolve env r.1 r.2).1) s

/-- The program when `run` is called. -/
def booted (s : Resolver Cb) (l : State Unit) : Process Unit (Serving Cb) where
  kernel := l.kernel
  fdHandlerMap := l.fdHandlerMap
  own := { resolver := s, calls := [], delivered := [], events := 0 }

/-- What the resolver has gone through. -/
def acts (registrations : List (Host × Cb)) (t : Serving Cb) : List (Action Cb) :=
  registrations.map (fun r => .resolve r.1 r.2) ++ t.delivered.map .deliver

/-- An error event closes the socket; for any other event of it `handle_data` gets the buffer. -/
theorem handlers_cases {env : Env} {recv : ℕ → Received} {u : Unit} {e : Event} {p p' : Process Unit (Serving Cb)}
    (hfd : p.own.resolver.dnsSocket = e.fd) (h : (handlers env recv).handleEvent u e p = some p') :
    (e.events &&& epollErr ≠ 0 ∧ p' = { p with
      kernel := p.kernel.close e.fd, own := { p.own with events := p.own.events + 1 } }) ∨
    (e.events &&& epollErr = 0 ∧ ∃ s calls, p.own.resolver.handleData env (recv p.own.events).buf = .ok (s, calls) ∧
      p' = { p with own := {
        resolver := s, calls := p.own.calls ++ calls
        delivered := p.own.delivered ++ [(recv p.own.events).buf], events := p.own.events + 1 } }) := by
  simp only [handlers, handleEvent, Resolver.handleEvent, Resolver.Reads, hfd, ne_eq, not_true_eq_false, if_false] at h
  by_cases he : e.events &&& epollErr = 0
  · refine .inr ⟨he, ?_⟩
    simp only [he, not_true_eq_false, if_false, and_self, if_true] at h
    cases hd : p.own.resolver.handleData env (recv p.own.events).buf with
    | error err => simp [hd, Bind.bind, Except.bind] at h
    | ok r =>
      simp only [hd, Bind.bind, Except.bind, pure, Except.pure, Option.some.injEq] at h
      exact ⟨r.1, r.2, rfl, h.symm⟩
  · refine .inl ⟨he, ?_⟩
    simp only [he, not_false_eq_true, if_true, and_false, if_false, Bind.bind, Except.bind, pure, Except.pure,
      Option.some.injEq, List.append_nil] at h
    exact h.symm

/-! ### What every run of the program keeps -/

section Boot

variable {env : Env} {recv : ℕ → Received} {registrations : List (Host × Cb)} {loop : ℕ} {fd : ℤ}

/-- The resolver has gone through the registrations and the buffers, and its socket is the only descriptor that is
registered or watched. -/
structure Boot (env : Env) (registrations : List (Host × Cb)) (loop : ℕ) (fd : ℤ)
    (p : Process Unit (Serving Cb)) : Prop where
  follows : ∃ s, (acts registrations p.own).foldlM (History.plainStep env) (Resolver.init, []) = .ok (s, p.own.calls) ∧
    p.own.resolver = s.attach loop fd
  handler : p.fdHandlerMap fd = some ()
  only : ∀ fd', p.fdHandlerMap fd' ≠ none → fd' = fd
  watched : ∀ fd', p.kernel.watched fd' ≠ none → fd' = fd

theorem foldlM_resolve (env : Env) (registrations : List (Host × Cb)) (s : Resolver Cb)
    (calls : List (Invocation Cb)) :
    (registrations.map fun r => Action.resolve r.1 r.2).foldlM (History.plainStep env) (s, calls) =
      .ok (resolveAll env s registrations, calls) := by
  induction registrations generalizing s with
  | nil => rfl
  | cons r registrations ih => exact ih (s.resolve env r.1 r.2).1

theorem resolveAll_attach (env : Env) (registrations : List (Host × Cb)) (s : Resolver Cb) (loop : ℕ) (fd : ℤ) :
    resolveAll env (s.attach loop fd) registrations = (resolveAll env s registrations).attach loop fd := by
  induction registrations generalizing s with
  | nil => rfl
  | cons r registrations ih =>
    simp only [resolveAll, List.foldl_cons] at ih ⊢
    rw [Resolver.resolve_attach, ih]

/-- The new socket is the only descriptor that `add_to_loop` registers. -/
theorem addToLoop_new {k : Kernel} {s : Resolver Cb} {l : State Unit}
    (h : Resolver.init.addToLoop (State.construct k) loop () fd = some (s, l)) :
    s = Resolver.init.attach loop fd ∧ l.fdHandlerMap fd = some () ∧
      (∀ fd', l.fdHandlerMap fd' ≠ none → fd' = fd) ∧ ∀ fd', l.kernel.watched fd' ≠ none → fd' = fd := by
  obtain ⟨⟨s₁, k₁⟩, hopen, hadd⟩ := Option.map_eq_some_iff.1 h
  obtain ⟨k₂, hk, heq⟩ := Option.map_eq_some_iff.1 hopen
  obtain ⟨rfl, rfl⟩ := Prod.mk.inj heq
  obtain ⟨rfl, rfl⟩ := Prod.mk.inj hadd
  have hnone : k₂.watched = fun _ => none := by
    unfold Kernel.openFd at hk
    split at hk
    · cases hk
    · obtain rfl := Option.some.inj hk
      rfl
  refine ⟨rfl, by simp [State.add, insert_self], fun fd' hm => ?_, fun fd' hw => ?_⟩
  · by_contra hne
    refine hm ?_
    simp only [State.add]
    rw [insert_of_ne _ hne]
    rfl
  · by_contra hne
    refine hw ?_
    simp only [State.add, Kernel.epollCtlAdd]
    split
    · simp [hnone, hne]
    · simp [hnone]

theorem boot {k : Kernel} {s : Resolver Cb} {l : State Unit}
    (h : Resolver.init.addToLoop (State.construct k) loop () fd = some (s, l)) :
    Boot env registrations loop fd (booted (resolveAll env s registrations) l) := by
  obtain ⟨rfl, hhandler, honly, hwatched⟩ := addToLoop_new h
  refine ⟨⟨resolveAll env .init registrations, ?_, ?_⟩, hhandler, honly, hwatched⟩
  · rw [acts]
    simp only [booted, List.map_nil, List.append_nil]
    exact foldlM_resolve env registrations _ _
  · exact resolveAll_attach env registrations .init loop fd

theorem Boot.dnsSocket {p : Process Unit (Serving Cb)} (hb : Boot env registrations loop fd p) :
    p.own.resolver.dnsSocket = fd := by
  obtain ⟨s, -, hs⟩ := hb.follows
  rw [hs]
  rfl

/-- Each call of `handle_event` is a delivery, or none. -/
theorem Boot.handle {p p' : Process Unit (Serving Cb)} {u : Unit} {e : Event}
    (hb : Boot env registrations loop fd p) (hm : p.fdHandlerMap e.fd = some u)
    (h : (handlers env recv).handleEvent u e p = some p') : Boot env registrations loop fd p' := by
  have hfd : e.fd = fd := hb.only e.fd (by simp [hm])
  obtain ⟨s, hs, hattach⟩ := hb.follows
  rcases handlers_cases (hb.dnsSocket.trans hfd.symm) h with ⟨-, rfl⟩ | ⟨-, s', calls, hd, rfl⟩
  · refine ⟨⟨s, hs, hattach⟩, hb.handler, hb.only, fun fd' h => hb.watched fd' ?_⟩
    intro hw
    refine h ?_
    by_cases hne : fd' = e.fd <;> simp [Kernel.close, hne, hw]
  · rw [hattach, Resolver.handleData_attach] at hd
    cases hd' : s.handleData env (recv p.own.events).buf with
    | error err => simp [hd', Except.map] at hd
    | ok r =>
      simp only [hd', Except.map, Except.ok.injEq, Prod.mk.injEq] at hd
      obtain ⟨rfl, rfl⟩ := hd
      refine ⟨⟨r.1, ?_, rfl⟩, hb.handler, hb.only, hb.watched⟩
      rw [acts, List.map_append, ← List.append_assoc, List.foldlM_append, ← acts, hs]
      simp only [Bind.bind, Except.bind, List.map_cons, List.map_nil, List.foldlM_cons, List.foldlM_nil,
        History.plainStep, hd']
      rfl

theorem Boot.run {p p' : Process Unit (Serving Cb)} {answers : List Wait} {r : Option ℤ}
    (hb : Boot env registrations loop fd p) (h : EventLoop.run (handlers env recv) p answers = some (p', r)) :
    Boot env registrations loop fd p' :=
  run_induction (fun _ _ _ _ hb hm h => hb.handle hm h) hb h

/-! ### The callbacks of a run -/

/-- What is registered in a history. -/
def registered : Action Cb → Option (Host × Cb)
  | .resolve hostname cb => some (hostname, cb)
  | .deliver _ => none

theorem made_run {acts : List (Action Cb)} {t t' : History Cb} (h : t.run env acts = .ok t') :
    t'.made.map (fun r => (r.hostname, r.cb)) =
      t.made.map (fun r => (r.hostname, r.cb)) ++ acts.filterMap registered := by
  induction acts generalizing t with
  | nil =>
    cases h
    simp
  | cons act acts ih =>
    obtain ⟨t₁, hs, h⟩ := History.run_cons.1 h
    rw [ih h]
    rcases History.step_cases hs with ⟨hostname, cb, rfl, rfl⟩ | ⟨data, resolver, calls, rfl, -, rfl⟩
    · simp [registered]
    · rw [List.filterMap_cons_none rfl]

theorem registered_acts (registrations : List (Host × Cb)) (t : Serving Cb) :
    (acts registrations t).filterMap registered = registrations := by
  simp [acts, registered, List.filterMap_map, Function.comp_def]

/-- The program follows a history of its resolver. -/
theorem Boot.history {p : Process Unit (Serving Cb)} (hb : Boot env registrations loop fd p) :
    ∃ t : History Cb, History.start.run env (acts registrations p.own) = .ok t ∧
      p.own.calls = t.invoked.map (Invocation.map Registration.cb) ∧
      (∀ h, p.own.resolver.pending h = (t.resolver.pending h).map Registration.cb) ∧
      t.made.map (fun r => (r.hostname, r.cb)) = registrations := by
  obtain ⟨s, hs, hattach⟩ := hb.follows
  have huntag := History.untag_run env (acts registrations p.own) (History.start : History Cb)
  have hstart : (History.start : History Cb).untag = (Resolver.init, []) := rfl
  rw [hstart, hs] at huntag
  cases ht : (History.start : History Cb).run env (acts registrations p.own) with
  | error err => simp [ht, Except.map] at huntag
  | ok t =>
    simp only [ht, Except.map, Except.ok.injEq, History.untag, Prod.mk.injEq] at huntag
    obtain ⟨rfl, hcalls⟩ := huntag
    refine ⟨t, rfl, hcalls, fun h => ?_, ?_⟩
    · rw [hattach, ← Resolver.pending_map]
      rfl
    · rw [made_run ht, registered_acts]
      rfl

/-- **The callbacks of the program are accounted for.**  For all registrations before the loop runs, and all answers of
`epoll_wait` and `recvfrom`: the callbacks registered for a hostname are those that have been called with it, in order,
followed by those that still wait; and each call passes on an address that a received buffer holds for the hostname. -/
theorem program_accounts {k : Kernel} {s : Resolver Cb} {l : State Unit}
    (hadd : Resolver.init.addToLoop (State.construct k) loop () fd = some (s, l)) {answers : List Wait} {r : Option ℤ}
    {p : Process Unit (Serving Cb)}
    (h : EventLoop.run (handlers env recv) (booted (resolveAll env s registrations) l) answers = some (p, r)) :
    (∀ host, (registrations.filter fun r => r.1 = host).map Prod.snd =
      (p.own.calls.filter fun i => i.hostname = host).map Invocation.callback ++ p.own.resolver.pending host) ∧
    ∀ i ∈ p.own.calls, ∃ data ∈ p.own.delivered, History.HoldsAddress env data i.hostname i.ip := by
  have hboot : Boot env registrations loop fd (booted (resolveAll env s registrations) l) := boot hadd
  obtain ⟨t, ht, hcalls, hpending, hmade⟩ := (hboot.run h).history
  have hledger := History.ledger_run ht
  constructor
  · intro host
    have haccount := congrArg (List.map Registration.cb) (hledger.account host)
    rw [List.map_append, ← hpending, History.madeFor, History.invokedFor] at haccount
    rw [← hmade, hcalls, List.filter_map, List.filter_map]
    simp only [List.map_map] at haccount ⊢
    exact haccount
  · intro i hi
    rw [hcalls] at hi
    obtain ⟨j, hj, rfl⟩ := List.mem_map.1 hi
    obtain ⟨data, hd, hholds⟩ := hledger.address j hj
    refine ⟨data, ?_, hholds⟩
    rcases History.run_delivered _ ht data hd with hd | hd
    · simp [History.start] at hd
    · simpa [acts] using hd

/-- A new resolver and its loop after `add_to_loop` has opened the socket 5. -/
def addedToLoop : Resolver Unit × State Unit :=
  (Resolver.init.addToLoop (State.construct Kernel.fresh) 1 () 5).getD (.init, State.construct Kernel.fresh)

theorem addToLoop_addedToLoop :
    Resolver.init.addToLoop (State.construct Kernel.fresh) 1 () 5 = some (addedToLoop.1, addedToLoop.2) := rfl

/-- The program that has asked for `a` and for `b`. -/
def askedBoth : Process Unit (Serving Unit) :=
  booted (resolveAll .zero addedToLoop.1 [([97], ()), ([98], ())]) addedToLoop.2

/-- Each `recvfrom` gives back a reply for `a`. -/
def replies : Handlers Unit (Serving Unit) := handlers .zero fun _ => ⟨36, directReply.msg⟩

/-- A reply comes: the callback for `a` has been called, and that for `b` waits. -/
theorem program_accounts_askedBoth : ∃ p,
    EventLoop.run replies askedBoth [.events [⟨epollIn, 5⟩]] = some (p, none) ∧
    (p.own.calls.filter fun i => i.hostname = [97]).map Invocation.callback ++ p.own.resolver.pending [97] = [()] ∧
    p.own.resolver.pending [98] = [()] := by
  have hrun : EventLoop.run replies askedBoth [.events [⟨epollIn, 5⟩]] = some (_, none) := rfl
  have h := (program_accounts addToLoop_addedToLoop hrun).1 [97]
  exact ⟨_, hrun, h.symm, rfl⟩

/-! ### The end of the socket -/

/-- Nothing is watched any more. -/
def Silent (p : Process Unit (Serving Cb)) : Prop := ∀ fd, p.kernel.watched fd = none

/-- With nothing to watch `epoll_wait` reports nothing, and the process stays as it is. -/
theorem Silent.run {p p' : Process Unit (Serving Cb)} {answers : List Wait} {r : Option ℤ} (hp : Silent p)
    (ha : Answers (handlers env recv) p answers) (h : EventLoop.run (handlers env recv) p answers = some (p', r)) :
    p' = p ∧ ∀ events, .events events ∈ used answers → events = [] := by
  induction answers with
  | nil =>
    obtain ⟨rfl, -⟩ := Prod.mk.inj (Option.some.inj h)
    exact ⟨rfl, by simp [used]⟩
  | cons answer answers ih =>
    cases answer with
    | error errno =>
      simp only [EventLoop.run] at h
      by_cases he : errno = eintr
      · rw [if_neg (not_not.2 he)] at h
        obtain ⟨hp', hall⟩ := ih (ha he) h
        refine ⟨hp', fun events hmem => hall events ?_⟩
        rw [used_error_of_eq he] at hmem
        simpa using hmem
      · rw [if_pos he] at h
        obtain ⟨rfl, -⟩ := Prod.mk.inj (Option.some.inj h)
        exact ⟨rfl, by simp [used_error_of_ne he]⟩
    | events events =>
      obtain ⟨⟨-, -, hwatched⟩, ha⟩ := ha
      obtain rfl : events = [] := List.eq_nil_iff_forall_not_mem.2 fun e he => hwatched e he (hp e.fd)
      obtain ⟨hp', hall⟩ := ih (ha p rfl) h
      refine ⟨hp', fun events hmem => ?_⟩
      rw [used_events, List.mem_cons] at hmem
      rcases hmem with hmem | hmem
      · exact Wait.events.inj hmem
      · exact hall events hmem

/-- A batch holds one event at most, for there is one descriptor to report. -/
theorem Boot.batch {p : Process Unit (Serving Cb)} {events : List Event} (hb : Boot env registrations loop fd p)
    (h : Reports p events) : events = [] ∨ ∃ e, events = [e] ∧ e.fd = fd := by
  obtain ⟨-, hnodup, hwatched⟩ := h
  have hfd : ∀ e ∈ events, e.fd = fd := fun e he => hb.watched e.fd (hwatched e he)
  match events with
  | [] => exact .inl rfl
  | [e] => exact .inr ⟨e, rfl, hfd e (by simp)⟩
  | e :: e' :: events =>
    have heq : e.fd = e'.fd := (hfd e (by simp)).trans (hfd e' (by simp)).symm
    simp [heq] at hnodup

/-- An error event takes the only watched descriptor away. -/
theorem Boot.silent {p p' : Process Unit (Serving Cb)} {e : Event} (hb : Boot env registrations loop fd p)
    (hfd : e.fd = fd) (herr : e.events &&& epollErr ≠ 0)
    (h : dispatchEvents (handlers env recv) p [e] = some p') : Silent p' := by
  have hm : p.fdHandlerMap e.fd = some () := by rw [hfd, hb.handler]
  simp only [dispatchEvents, hm, Option.bind_fun_some] at h
  rcases handlers_cases (hb.dnsSocket.trans hfd.symm) h with ⟨-, rfl⟩ | ⟨he, -⟩
  · intro fd'
    by_cases hne : fd' = e.fd
    · simp [Kernel.close, hne]
    · have hnone : p.kernel.watched fd' = none := by
        by_contra hw
        exact hne ((hb.watched fd' hw).trans hfd.symm)
      simp [Kernel.close, hne, hnone]
  · exact absurd he herr

/-- **After an error event the program waits forever.**  When at any point of its run a batch holds an event with
`EPOLLERR`, every later batch is empty, whatever comes: the process stays as it is then, and what is pending then is
never called. -/
theorem error_silences {k : Kernel} {s : Resolver Cb} {l : State Unit}
    (hadd : Resolver.init.addToLoop (State.construct k) loop () fd = some (s, l)) {before after : List Wait}
    {events : List Event} {p₀ p₁ p' : Process Unit (Serving Cb)} {r : Option ℤ}
    (ha : Answers (handlers env recv) (booted (resolveAll env s registrations) l) (before ++ .events events :: after))
    (hbefore : EventLoop.run (handlers env recv) (booted (resolveAll env s registrations) l) before = some (p₀, none))
    (herr : ∃ e ∈ events, e.events &&& epollErr ≠ 0)
    (hevents : dispatchEvents (handlers env recv) p₀ events = some p₁)
    (hafter : EventLoop.run (handlers env recv) p₁ after = some (p', r)) :
    p' = p₁ ∧ ∀ events, .events events ∈ used after → events = [] := by
  have hb : Boot env registrations loop fd p₀ := (boot hadd).run hbefore
  obtain ⟨-, hreports, hrest⟩ := ha.append hbefore
  obtain ⟨e, he, herr⟩ := herr
  rcases hb.batch hreports with rfl | ⟨e', rfl, hfd⟩
  · simp at he
  · obtain rfl := List.mem_singleton.1 he
    exact (hb.silent hfd herr hevents).run (hrest p₁ hevents) hafter

/-- An error event comes first, then a batch of nothing and a signal. -/
theorem error_silences_askedBoth : ∃ p₁ p',
    dispatchEvents replies askedBoth [⟨epollErr, 5⟩] = some p₁ ∧ p₁.own.resolver.pending [97] = [()] ∧
    EventLoop.run replies p₁ [.events [], .error eintr] = some (p', none) ∧ p' = p₁ := by
  have hevents : dispatchEvents replies askedBoth [⟨epollErr, 5⟩] = some _ := rfl
  have ha : Answers replies askedBoth ([] ++ .events [⟨epollErr, 5⟩] :: [.events [], .error eintr]) := by
    refine ⟨⟨by decide, by decide, by decide⟩, fun p _ => ?_⟩
    exact ⟨⟨by decide, by decide, by simp⟩, fun _ _ _ => trivial⟩
  have h := error_silences addToLoop_addedToLoop ha rfl ⟨⟨epollErr, 5⟩, by simp, by decide⟩ hevents rfl
  exact ⟨_, _, hevents, rfl, rfl, h.1⟩

end Boot

end Serving

end Shadowc.Dns
