import Shadowc.Dns.Received

/-!
# The resolver's socket, edge-triggered

`add_to_loop` registers the socket with `EPOLLET`: `epoll_wait` reports it once for each time its readiness edge is
armed, and an arrival arms the edge.  `handle_event` takes one datagram from the queue.  An arrival that finds the edge
armed adds a datagram and no report.

The invariant compares the queue with the reports that are still to come (`System.due`).  Each action changes both by
the same number, but for those arrivals (`due_step`).  So a loop that would block has nothing left in the socket
exactly when no arrival of the run found the edge armed: `quiescent_iff`.
-/

namespace Shadowc.Dns

open Lib Reading Transition EventLoop

/-- The resolver, the event loop with the resolver as its handler, and the resolver's socket. -/
structure System (Cb : Type) where
  resolver : Resolver Cb
  loop : State Unit
  /-- The datagrams in the receive queue of the socket. -/
  queue : List (List UInt8)
  /-- The readiness edge of the socket is armed. -/
  armed : Bool
  /-- The datagrams that have arrived, and those that `handle_data` has been given. -/
  arrived : List (List UInt8)
  handed : List (List UInt8)

namespace System

variable {Cb : Type}

inductive Action where
  | arrive (datagram : List UInt8)
  /-- `epoll_wait` returns, and reports `events`. -/
  | wait (events : ℕ)
  /-- The dispatch loop calls `handle_event`; `stack` is what the array `buf` holds before. -/
  | handle (stack : List UInt8)

/-- `recvfrom` on the socket: one datagram, or -1 when there is none. -/
def recvfrom (queue : List (List UInt8)) (stack : List UInt8) : Received × List (List UInt8) :=
  match queue with
  | [] => ({ nread := -1, buf := stack }, [])
  | d :: queue =>
    let d := d.take bufSize
    ({ nread := d.length, buf := d ++ stack.drop d.length }, queue)

/-- One action; `none` when it cannot happen, or when `handle_event` does not return. -/
def step (env : Env) (t : System Cb) : Action → Option (System Cb)
  | .arrive d => some { t with queue := t.queue ++ [d], armed := true, arrived := t.arrived ++ [d] }
  | .wait events =>
    if t.armed = true ∧ events &&& epollErr = 0 then
      (EventLoop.step t.loop (.wait [⟨events, t.resolver.dnsSocket⟩])).map fun loop => { t with loop, armed := false }
    else none
  | .handle stack =>
    match t.loop.batch with
    | [] => none
    | e :: batch =>
      let t := { t with loop := { t.loop with batch } }
      match t.loop.find e with
      | none => some t
      | some () =>
        let (received, queue, handed) :=
          if t.resolver.Reads e then
            let (received, queue) := recvfrom t.queue stack
            (received, queue, t.queue.take 1)
          else ({ nread := 0, buf := stack }, t.queue, [])
        match t.resolver.handleEvent env e received with
        | .error _ => none
        | .ok (resolver, _, _) => some { t with resolver, queue, handed := t.handed ++ handed }

def Steps (env : Env) (t : System Cb) (a : Action) (t' : System Cb) : Prop := step env t a = some t'

/-- `epoll_wait` would block, and no handler is running. -/
def Quiescent (t : System Cb) : Prop := t.armed = false ∧ t.loop.batch = []

/-- The reports of the socket that are still to come. -/
def due (t : System Cb) : ℕ := t.armed.toNat + t.loop.batch.length

/-- An arrival finds the edge not armed. -/
def FindsUnarmed (t : System Cb) : Action → Prop
  | .arrive _ => t.armed = false
  | _ => True

/-! ### What one action does -/

/-- The resolver is the handler of its socket, and the reports that wait in the batch are of the socket. -/
structure Wired (t : System Cb) : Prop where
  handler : t.loop.fdHandlerMap t.resolver.dnsSocket = some ()
  batch : ∀ e ∈ t.loop.batch, t.resolver.Reads e

/-- What an arrival, a report and a call of the handler change. -/
inductive Change (t t' : System Cb) : Action → Prop
  | arrive (d : List UInt8) : t'.queue = t.queue ++ [d] → t'.armed = true → t'.arrived = t.arrived ++ [d] →
      t'.handed = t.handed → t'.loop.batch = t.loop.batch → Change t t' (.arrive d)
  | wait (events : ℕ) : t.armed = true → t'.armed = false → t.loop.batch = [] → t'.loop.batch.length = 1 →
      t'.queue = t.queue → t'.arrived = t.arrived → t'.handed = t.handed → Change t t' (.wait events)
  | handle (stack : List UInt8) : t.loop.batch.length = t'.loop.batch.length + 1 → t'.queue = t.queue.drop 1 →
      t'.handed = t.handed ++ t.queue.take 1 → t'.armed = t.armed → t'.arrived = t.arrived →
      Change t t' (.handle stack)

theorem recvfrom_queue (queue : List (List UInt8)) (stack : List UInt8) : (recvfrom queue stack).2 = queue.drop 1 := by
  cases queue <;> rfl

theorem step_change {env : Env} {t t' : System Cb} {a : Action} (hw : t.Wired) (h : step env t a = some t') :
    t'.Wired ∧ Change t t' a := by
  cases a with
  | arrive d =>
    obtain rfl := Option.some.inj h
    exact ⟨⟨hw.handler, hw.batch⟩, .arrive d rfl rfl rfl rfl rfl⟩
  | wait events =>
    simp only [step] at h
    split at h
    · next hc =>
      obtain ⟨loop, hl, rfl⟩ := Option.map_eq_some_iff.1 h
      simp only [EventLoop.step] at hl
      split at hl
      · next hb =>
        obtain rfl := Option.some.inj hl
        refine ⟨⟨hw.handler, ?_⟩, .wait events hc.1 rfl hb.1 rfl rfl rfl rfl⟩
        intro e he
        obtain rfl := List.mem_singleton.1 he
        exact ⟨rfl, hc.2⟩
      · cases hl
    · cases h
  | handle stack =>
    simp only [step] at h
    cases hbatch : t.loop.batch with
    | nil => simp [hbatch] at h
    | cons e batch =>
      have hreads : t.resolver.Reads e := hw.batch e (by simp [hbatch])
      have hfind : t.loop.fdHandlerMap e.fd = some () := by rw [← hreads.1, hw.handler]
      simp only [hbatch, State.find, hfind, if_pos hreads] at h
      split at h
      · cases h
      · next resolver calls closed hd =>
        obtain rfl := Option.some.inj h
        have hsocket := Resolver.handleEvent_dnsSocket hd
        refine ⟨⟨?_, fun e' he' => ?_⟩, .handle stack (by simp [hbatch]) (recvfrom_queue ..) rfl rfl rfl⟩
        · simpa [hsocket] using hw.handler
        · have he := hw.batch e' (by rw [hbatch]; exact List.mem_cons_of_mem _ he')
          exact ⟨hsocket.trans he.1, he.2⟩

/-- The datagrams are handed over in the order of their arrival, and the queue holds one for each report to come. -/
structure Books (t : System Cb) : Prop where
  fifo : t.arrived = t.handed ++ t.queue
  due_le : t.due ≤ t.queue.length

/-- **The queue and the reports to come** change by the same number, unless an arrival finds the edge armed: that
datagram has no report. -/
theorem due_step {t t' : System Cb} {a : Action} (hb : t.Books) (h : Change t t' a) :
    t'.arrived = t'.handed ++ t'.queue ∧
    (t.FindsUnarmed a → t'.due + t.queue.length = t'.queue.length + t.due) ∧
    (¬ t.FindsUnarmed a → t'.due + t.queue.length + 1 = t'.queue.length + t.due) := by
  have hdue := hb.due_le
  unfold due at hdue ⊢
  cases h with
  | arrive d hq harm harr hh hbatch =>
    refine ⟨by rw [hq, harr, hh, hb.fifo, List.append_assoc], fun hf => ?_, fun hf => ?_⟩
    · simp only [FindsUnarmed] at hf
      simp [hq, harm, hbatch, hf]
      omega
    · simp only [FindsUnarmed, Bool.not_eq_false] at hf
      simp [hq, harm, hbatch, hf]
      omega
  | wait events harm harm' hbatch hbatch' hq harr hh =>
    refine ⟨by rw [hq, harr, hh, hb.fifo], fun _ => ?_, fun hf => absurd trivial hf⟩
    rw [harm, harm', hbatch, hbatch', hq]
    simp
    omega
  | handle stack hbatch hq hh harm harr =>
    refine ⟨?_, fun _ => ?_, fun hf => absurd trivial hf⟩
    · rw [hq, harr, hh, hb.fifo, List.append_assoc, List.take_append_drop]
    · rw [hq, harm, List.length_drop]
      omega

theorem Books.step {t t' : System Cb} {a : Action} (hb : t.Books) (h : Change t t' a) : t'.Books := by
  obtain ⟨hfifo, heq, hlt⟩ := due_step hb h
  refine ⟨hfifo, ?_⟩
  have hdue := hb.due_le
  by_cases hf : t.FindsUnarmed a
  · have := heq hf
    omega
  · have := hlt hf
    omega

/-! ### Whole runs -/

section Run

variable {env : Env} {t t' : System Cb} {acts : List Action}

theorem books_run (h : Runs (Steps env) t acts t') (hw : t.Wired) (hb : t.Books) : t'.Wired ∧ t'.Books := by
  refine h.induction (P := fun t => t.Wired ∧ t.Books) (fun t a t' ht hs => ?_) ⟨hw, hb⟩
  obtain ⟨hw', hc⟩ := step_change ht.1 hs
  exact ⟨hw', ht.2.step hc⟩

/-- As long as every arrival finds the edge unarmed, there is a report for every datagram. -/
theorem due_eq_run (h : Runs (Steps env) t acts t') (hw : t.Wired) (hb : t.Books) (hd : t.due = t.queue.length)
    (ha : Along (Steps env) FindsUnarmed t acts) : t'.due = t'.queue.length := by
  have := h.induction_along (P := fun t => (t.Wired ∧ t.Books) ∧ t.due = t.queue.length) (fun t a t' ht hf hs => ?_)
    ⟨⟨hw, hb⟩, hd⟩ ha
  · exact this.2
  · obtain ⟨hw', hc⟩ := step_change ht.1.1 hs
    have := (due_step ht.1.2 hc).2.1 hf
    refine ⟨⟨hw', ht.1.2.step hc⟩, ?_⟩
    have := ht.2
    omega

/-- A datagram without a report stays without one. -/
theorem due_lt_run (h : Runs (Steps env) t acts t') (hw : t.Wired) (hb : t.Books) (hd : t.due < t.queue.length) :
    t'.due < t'.queue.length := by
  have := h.induction (P := fun t => (t.Wired ∧ t.Books) ∧ t.due < t.queue.length) (fun t a t' ht hs => ?_)
    ⟨⟨hw, hb⟩, hd⟩
  · exact this.2
  · obtain ⟨hw', hc⟩ := step_change ht.1.1 hs
    obtain ⟨-, heq, hlt⟩ := due_step ht.1.2 hc
    refine ⟨⟨hw', ht.1.2.step hc⟩, ?_⟩
    have := ht.2
    by_cases hf : t.FindsUnarmed a
    · have := heq hf
      omega
    · have := hlt hf
      omega

end Run

theorem steps_unique {env : Env} (t : System Cb) (a : Action) (u v : System Cb) (hu : Steps env t a u)
    (hv : Steps env t a v) : u = v := Option.some.inj (hu.symm.trans hv)

/-- The system when `add_to_loop` has returned: the socket is new, and nothing has arrived. -/
def start (s : Resolver Cb) (l : State Unit) : System Cb :=
  { resolver := s, loop := l, queue := [], armed := false, arrived := [], handed := [] }

theorem start_ready {s₀ s : Resolver Cb} {k : Kernel} {l : State Unit} {loop : ℕ} {fd : ℤ} (hl : s₀.loop = none)
    (h : s₀.addToLoop (State.init k) loop () fd = some (s, l)) :
    (start s l).Wired ∧ (start s l).Books ∧ (start s l).due = 0 := by
  simp only [Resolver.addToLoop, hl] at h
  obtain ⟨⟨s₁, k₁⟩, -, h⟩ := Option.map_eq_some_iff.1 h
  cases h
  refine ⟨⟨?_, ?_⟩, ⟨rfl, ?_⟩, ?_⟩
  · simp [start, State.add, insert_self, State.init]
  · simp [start, State.add, State.init]
  · simp [due, start, State.add, State.init]
  · simp [due, start, State.add, State.init]

/-- **No datagram is left in the socket** of a loop that would block exactly when no arrival of the run found the edge
armed. -/
theorem quiescent_iff {env : Env} {s₀ s : Resolver Cb} {k : Kernel} {l : State Unit} {loop : ℕ} {fd : ℤ}
    (hl : s₀.loop = none) (hadd : s₀.addToLoop (State.init k) loop () fd = some (s, l)) {acts : List Action}
    {t : System Cb} (hrun : Runs (Steps env) (start s l) acts t) (hq : t.Quiescent) :
    (t.queue = [] ∧ t.handed = t.arrived) ↔ Along (Steps env) FindsUnarmed (start s l) acts := by
  obtain ⟨hw, hb, hd⟩ := start_ready hl hadd
  have hdue : t.due = 0 := by simp [due, hq.1, hq.2]
  have hfifo := (books_run hrun hw hb).2.fifo
  constructor
  · rintro ⟨hempty, -⟩
    by_contra hnot
    -- the datagram that found the edge armed is still there, one more than the reports to come
    obtain ⟨pre, a, post, u, rfl, hpre, hfinds⟩ := exists_of_not_along hnot
    obtain ⟨u', hpre', hpost⟩ := runs_append.1 hrun
    obtain rfl := hpre.unique steps_unique hpre'
    obtain ⟨v, hstep, hpost⟩ := runs_cons.1 hpost
    obtain ⟨hwu, hbu⟩ := books_run hpre hw hb
    obtain ⟨hwv, hc⟩ := step_change hwu hstep
    have hlt := (due_step hbu hc).2.2 hfinds
    have hle := hbu.due_le
    have := due_lt_run hpost hwv (hbu.step hc) (by omega)
    rw [hempty, hdue] at this
    exact absurd this (by simp)
  · intro halong
    have heq := due_eq_run hrun hw hb hd halong
    rw [hdue] at heq
    have hempty : t.queue = [] := List.length_eq_zero_iff.1 heq.symm
    exact ⟨hempty, by rw [hfifo, hempty, List.append_nil]⟩

/-! ### Replies of two servers -/

/-- A response with no answer. -/
def noAnswer : Response := .plain [[97]] [] [] name_ok_a (by decide) (by simp)

/-- The resolver that waits for an answer for `a`, and its loop, after `add_to_loop` has opened the socket 5. -/
def registeredA : Resolver Unit × State Unit :=
  (askedForA.addToLoop (State.init Kernel.fresh) 1 () 5).getD (askedForA, State.init Kernel.fresh)

theorem addToLoop_registeredA : askedForA.addToLoop (State.init Kernel.fresh) 1 () 5 = some registeredA := rfl

/-- The system as it starts with them. -/
def startA : System Unit := start registeredA.1 registeredA.2

/-- With one reply there is nothing left. -/
theorem one_reply_handed : ∃ t : System Unit,
    Runs (Steps .zero) startA [.arrive noAnswer.msg, .wait epollIn, .handle emptyBuffer] t ∧
    ((t.queue = [] ∧ t.handed = t.arrived) ↔ Along (Steps .zero) FindsUnarmed startA
      [.arrive noAnswer.msg, .wait epollIn, .handle emptyBuffer]) :=
  have hrun : Runs (Steps .zero) startA [.arrive noAnswer.msg, .wait epollIn, .handle emptyBuffer] _ :=
    .cons rfl (.cons rfl (.cons rfl .nil))
  ⟨_, hrun, quiescent_iff rfl addToLoop_registeredA hrun ⟨rfl, rfl⟩⟩

/-- Two replies arrive before the loop gets to run.  The first one is handled, the second one is not: the loop would
block, the reply is in the socket and the callback still waits. -/
theorem second_reply_stranded : ∃ t : System Unit,
    Runs (Steps .zero) startA
      [.arrive noAnswer.msg, .arrive directReply.msg, .wait epollIn, .handle emptyBuffer] t ∧
    t.Quiescent ∧ t.queue = [directReply.msg] ∧ t.resolver.pending [97] = [()] :=
  ⟨_, .cons rfl (.cons rfl (.cons rfl (.cons rfl .nil))), ⟨rfl, rfl⟩, rfl, rfl⟩

end System

end Shadowc.Dns
