import Shadowc.Dns.Events
import Shadowc.EventLoop.Dispatch
import Shadowc.TcpRelay.Listening
import Mathlib.Data.List.Nodup

/-!
# How a `TCPRelay` accepts

`add_to_loop` registers the server socket without `EPOLLET`: `epoll_wait` reports it as long as a connection waits.
`handle_event` takes one connection per event.  It keeps the descriptor of none of them: no `TCPRelayHandler` is made,
so `fd_to_handlers` stays empty, and no descriptor that `accept` gives back is registered, used or closed.

`Books` is what all runs keep.  `relay_accounts` says that no connection is lost, taken twice or left waiting by a loop
that would block, and that each one that is taken costs a descriptor for good.
-/

namespace Shadowc.TcpRelay

open Lib Transition EventLoop
open Dns (epollIn epollErr epollEt)

def eagain : ℤ := 11

/-- The members that the constructor sets are addresses; `local_socket` and `dns_resolver` it leaves unset. -/
structure TCPRelayHandler where
  tcpRelay : ℕ
  fdToHandlers : ℕ
  deriving DecidableEq, Repr

/-- What is printed. -/
inductive Line where
  | cout (text : String)
  | cerr (text : String)
  deriving DecidableEq, Repr

/-- What `handle_event` does: what it prints, whether it calls `accept`, and the handler it passes the event to. -/
structure Effect where
  lines : List Line
  accepts : Bool
  passedTo : Option TCPRelayHandler
  deriving DecidableEq, Repr

/-- What is printed about the peer, when `getnameinfo` knows it. -/
def peerLines (conn : ℤ) : Option (String × String) → List Line
  | none => []
  | some (host, port) =>
    [.cout ("Accepted connection on descriptor " ++ toString conn ++ "(host=" ++ host ++ ", port=" ++ port ++ ")")]

def acceptingError : Line := .cerr "Connection accepting error"

/-- What follows upon `accept`.  The branches stand the wrong way round: a connection is reported as an error, and after
an error the peer is looked up, in an address that `accept` has not filled in. -/
def acceptLines (answer : Except ℤ ℤ) (name : Option (String × String)) : List Line :=
  match answer with
  | .error errno => if errno = eagain then [] else peerLines (-1) name
  | .ok conn => acceptingError :: peerLines conn name

namespace TCPRelay

/-- `TCPRelay::add_to_loop` -/
def addToLoop {H : Type} (relay : TCPRelay) (l : State H) (loop : ℕ) (this : H) : TCPRelay × State H :=
  if relay.loop ≠ none then (relay, l)
  else if relay.closed then (relay, l)
  else ({ relay with loop := some loop }, l.add relay.serverSocket (epollIn ||| epollErr) this)

/-- `TCPRelay::handle_event`, with what `accept` and `getnameinfo` give back if they are called. -/
def handleEvent (relay : TCPRelay) (fdToHandlers : ℤ → Option TCPRelayHandler) (evt : Event) (answer : Except ℤ ℤ)
    (name : Option (String × String)) : Effect :=
  if evt.fd = relay.serverSocket then
    if evt.events &&& epollErr ≠ 0 then { lines := [.cerr "Epoll error"], accepts := false, passedTo := none }
    else { lines := .cout "Accept" :: acceptLines answer name, accepts := true, passedTo := none }
  else { lines := [], accepts := false, passedTo := fdToHandlers evt.fd }

end TCPRelay

/-- The relay in its loop, and the connections at its socket. -/
structure Accepting where
  relay : TCPRelay
  fdToHandlers : ℤ → Option TCPRelayHandler
  loop : State Unit
  /-- The connections that wait to be accepted. -/
  backlog : List ℕ
  /-- The readiness edge of the socket is armed. -/
  armed : Bool
  arrived : List ℕ
  /-- The connections that `accept` has taken, with their descriptors. -/
  accepted : List (ℤ × ℕ)
  /-- How many have given up waiting. -/
  aborted : ℕ
  lines : List Line

namespace Accepting

inductive Action where
  | connect (peer : ℕ)
  /-- The connection at this place of the backlog is reset by its peer. -/
  | abort (i : ℕ)
  /-- `epoll_wait` returns, and reports `events`. -/
  | wait (events : ℕ)
  /-- The dispatch loop calls `handle_event`. -/
  | handle (answer : Except ℤ ℤ) (name : Option (String × String))

/-- The socket is reported: while a connection waits, or, with `EPOLLET`, when one has come. -/
def ready (t : Accepting) : Bool :=
  match t.loop.kernel.watched t.relay.serverSocket with
  | none => false
  | some mode => if mode &&& epollEt = 0 then !t.backlog.isEmpty else t.armed

/-- `accept` takes the first connection that waits, and hands out a new descriptor.  With none it returns -1 at once:
the socket does not block. -/
def accept (t : Accepting) (answer : Except ℤ ℤ) : Option Accepting :=
  match answer, t.backlog with
  | .ok _, [] => none
  | .ok conn, peer :: backlog => (t.loop.kernel.openFd conn true).map fun kernel =>
    { t with loop := { t.loop with kernel }, backlog, accepted := t.accepted ++ [(conn, peer)] }
  | .error _, [] => some t
  | .error errno, _ :: _ => if errno = eagain then none else some t

/-- One action; `none` when it cannot happen. -/
def step (t : Accepting) : Action → Option Accepting
  | .connect peer => some { t with backlog := t.backlog ++ [peer], armed := true, arrived := t.arrived ++ [peer] }
  | .abort i =>
    if i < t.backlog.length then some { t with backlog := t.backlog.eraseIdx i, aborted := t.aborted + 1 } else none
  | .wait events =>
    if t.ready ∨ events &&& epollErr ≠ 0 then
      (EventLoop.step t.loop (.wait [⟨events, t.relay.serverSocket⟩])).map fun loop => { t with loop, armed := false }
    else none
  | .handle answer name =>
    match t.loop.batch with
    | [] => none
    | e :: batch =>
      let t := { t with loop := { t.loop with batch } }
      match t.loop.find e with
      | none => some t
      | some () =>
        let effect := t.relay.handleEvent t.fdToHandlers e answer name
        let t := { t with lines := t.lines ++ effect.lines }
        match effect.passedTo with
        -- there is no code for `TCPRelayHandler::handle_event`
        | some _ => none
        | none => if effect.accepts then t.accept answer else some t

def Steps (t : Accepting) (a : Action) (t' : Accepting) : Prop := step t a = some t'

/-- `epoll_wait` would block, and no handler is running. -/
def Quiescent (t : Accepting) : Prop := t.ready = false ∧ t.loop.batch = []

/-- The relay that `add_to_loop` has been called for, in a loop of its own. -/
def start (relay : TCPRelay) (k : Kernel) (loop : ℕ) : Accepting :=
  let (relay, l) := relay.addToLoop (State.construct k) loop ()
  { relay, fdToHandlers := fun _ => none, loop := l, backlog := [], armed := false, arrived := [], accepted := []
    aborted := 0, lines := [] }

/-! ### What every run keeps -/

/-- The relay is the handler of its socket, which is the only descriptor that is watched or has a handler. -/
structure Wired (t : Accepting) : Prop where
  handler : t.loop.fdHandlerMap t.relay.serverSocket = some ()
  watched : t.loop.kernel.watched t.relay.serverSocket = some (epollIn ||| epollErr)
  only : ∀ fd, fd ≠ t.relay.serverSocket → t.loop.kernel.watched fd = none ∧ t.loop.fdHandlerMap fd = none
  inUse : t.loop.kernel.inUse t.relay.serverSocket = true
  batch : ∀ e ∈ t.loop.batch, e.fd = t.relay.serverSocket
  noHandlers : t.fdToHandlers = fun _ => none

/-- The books of the connections. -/
structure Books (t : Accepting) : Prop where
  order : (t.accepted.map Prod.snd ++ t.backlog).Sublist t.arrived
  count : t.arrived.length = t.accepted.length + t.backlog.length + t.aborted
  distinct : (t.accepted.map Prod.fst).Nodup
  inUse : ∀ fd ∈ t.accepted.map Prod.fst, t.loop.kernel.inUse fd = true ∧ fd ≠ t.relay.serverSocket
  reported : t.lines.count acceptingError = t.accepted.length

/-! ### One call of the handler -/

/-- The line that speaks of an error is printed for a connection, and for nothing else. -/
theorem count_acceptLines (answer : Except ℤ ℤ) (name : Option (String × String)) :
    (acceptLines answer name).count acceptingError = if answer.isOk then 1 else 0 := by
  have hpeer : ∀ conn, (peerLines conn name).count acceptingError = 0 := by
    intro conn
    cases name <;> simp [peerLines, acceptingError]
  cases answer with
  | error errno => by_cases he : errno = eagain <;> simp [acceptLines, he, hpeer, Except.isOk, Except.toBool]
  | ok conn => simp [acceptLines, hpeer, Except.isOk, Except.toBool]

/-- `accept` takes the first connection, or changes nothing. -/
theorem accept_cases {t t' : Accepting} {answer : Except ℤ ℤ} (h : t.accept answer = some t') :
    (answer.isOk = false ∧ t' = t) ∨
    ∃ conn peer backlog kernel, answer = .ok conn ∧ t.backlog = peer :: backlog ∧
      t.loop.kernel.openFd conn true = some kernel ∧
      t' = { t with loop := { t.loop with kernel }, backlog, accepted := t.accepted ++ [(conn, peer)] } := by
  unfold accept at h
  cases answer with
  | error errno =>
    cases hb : t.backlog with
    | nil =>
      simp only [hb] at h
      exact .inl ⟨rfl, (Option.some.inj h).symm⟩
    | cons peer backlog =>
      simp only [hb] at h
      split at h
      · cases h
      · exact .inl ⟨rfl, (Option.some.inj h).symm⟩
  | ok conn =>
    cases hb : t.backlog with
    | nil => simp [hb] at h
    | cons peer backlog =>
      simp only [hb] at h
      obtain ⟨kernel, hk, rfl⟩ := Option.map_eq_some_iff.1 h
      exact .inr ⟨conn, peer, backlog, kernel, rfl, rfl, hk, rfl⟩

/-- **What a call of the handler does**: it prints, and takes one connection at most. -/
theorem handle_cases {t t' : Accepting} {answer : Except ℤ ℤ} {name : Option (String × String)} (hw : t.Wired)
    (h : step t (.handle answer name) = some t') :
    ∃ e batch lines, t.loop.batch = e :: batch ∧
      ((t' = { t with loop := { t.loop with batch }, lines := t.lines ++ lines } ∧ lines.count acceptingError = 0) ∨
      ∃ conn peer backlog kernel, t.backlog = peer :: backlog ∧ t.loop.kernel.openFd conn true = some kernel ∧
        t' = { t with loop := { t.loop with kernel, batch }, backlog, accepted := t.accepted ++ [(conn, peer)]
                      lines := t.lines ++ lines } ∧ lines.count acceptingError = 1) := by
  simp only [step] at h
  cases hbatch : t.loop.batch with
  | nil => simp [hbatch] at h
  | cons e batch =>
    have he : e.fd = t.relay.serverSocket := hw.batch e (by simp [hbatch])
    simp only [hbatch, State.find, he, hw.handler, TCPRelay.handleEvent, if_true] at h
    by_cases herr : e.events &&& epollErr = 0
    · simp only [herr, ne_eq, not_true_eq_false, if_false, if_true] at h
      refine ⟨e, batch, .cout "Accept" :: acceptLines answer name, rfl, ?_⟩
      have hcount : (.cout "Accept" :: acceptLines answer name).count acceptingError =
          if answer.isOk then 1 else 0 := by
        rw [List.count_cons_of_ne (by simp [acceptingError]), count_acceptLines]
      rw [hcount]
      rcases accept_cases h with ⟨hnot, rfl⟩ | ⟨conn, peer, backlog, kernel, rfl, hb, hk, rfl⟩
      · exact .inl ⟨rfl, by simp [hnot]⟩
      · exact .inr ⟨conn, peer, backlog, kernel, hb, hk, rfl, rfl⟩
    · simp only [herr, ne_eq, not_false_eq_true, if_true, Bool.false_eq_true, if_false] at h
      refine ⟨e, batch, [.cerr "Epoll error"], rfl, .inl ⟨(Option.some.inj h).symm, by decide⟩⟩

/-! ### Whole runs -/

theorem openFd_cases {k k' : Kernel} {fd : ℤ} {pollable : Bool} (h : k.openFd fd pollable = some k') :
    k.inUse fd = false ∧ k'.watched = k.watched ∧ k'.inUse = Function.update k.inUse fd true := by
  unfold Kernel.openFd at h
  split at h
  · cases h
  · next hfree =>
    obtain rfl := Option.some.inj h
    exact ⟨by simpa using hfree, rfl, rfl⟩

/-- A report of the socket is the only thing that `epoll_wait` puts into the batch. -/
theorem wait_cases {t t' : Accepting} {events : ℕ} (h : step t (.wait events) = some t') :
    t.loop.batch = [] ∧
      t' = { t with loop := { t.loop with batch := [⟨events, t.relay.serverSocket⟩] }, armed := false } := by
  simp only [step] at h
  split at h
  · obtain ⟨loop, hl, rfl⟩ := Option.map_eq_some_iff.1 h
    simp only [EventLoop.step] at hl
    split at hl
    · next hb =>
      obtain rfl := Option.some.inj hl
      exact ⟨hb.1, rfl⟩
    · cases hl
  · cases h

theorem Wired.step {t t' : Accepting} {a : Action} (hw : t.Wired) (h : t.step a = some t') : t'.Wired := by
  cases a with
  | connect peer =>
    obtain rfl := Option.some.inj h
    exact ⟨hw.handler, hw.watched, hw.only, hw.inUse, hw.batch, hw.noHandlers⟩
  | abort i =>
    simp only [Accepting.step] at h
    split at h
    · obtain rfl := Option.some.inj h
      exact ⟨hw.handler, hw.watched, hw.only, hw.inUse, hw.batch, hw.noHandlers⟩
    · cases h
  | wait events =>
    obtain ⟨-, rfl⟩ := wait_cases h
    exact ⟨hw.handler, hw.watched, hw.only, hw.inUse, by simp, hw.noHandlers⟩
  | handle answer name =>
    obtain ⟨e, batch, lines, hbatch, ⟨rfl, -⟩ | ⟨conn, peer, backlog, kernel, -, hk, rfl, -⟩⟩ := handle_cases hw h
    · exact ⟨hw.handler, hw.watched, hw.only, hw.inUse,
        fun e' he' => hw.batch e' (by rw [hbatch]; exact List.mem_cons_of_mem _ he'), hw.noHandlers⟩
    · obtain ⟨-, hwatched, hinUse⟩ := openFd_cases hk
      refine ⟨hw.handler, ?_, fun fd hne => ?_, ?_,
        fun e' he' => hw.batch e' (by rw [hbatch]; exact List.mem_cons_of_mem _ he'), hw.noHandlers⟩
      · rw [hwatched]
        exact hw.watched
      · rw [hwatched]
        exact hw.only fd hne
      · rw [hinUse]
        by_cases hc : t.relay.serverSocket = conn <;> simp [hc, hw.inUse]

theorem Books.step {t t' : Accepting} {a : Action} (hw : t.Wired) (hb : t.Books) (h : t.step a = some t') :
    t'.Books := by
  have hcount := hb.count
  cases a with
  | connect peer =>
    obtain rfl := Option.some.inj h
    refine ⟨?_, ?_, hb.distinct, hb.inUse, hb.reported⟩
    · rw [← List.append_assoc]
      exact hb.order.append (List.Sublist.refl [peer])
    · simp only [List.length_append, List.length_singleton]
      omega
  | abort i =>
    simp only [Accepting.step] at h
    split at h
    · next hi =>
      obtain rfl := Option.some.inj h
      refine ⟨?_, ?_, hb.distinct, hb.inUse, hb.reported⟩
      · exact ((List.Sublist.refl _).append (List.eraseIdx_sublist t.backlog i)).trans hb.order
      · show t.arrived.length = t.accepted.length + (t.backlog.eraseIdx i).length + (t.aborted + 1)
        rw [List.length_eraseIdx, if_pos hi]
        omega
    · cases h
  | wait events =>
    obtain ⟨-, rfl⟩ := wait_cases h
    exact ⟨hb.order, hb.count, hb.distinct, hb.inUse, hb.reported⟩
  | handle answer name =>
    obtain ⟨e, batch, lines, -, ⟨rfl, hlines⟩ | ⟨conn, peer, backlog, kernel, hbacklog, hk, rfl, hlines⟩⟩ :=
      handle_cases hw h
    · refine ⟨hb.order, hb.count, hb.distinct, hb.inUse, ?_⟩
      simp only [List.count_append, hlines, hb.reported]
      omega
    · obtain ⟨hfree, -, hinUse⟩ := openFd_cases hk
      -- the number of the new descriptor is in use nowhere, so it is neither the server socket nor an earlier one
      have hnew : conn ∉ t.accepted.map Prod.fst := fun hmem => by
        simp [(hb.inUse conn hmem).1] at hfree
      have hne : conn ≠ t.relay.serverSocket := fun he => by
        simp [he, hw.inUse] at hfree
      refine ⟨?_, ?_, ?_, fun fd hfd => ?_, ?_⟩
      · have horder := hb.order
        rw [hbacklog] at horder
        simpa using horder
      · rw [hbacklog, List.length_cons] at hcount
        simp only [List.length_append, List.length_singleton]
        omega
      · rw [List.map_append, List.nodup_append]
        refine ⟨hb.distinct, by simp, fun fd hfd fd' hfd' => ?_⟩
        obtain rfl : fd' = conn := by simpa using hfd'
        exact fun he => hnew (he ▸ hfd)
      · rw [List.map_append, List.mem_append] at hfd
        rw [hinUse]
        rcases hfd with hfd | hfd
        · refine ⟨?_, (hb.inUse fd hfd).2⟩
          by_cases hc : fd = conn <;> simp [hc, (hb.inUse fd hfd).1]
        · obtain rfl : fd = conn := by simpa using hfd
          exact ⟨by simp, hne⟩
      · simp only [List.count_append, hlines, hb.reported, List.length_append, List.length_singleton]

theorem start_wired {relay : TCPRelay} (hloop : relay.loop = none) (hclosed : relay.closed = false) {k : Kernel}
    (hopen : k.inUse relay.serverSocket = true ∧ k.pollable relay.serverSocket = true) (loop : ℕ) :
    (start relay k loop).Wired ∧ (start relay k loop).Books := by
  have hadd : (State.construct k : State Unit).kernel.epollCtlAdd relay.serverSocket (epollIn ||| epollErr) =
      some { k with watched := Function.update (fun _ => none) relay.serverSocket (some (epollIn ||| epollErr)) } :=
    if_pos ⟨hopen.1, hopen.2, rfl⟩
  simp only [start, TCPRelay.addToLoop, hloop, hclosed, ne_eq, not_true_eq_false, if_false, Bool.false_eq_true,
    State.add, hadd, Option.getD_some]
  refine ⟨⟨?_, ?_, fun fd hne => ?_, hopen.1, by simp [State.construct, State.init], rfl⟩,
    ⟨.refl _, rfl, by simp, by simp, rfl⟩⟩
  · simp [insert_self, State.construct, State.init]
  · simp
  · simp [hne, insert_of_ne, State.construct, State.init]

theorem books_run {t t' : Accepting} {acts : List Action} (hw : t.Wired) (hb : t.Books) (h : Runs Steps t acts t') :
    t'.Wired ∧ t'.Books :=
  h.induction (P := fun t => t.Wired ∧ t.Books) (fun _ _ _ ht hs => ⟨ht.1.step hs, ht.2.step ht.1 hs⟩) ⟨hw, hb⟩

/-- A level-triggered socket is reported while connections wait. -/
theorem Wired.ready_iff {t : Accepting} (hw : t.Wired) : t.ready = true ↔ t.backlog ≠ [] := by
  have hlevel : (epollIn ||| epollErr) &&& epollEt = 0 := by decide
  simp [ready, hw.watched, hlevel]

/-- A relay that its constructor returns has no loop and is not closed. -/
theorem construct_returns {net net' : Net} {dnsResolver : ℕ} {answer : Except ℤ (List Turn)} {listens : Bool}
    {relay : TCPRelay} (h : construct net dnsResolver answer listens = .returns relay net') :
    relay.loop = none ∧ relay.closed = false := by
  unfold construct at h
  split at h
  · cases h
  · simp only at h
    split at h
    · cases h
    · cases h
      exact ⟨rfl, rfl⟩

section Relay

variable {net net' : Net} {dnsResolver : ℕ} {answer : Except ℤ (List Turn)} {listens : Bool} {relay : TCPRelay}
  {k : Kernel} {loop : ℕ} {acts : List Action} {t : Accepting}

theorem relay_run (hrelay : construct net dnsResolver answer listens = .returns relay net')
    (hopen : k.inUse relay.serverSocket = true ∧ k.pollable relay.serverSocket = true)
    (h : Runs Steps (start relay k loop) acts t) : t.Wired ∧ t.Books := by
  obtain ⟨hloop, hclosed⟩ := construct_returns hrelay
  obtain ⟨hw, hb⟩ := start_wired hloop hclosed hopen loop
  exact books_run hw hb h

/-- **No connection is lost, taken twice or left behind.**  For every relay that its constructor returns, and every
order of connections, resets, returns of `epoll_wait` and calls of the handler: those that have been taken and those
that wait are connections that have come, in the order in which they came, and all of them but those that were reset;
and a loop that would block leaves none waiting. -/
theorem relay_accounts (hrelay : construct net dnsResolver answer listens = .returns relay net')
    (hopen : k.inUse relay.serverSocket = true ∧ k.pollable relay.serverSocket = true)
    (h : Runs Steps (start relay k loop) acts t) :
    (t.accepted.map Prod.snd ++ t.backlog).Sublist t.arrived ∧
    t.arrived.length = t.accepted.length + t.backlog.length + t.aborted ∧ (t.Quiescent → t.backlog = []) := by
  obtain ⟨hw, hb⟩ := relay_run hrelay hopen h
  refine ⟨hb.order, hb.count, ?_⟩
  rintro ⟨hready, -⟩
  by_contra hne
  rw [hw.ready_iff.2 hne] at hready
  cases hready

/-- The relay that listens on the loopback interface, with the socket 4. -/
def loopbackRelay : TCPRelay := { loop := none, closed := false, dnsResolver := 1, serverSocket := 4 }

theorem construct_loopbackRelay :
    ∃ net, construct (fun _ => none) 1 (.ok [⟨loopback, some 4, true⟩]) true = .returns loopbackRelay net := ⟨_, rfl⟩

/-- The kernel with its socket. -/
def withSocket : Kernel := (Kernel.fresh.openFd 4 true).getD Kernel.fresh

/-- Two connections come, and one is reset before it is taken; the handler is called for the other. -/
def twoCome : List Action :=
  [.connect 1, .connect 2, .wait epollIn, .abort 0, .handle (.ok 5) (some ("192.0.2.7", "40000"))]

theorem relay_accounts_twoCome : ∃ t, Runs Steps (start loopbackRelay withSocket 1) twoCome t ∧
    t.accepted = [(5, 2)] ∧ t.arrived = [1, 2] ∧ t.aborted = 1 ∧ t.Quiescent ∧ t.backlog = [] := by
  obtain ⟨net, hrelay⟩ := construct_loopbackRelay
  have hrun : Runs Steps (start loopbackRelay withSocket 1) twoCome _ :=
    .cons rfl (.cons rfl (.cons rfl (.cons rfl (.cons rfl .nil))))
  exact ⟨_, hrun, rfl, rfl, rfl, ⟨rfl, rfl⟩, (relay_accounts hrelay ⟨rfl, rfl⟩ hrun).2.2 ⟨rfl, rfl⟩⟩

/-- **Each connection that is taken costs a descriptor for good.**  In every run the descriptors of the connections
taken are distinct and all still in use, while neither the loop nor the relay has any of them; and the line that speaks
of an accepting error has been printed once for each of them, and never for an error. -/
theorem relay_leaks (hrelay : construct net dnsResolver answer listens = .returns relay net')
    (hopen : k.inUse relay.serverSocket = true ∧ k.pollable relay.serverSocket = true)
    (h : Runs Steps (start relay k loop) acts t) :
    (t.accepted.map Prod.fst).Nodup ∧
    (∀ fd ∈ t.accepted.map Prod.fst, t.loop.kernel.inUse fd = true ∧ t.loop.kernel.watched fd = none ∧
      t.loop.fdHandlerMap fd = none ∧ t.fdToHandlers fd = none) ∧
    t.lines.count acceptingError = t.accepted.length := by
  obtain ⟨hw, hb⟩ := relay_run hrelay hopen h
  refine ⟨hb.distinct, fun fd hfd => ?_, hb.reported⟩
  obtain ⟨hinUse, hne⟩ := hb.inUse fd hfd
  obtain ⟨hwatched, hmap⟩ := hw.only fd hne
  exact ⟨hinUse, hwatched, hmap, by rw [hw.noHandlers]⟩

theorem relay_leaks_twoCome : ∃ t, Runs Steps (start loopbackRelay withSocket 1) twoCome t ∧
    t.loop.kernel.inUse 5 = true ∧ t.loop.kernel.watched 5 = none ∧ t.lines.count acceptingError = 1 := by
  obtain ⟨net, hrelay⟩ := construct_loopbackRelay
  have hrun : Runs Steps (start loopbackRelay withSocket 1) twoCome _ :=
    .cons rfl (.cons rfl (.cons rfl (.cons rfl (.cons rfl .nil))))
  obtain ⟨-, hopen, hlines⟩ := relay_leaks hrelay ⟨rfl, rfl⟩ hrun
  obtain ⟨hinUse, hwatched, -⟩ := hopen 5 (by decide)
  exact ⟨_, hrun, hinUse, hwatched, hlines⟩

end Relay

end Accepting

end Shadowc.TcpRelay
