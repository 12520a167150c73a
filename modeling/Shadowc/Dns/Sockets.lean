import Shadowc.Dns.Events
import Shadowc.EventLoop.Model
import Shadowc.Lib.Transition

/-!
# The resolver beside other components

The kernel hands out a descriptor number again as soon as it is closed.  The resolver closes its socket in two places,
upon an error event and in `close`, and keeps the number in `dns_socket` after both.

`Sockets` is the resolver beside other components that open, register and close descriptors of their own.  It has a
book of who opened each number that is in use (`owner`), and a list of what the resolver has done to which number
(`uses`).  `Books` says what the book has to do with the members and the kernel, and `books_run` that it is right in
every state that is reached.
-/

namespace Shadowc.Dns

open Lib Reading EventLoop Transition

/-- Who opened a descriptor: the resolver, in its `serial`-th successful call of `socket()`, or another component. -/
inductive Owner where
  | resolver (serial : ℕ)
  | other
  deriving DecidableEq, Repr

/-- Whose handler is in the event loop. -/
inductive Party where
  | resolver
  | other
  deriving DecidableEq, Repr

/-- What the resolver does to a descriptor number, and what stands there at that moment. -/
inductive Use where
  | close (fd : ℤ) (owner : Option Owner)
  | read (fd : ℤ) (owner : Option Owner)
  | remove (fd : ℤ) (handler : Option Party)
  deriving DecidableEq, Repr

/-- Which of its descriptors the resolver closes. -/
def Use.closes : Use → Option ℕ
  | .close _ (some (.resolver serial)) => some serial
  | _ => none

@[simp] theorem Use.closes_read (fd : ℤ) (owner : Option Owner) : (Use.read fd owner).closes = none := rfl

@[simp] theorem Use.closes_remove (fd : ℤ) (handler : Option Party) : (Use.remove fd handler).closes = none := rfl

theorem Use.closes_eq_some {u : Use} {serial : ℕ} :
    u.closes = some serial ↔ ∃ fd, u = .close fd (some (.resolver serial)) := by
  constructor
  · intro h
    unfold closes at h
    split at h
    · cases h
      exact ⟨_, rfl⟩
    · cases h
  · rintro ⟨fd, rfl⟩
    rfl

namespace Resolver

variable {Cb H : Type}

/-- `create_dns_socket` for each answer of `socket()`; `none` is -1. -/
def createDnsSocketOn (s : Resolver Cb) (k : Kernel) : Option ℕ → Option (Resolver Cb × Kernel)
  | some fd => s.createDnsSocket k fd
  | none => some (if s.dnsSocket ≠ 0 then s else { s with dnsSocket := -1 }, k)

/-- `DNSResolver::close`: what becomes of the descriptor and of the loop.  The members stay as they are. -/
def close (s : Resolver Cb) (l : State H) : State H :=
  if s.dnsSocket ≠ 0 then
    let l := { l with kernel := l.kernel.close s.dnsSocket }
    if s.loop ≠ none then l.remove s.dnsSocket else l
  else l

end Resolver

structure Sockets (Cb : Type) where
  resolver : Resolver Cb
  loop : State Party
  /-- Who opened the descriptors in use. -/
  owner : ℤ → Option Owner
  /-- How many descriptors the resolver has opened. -/
  opened : ℕ
  /-- `dns_socket` comes from a `socket()` that succeeded, and there has been no error event for it and no `close`
  since. -/
  live : Bool
  uses : List Use

/-- What happens: a call of an operation of the resolver, or an action of another component.  The answer is that of
`socket()`, if it is called. -/
inductive SocketAct where
  | createDnsSocket (answer : Option ℕ)
  | addToLoop (loop : ℕ) (answer : Option ℕ)
  | handleEvent (env : Env) (evt : Event) (received : Received)
  | close
  | others (act : EventLoop.Action Party)

namespace Sockets

variable {Cb : Type}

def start (k : Kernel) : Sockets Cb where
  resolver := .init
  loop := .init k
  owner fd := if k.inUse fd then some .other else none
  opened := 0
  live := false
  uses := []

/-- The book after a `socket()` of the resolver. -/
def called (s : Sockets Cb) : Option ℕ → Sockets Cb
  | some fd => { s with
      owner := Function.update s.owner fd (some (.resolver s.opened)), opened := s.opened + 1, live := true }
  | none => { s with live := false }

/-- The book after a `close(fd)` of the resolver. -/
def closed (s : Sockets Cb) (fd : ℤ) : Sockets Cb :=
  { s with owner := Function.update s.owner fd none, live := false, uses := s.uses ++ [.close fd (s.owner fd)] }

def createDnsSocket (s : Sockets Cb) (answer : Option ℕ) : Option (Sockets Cb) :=
  (s.resolver.createDnsSocketOn s.loop.kernel answer).map fun (resolver, kernel) =>
    { (if s.resolver.dnsSocket = 0 then s.called answer else s) with resolver, loop := { s.loop with kernel } }

def addToLoop (s : Sockets Cb) (loop : ℕ) (answer : Option ℕ) : Option (Sockets Cb) :=
  if s.resolver.loop ≠ none then some s
  else (s.createDnsSocket answer).map fun s => { s with
    resolver := { s.resolver with loop := some loop }
    loop := s.loop.add s.resolver.dnsSocket (epollIn + epollEt) .resolver }

def handleEvent (s : Sockets Cb) (env : Env) (evt : Event) (received : Received) : Sockets Cb :=
  let s' := if s.resolver.Reads evt then { s with uses := s.uses ++ [.read evt.fd (s.owner evt.fd)] } else s
  match s.resolver.handleEvent env evt received with
  | .ok (resolver, _, some fd) =>
    { s'.closed fd with resolver, loop := { s.loop with kernel := s.loop.kernel.close fd } }
  | .ok (resolver, _, none) => { s' with resolver }
  -- `handle_data` does not get through the datagram
  | .error _ => s'

def close (s : Sockets Cb) : Sockets Cb :=
  let fd := s.resolver.dnsSocket
  let s' :=
    if fd ≠ 0 then
      if s.resolver.loop ≠ none then
        { s.closed fd with uses := (s.closed fd).uses ++ [.remove fd (s.loop.fdHandlerMap fd)] }
      else s.closed fd
    else s
  { s' with loop := s.resolver.close s.loop }

/-- The other components add handlers of their own, and close what they have opened. -/
def Allowed (s : Sockets Cb) : EventLoop.Action Party → Prop
  | .add _ _ handler => handler = .other
  | .openFd fd _ => 0 ≤ fd
  | .close fd => s.owner fd = some .other
  | _ => True

instance (s : Sockets Cb) : (act : EventLoop.Action Party) → Decidable (s.Allowed act)
  | .add _ _ handler => inferInstanceAs (Decidable (handler = .other))
  | .openFd fd _ => inferInstanceAs (Decidable (0 ≤ fd))
  | .close fd => inferInstanceAs (Decidable (s.owner fd = some .other))
  | .remove _ | .wait _ | .dispatch => inferInstanceAs (Decidable True)

def others (s : Sockets Cb) (act : EventLoop.Action Party) : Option (Sockets Cb) :=
  if s.Allowed act then
    (EventLoop.step s.loop act).map fun loop => { s with
      loop
      owner := match act with
        | .openFd fd _ => Function.update s.owner fd (some .other)
        | .close fd => Function.update s.owner fd none
        | _ => s.owner }
  else none

/-- One step; `none` when it cannot happen in this state. -/
def step (s : Sockets Cb) : SocketAct → Option (Sockets Cb)
  | .createDnsSocket answer => s.createDnsSocket answer
  | .addToLoop loop answer => s.addToLoop loop answer
  | .handleEvent env evt received => some (s.handleEvent env evt received)
  | .close => some s.close
  | .others act => s.others act

def Steps (s : Sockets Cb) (act : SocketAct) (s' : Sockets Cb) : Prop := s.step act = some s'

theorem inUse_add (l : State Party) (fd : ℤ) (mode : ℕ) (handler : Party) :
    (l.add fd mode handler).kernel.inUse = l.kernel.inUse := by
  simp only [State.add, Kernel.epollCtlAdd]
  split <;> rfl

/-! ### The book agrees with the members -/

/-- The book covers the numbers in use; each descriptor the resolver has opened stands there under one number until it
is closed; and the resolver owns the number in `dns_socket` as long as its socket is live. -/
structure Books (s : Sockets Cb) : Prop where
  inUse : ∀ fd, s.loop.kernel.inUse fd = true ↔ s.owner fd ≠ none
  number : ∀ fd serial, s.owner fd = some (.resolver serial) → 0 ≤ fd ∧ serial < s.opened
  unique : ∀ fd fd' serial, s.owner fd = some (.resolver serial) → s.owner fd' = some (.resolver serial) → fd = fd'
  live : s.live = true ↔ ∃ serial, s.owner s.resolver.dnsSocket = some (.resolver serial)
  closed : ∀ serial ∈ s.uses.filterMap Use.closes, serial < s.opened ∧ ∀ fd, s.owner fd ≠ some (.resolver serial)

theorem books_start (k : Kernel) : (start k : Sockets Cb).Books := by
  have hnot : ∀ fd serial, (start k : Sockets Cb).owner fd ≠ some (.resolver serial) := by
    intro fd serial
    simp only [start]
    split <;> simp
  refine ⟨?_, ?_, ?_, ?_, ?_⟩
  · intro fd
    simp [start, State.init]
  · intro fd serial h
    exact absurd h (hnot fd serial)
  · intro fd _ serial h
    exact absurd h (hnot fd serial)
  · simp [start]
  · simp [start]

/-- The book does not look at the rest of the state. -/
theorem Books.congr {s t : Sockets Cb} (hs : s.Books) (hinUse : t.loop.kernel.inUse = s.loop.kernel.inUse)
    (howner : t.owner = s.owner) (hopened : t.opened = s.opened) (hlive : t.live = s.live)
    (hsocket : t.resolver.dnsSocket = s.resolver.dnsSocket)
    (huses : t.uses.filterMap Use.closes = s.uses.filterMap Use.closes) : t.Books := by
  refine ⟨?_, ?_, ?_, ?_, ?_⟩
  · rw [hinUse, howner]
    exact hs.inUse
  · rw [howner, hopened]
    exact hs.number
  · rw [howner]
    exact hs.unique
  · rw [hlive, howner, hsocket]
    exact hs.live
  · rw [huses, howner, hopened]
    exact hs.closed

/-- A number that changes hands, or comes into use, or goes out of it. -/
theorem Books.inUse_update {s : Sockets Cb} (hs : s.Books) (fd : ℤ) (now : Option Owner) (fd' : ℤ) :
    Function.update s.loop.kernel.inUse fd now.isSome fd' = true ↔ Function.update s.owner fd now fd' ≠ none := by
  by_cases hfd : fd' = fd
  · subst hfd
    simp [Option.isSome_iff_ne_none]
  · simpa [hfd] using hs.inUse fd'

/-- A `socket()` that succeeds. -/
theorem Books.called {s t : Sockets Cb} (hs : s.Books) (fd : ℕ)
    (hinUse : t.loop.kernel.inUse = Function.update s.loop.kernel.inUse fd true)
    (howner : t.owner = Function.update s.owner fd (some (.resolver s.opened))) (hopened : t.opened = s.opened + 1)
    (hlive : t.live = true) (hsocket : t.resolver.dnsSocket = fd) (huses : t.uses = s.uses) : t.Books := by
  have hold : ∀ fd' serial, t.owner fd' = some (.resolver serial) →
      fd' = fd ∧ serial = s.opened ∨ s.owner fd' = some (.resolver serial) ∧ serial < s.opened := by
    intro fd' serial h
    rw [howner] at h
    by_cases hfd : fd' = fd
    · subst hfd
      rw [Function.update_self] at h
      cases h
      exact .inl ⟨rfl, rfl⟩
    · rw [Function.update_of_ne hfd] at h
      exact .inr ⟨h, (hs.number fd' serial h).2⟩
  refine ⟨?_, ?_, ?_, ?_, ?_⟩
  · rw [hinUse, howner]
    exact hs.inUse_update fd (some (.resolver s.opened))
  · intro fd' serial h
    rcases hold fd' serial h with ⟨rfl, rfl⟩ | ⟨h, -⟩
    · exact ⟨by omega, by omega⟩
    · have hn := hs.number fd' serial h
      exact ⟨hn.1, by omega⟩
  · intro fd' fd'' serial h h'
    rcases hold fd' serial h with ⟨rfl, rfl⟩ | ⟨h, hlt⟩ <;> rcases hold fd'' _ h' with ⟨rfl, he⟩ | ⟨h', hlt'⟩
    · rfl
    · omega
    · omega
    · exact hs.unique fd' fd'' serial h h'
  · rw [hlive, howner, hsocket]
    simp
  · intro serial hserial
    rw [huses] at hserial
    obtain ⟨hlt, hnot⟩ := hs.closed serial hserial
    refine ⟨by omega, ?_⟩
    intro fd' h
    rcases hold fd' serial h with ⟨rfl, rfl⟩ | ⟨h, -⟩
    · omega
    · exact hnot fd' h

/-- A `socket()` that fails. -/
theorem Books.called_none {s t : Sockets Cb} (hs : s.Books) (hinUse : t.loop.kernel.inUse = s.loop.kernel.inUse)
    (howner : t.owner = s.owner) (hopened : t.opened = s.opened) (hlive : t.live = false)
    (hsocket : t.resolver.dnsSocket = -1) (huses : t.uses = s.uses) : t.Books := by
  refine ⟨?_, ?_, ?_, ?_, ?_⟩
  · rw [hinUse, howner]
    exact hs.inUse
  · rw [howner, hopened]
    exact hs.number
  · rw [howner]
    exact hs.unique
  · rw [hlive, howner, hsocket]
    constructor
    · intro h
      cases h
    · rintro ⟨serial, h⟩
      have hn := hs.number (-1) serial h
      omega
  · rw [huses, howner, hopened]
    exact hs.closed

/-- A descriptor that is not handed on leaves the book. -/
theorem owner_of_update_none {s : Sockets Cb} {fd fd' : ℤ} {serial : ℕ}
    (h : Function.update s.owner fd none fd' = some (.resolver serial)) :
    fd' ≠ fd ∧ s.owner fd' = some (.resolver serial) := by
  by_cases hfd : fd' = fd
  · subst hfd
    simp at h
  · exact ⟨hfd, by simpa [hfd] using h⟩

/-- A `close(dns_socket)` of the resolver. -/
theorem Books.closed_dnsSocket {s t : Sockets Cb} (hs : s.Books) {fd : ℤ} (hfd : s.resolver.dnsSocket = fd)
    (hinUse : t.loop.kernel.inUse = Function.update s.loop.kernel.inUse fd false)
    (howner : t.owner = Function.update s.owner fd none) (hopened : t.opened = s.opened) (hlive : t.live = false)
    (hsocket : t.resolver.dnsSocket = s.resolver.dnsSocket)
    (huses : t.uses.filterMap Use.closes = (s.uses ++ [Use.close fd (s.owner fd)]).filterMap Use.closes) :
    t.Books := by
  have hold : ∀ fd' serial, t.owner fd' = some (.resolver serial) →
      fd' ≠ fd ∧ s.owner fd' = some (.resolver serial) := by
    rw [howner]
    exact fun fd' serial => owner_of_update_none
  refine ⟨?_, ?_, ?_, ?_, ?_⟩
  · rw [hinUse, howner]
    exact hs.inUse_update fd none
  · intro fd' serial h
    rw [hopened]
    exact hs.number fd' serial (hold fd' serial h).2
  · intro fd' fd'' serial h h'
    exact hs.unique fd' fd'' serial (hold fd' serial h).2 (hold fd'' serial h').2
  · rw [hlive, howner, hsocket, hfd]
    simp
  · intro serial hserial
    rw [huses, List.filterMap_append, List.mem_append] at hserial
    rw [hopened]
    rcases hserial with hserial | hserial
    · obtain ⟨hlt, hnot⟩ := hs.closed serial hserial
      refine ⟨hlt, ?_⟩
      intro fd' h
      exact hnot fd' (hold fd' serial h).2
    · have hfd' : s.owner fd = some (.resolver serial) := by
        obtain ⟨u, hu, hcloses⟩ := List.mem_filterMap.1 hserial
        obtain ⟨_, rfl⟩ := Use.closes_eq_some.1 hcloses
        exact (Use.close.inj (List.mem_singleton.1 hu)).2.symm
      refine ⟨(hs.number fd serial hfd').2, ?_⟩
      intro fd' h
      obtain ⟨hne, h⟩ := hold fd' serial h
      exact hne (hs.unique fd' fd serial h hfd')

/-- Another component opens a descriptor, or closes one: the resolver does not own the number before or after. -/
theorem Books.others_update {s t : Sockets Cb} (hs : s.Books) {fd : ℤ} (now : Option Owner)
    (hbefore : ∀ serial, s.owner fd ≠ some (.resolver serial)) (hnow : ∀ serial, now ≠ some (.resolver serial))
    (hinUse : t.loop.kernel.inUse = Function.update s.loop.kernel.inUse fd now.isSome)
    (howner : t.owner = Function.update s.owner fd now) (hopened : t.opened = s.opened)
    (hlive : t.live = s.live) (hsocket : t.resolver.dnsSocket = s.resolver.dnsSocket) (huses : t.uses = s.uses) :
    t.Books := by
  have hsame : ∀ fd' serial, t.owner fd' = some (.resolver serial) ↔ s.owner fd' = some (.resolver serial) := by
    intro fd' serial
    rw [howner]
    by_cases hfd : fd' = fd
    · subst hfd
      simp [hbefore, hnow]
    · simp [hfd]
  refine ⟨?_, ?_, ?_, ?_, ?_⟩
  · rw [hinUse, howner]
    exact hs.inUse_update fd now
  · simpa only [hsame, hopened] using hs.number
  · simpa only [hsame] using hs.unique
  · simpa only [hsame, hlive, hsocket] using hs.live
  · simpa only [hsame, hopened, huses, ne_eq] using hs.closed

/-! ### What a step does to the book -/

/-- A second call does nothing. -/
theorem createDnsSocket_again {s : Sockets Cb} (hd : s.resolver.dnsSocket ≠ 0) (answer : Option ℕ) :
    s.createDnsSocket answer = some s := by
  cases answer <;> simp [createDnsSocket, Resolver.createDnsSocketOn, Resolver.createDnsSocket, hd]

theorem books_createDnsSocket {s t : Sockets Cb} {answer : Option ℕ} (hs : s.Books)
    (h : s.createDnsSocket answer = some t) : t.Books := by
  by_cases hd : s.resolver.dnsSocket = 0
  · obtain ⟨⟨resolver, kernel⟩, hr, rfl⟩ := Option.map_eq_some_iff.1 h
    cases answer with
    | none =>
      simp only [Resolver.createDnsSocketOn, hd, ne_eq, not_true_eq_false, if_false, Option.some.injEq,
        Prod.mk.injEq] at hr
      obtain ⟨rfl, rfl⟩ := hr
      exact hs.called_none rfl (by simp [hd, called]) (by simp [hd, called]) (by simp [hd, called]) rfl
        (by simp [hd, called])
    | some fd =>
      simp only [Resolver.createDnsSocketOn, Resolver.createDnsSocket, hd, ne_eq, not_true_eq_false, if_false,
        Kernel.openFd, Option.map_eq_some_iff, Option.ite_none_left_eq_some, Option.some.injEq, Prod.mk.injEq] at hr
      obtain ⟨k, ⟨-, rfl⟩, rfl, rfl⟩ := hr
      apply hs.called fd rfl <;> simp [hd, called]
  · rw [createDnsSocket_again hd] at h
    cases h
    exact hs

theorem books_addToLoop {s t : Sockets Cb} {loop : ℕ} {answer : Option ℕ} (hs : s.Books)
    (h : s.addToLoop loop answer = some t) : t.Books := by
  unfold addToLoop at h
  split at h
  · cases h
    exact hs
  · obtain ⟨u, hu, rfl⟩ := Option.map_eq_some_iff.1 h
    refine (books_createDnsSocket hs hu).congr ?_ rfl rfl rfl rfl rfl
    exact inUse_add ..

/-- What an event can do. -/
theorem handleEvent_cases (s : Sockets Cb) (env : Env) (evt : Event) (received : Received) :
    (s.resolver.dnsSocket ≠ evt.fd ∧ s.handleEvent env evt received = s) ∨
    (s.resolver.dnsSocket = evt.fd ∧ evt.events &&& epollErr ≠ 0 ∧ s.handleEvent env evt received =
      { s.closed evt.fd with loop := { s.loop with kernel := s.loop.kernel.close evt.fd } }) ∨
    (s.resolver.dnsSocket = evt.fd ∧ evt.events &&& epollErr = 0 ∧
      ∃ resolver, resolver.dnsSocket = s.resolver.dnsSocket ∧ s.handleEvent env evt received =
        { s with resolver, uses := s.uses ++ [.read evt.fd (s.owner evt.fd)] }) := by
  by_cases hfd : s.resolver.dnsSocket = evt.fd
  · right
    by_cases herr : evt.events &&& epollErr = 0
    · right
      have hreads : s.resolver.Reads evt := ⟨hfd, herr⟩
      refine ⟨hfd, herr, ?_⟩
      have hclosed : s.resolver.handleEvent env evt received =
          (s.resolver.handleData env received.buf).map fun p => (p.1, p.2, none) := by
        simp only [Resolver.handleEvent, hfd, herr, ne_eq, not_true_eq_false, if_false]
        cases s.resolver.handleData env received.buf <;> rfl
      simp only [handleEvent, if_pos hreads, hclosed]
      cases hd : s.resolver.handleData env received.buf with
      | error e => exact ⟨s.resolver, rfl, rfl⟩
      | ok p =>
        obtain ⟨resolver, calls⟩ := p
        exact ⟨resolver, Resolver.handleData_dnsSocket hd, rfl⟩
    · left
      have hreads : ¬ s.resolver.Reads evt := fun h => herr h.2
      have hclosed : s.resolver.handleEvent env evt received = .ok (s.resolver, [], some evt.fd) := by
        simp only [Resolver.handleEvent, hfd, herr, ne_eq, not_true_eq_false, not_false_eq_true, if_false, if_true]
        rfl
      refine ⟨hfd, herr, ?_⟩
      simp only [handleEvent, if_neg hreads, hclosed]
      rfl
  · left
    have hreads : ¬ s.resolver.Reads evt := fun h => hfd h.1
    have hclosed : s.resolver.handleEvent env evt received = .ok (s.resolver, [], none) := by
      simp only [Resolver.handleEvent, hfd, ne_eq, not_false_eq_true, if_true]
      rfl
    refine ⟨hfd, ?_⟩
    simp only [handleEvent, if_neg hreads, hclosed]

theorem books_handleEvent {s : Sockets Cb} (hs : s.Books) (env : Env) (evt : Event) (received : Received) :
    (s.handleEvent env evt received).Books := by
  rcases handleEvent_cases s env evt received with ⟨-, h⟩ | ⟨hfd, -, h⟩ | ⟨-, -, resolver, hr, h⟩
  · rw [h]
    exact hs
  · rw [h]
    exact hs.closed_dnsSocket hfd rfl rfl rfl rfl rfl rfl
  · rw [h]
    exact hs.congr rfl rfl rfl rfl hr (by simp)

theorem books_close {s : Sockets Cb} (hs : s.Books) : s.close.Books := by
  by_cases hd : s.resolver.dnsSocket = 0
  · simpa [close, Resolver.close, hd] using hs
  by_cases hl : s.resolver.loop = none
  · apply hs.closed_dnsSocket (t := s.close) rfl <;>
      simp [close, closed, Resolver.close, Kernel.close, hd, hl]
  · apply hs.closed_dnsSocket (t := s.close) rfl <;>
      simp [close, closed, Resolver.close, State.remove, Kernel.close, Kernel.epollCtlDel, List.filterMap_cons, hd, hl]

theorem books_others {s t : Sockets Cb} {act : EventLoop.Action Party} (hs : s.Books) (h : s.others act = some t) :
    t.Books := by
  unfold others at h
  split at h
  · next hallowed =>
    obtain ⟨loop, hstep, rfl⟩ := Option.map_eq_some_iff.1 h
    cases act with
    | add fd mode handler =>
      obtain rfl := Option.some.inj hstep
      exact hs.congr (inUse_add ..) rfl rfl rfl rfl rfl
    | remove fd =>
      obtain rfl := Option.some.inj hstep
      exact hs.congr rfl rfl rfl rfl rfl rfl
    | openFd fd pollable =>
      obtain ⟨k, hk, rfl⟩ := Option.map_eq_some_iff.1 hstep
      unfold Kernel.openFd at hk
      split at hk
      · cases hk
      · next hfree =>
        obtain rfl := Option.some.inj hk
        have hnone : s.owner fd = none := by
          by_contra hne
          exact hfree ((hs.inUse fd).2 hne)
        exact hs.others_update (some .other) (by simp [hnone]) (by simp) rfl rfl rfl rfl rfl rfl
    | close fd =>
      obtain rfl := Option.some.inj hstep
      have hother : s.owner fd = some .other := hallowed
      exact hs.others_update none (by simp [hother]) (by simp) rfl rfl rfl rfl rfl rfl
    | wait events =>
      simp only [EventLoop.step, Option.ite_none_right_eq_some, Option.some.injEq] at hstep
      obtain ⟨-, rfl⟩ := hstep
      exact hs.congr rfl rfl rfl rfl rfl rfl
    | dispatch =>
      simp only [EventLoop.step] at hstep
      split at hstep
      · cases hstep
      · obtain rfl := Option.some.inj hstep
        exact hs.congr rfl rfl rfl rfl rfl rfl
  · cases h

/-- **The book agrees with the members** whatever happens. -/
theorem books_step {s t : Sockets Cb} {act : SocketAct} (hs : s.Books) (h : s.Steps act t) : t.Books := by
  cases act with
  | createDnsSocket answer => exact books_createDnsSocket hs h
  | addToLoop loop answer => exact books_addToLoop hs h
  | handleEvent env evt received =>
    obtain rfl := Option.some.inj h
    exact books_handleEvent hs env evt received
  | close =>
    obtain rfl := Option.some.inj h
    exact books_close hs
  | others act => exact books_others hs h

theorem books_run {k : Kernel} {s : Sockets Cb} {acts : List SocketAct} (h : Runs Steps (start k) acts s) :
    s.Books := by
  refine h.induction (P := Books) ?_ (books_start k)
  intro s act t hs hst
  exact books_step hs hst

end Sockets

end Shadowc.Dns
