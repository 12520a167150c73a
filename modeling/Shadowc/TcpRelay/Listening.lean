import Mathlib.Data.Int.Notation
import Mathlib.Data.Nat.Notation
import Mathlib.Data.List.Basic
import Mathlib.Logic.Function.Basic

/-!
# Where a `TCPRelay` listens

The constructor goes through the addresses that `getaddrinfo` gives it, until it has a socket that is bound to one of
them.  When it has gone through all of them it goes on with what is in `server_socket` then.

`bindLoop_of_find` and `bindLoop_of_none` say how the loop ends.  `listens_where_told_iff` tells from the addresses and
the answers of `socket()` and `bind()` whether a relay that is constructed listens where it was told to.
-/

namespace Shadowc.TcpRelay

/-! ### The sockets of the process -/

/-- `addrinfo` -/
structure AddrInfo where
  family : ℤ
  socktype : ℤ
  protocol : ℤ
  addr : List UInt8
  deriving DecidableEq, Repr

/-- What a socket is bound to. -/
inductive Bound where
  | unbound
  | address (addr : List UInt8)
  | ephemeral
  deriving DecidableEq, Repr

structure Socket where
  family : ℤ
  socktype : ℤ
  protocol : ℤ
  flags : ℕ
  bound : Bound
  listening : Bool
  deriving DecidableEq, Repr

/-- The sockets behind the descriptors in use. -/
abbrev Net := ℕ → Option Socket

namespace Net

/-- The socket behind a number that the program passes to the kernel. -/
def find (net : Net) : ℤ → Option Socket
  | .ofNat fd => net fd
  | .negSucc _ => none

/-- `socket()`, when it returns `fd`. -/
def socket (net : Net) (fd : ℕ) (ai : AddrInfo) : Net :=
  Function.update net fd (some
    { family := ai.family, socktype := ai.socktype, protocol := ai.protocol, flags := 0, bound := .unbound,
      listening := false })

/-- What a system call does to the socket behind a number. -/
def modify (net : Net) (fd : ℤ) (f : Socket → Socket) : Net :=
  match fd with
  | .ofNat fd => Function.update net fd ((net fd).map f)
  | .negSucc _ => net

/-- `bind()`, when it succeeds. -/
def bind (net : Net) (fd : ℤ) (ai : AddrInfo) : Net := net.modify fd fun s => { s with bound := .address ai.addr }

/-- `listen()`; `none` is -1.  It fails for a number that is not in use, and binds an unbound socket to an ephemeral
port.  Whether it succeeds for one that is bound is up to the kernel. -/
def listen (net : Net) (fd : ℤ) (succeeds : Bool) : Option Net :=
  match net.find fd with
  | none => none
  | some s =>
    if s.bound = .unbound then some (net.modify fd fun s => { s with bound := .ephemeral, listening := true })
    else if succeeds then some (net.modify fd fun s => { s with listening := true })
    else none

end Net

def oNonblock : ℕ := 2048

/-- `utils::make_socket_non_blocking` -/
def makeSocketNonBlocking (net : Net) (sfd : ℤ) : Net × ℤ :=
  match net.find sfd with
  | none => (net, -1)
  | some s => (net.modify sfd fun _ => { s with flags := s.flags ||| oNonblock }, 0)

/-! ### The constructor -/

/-- One turn of the loop: the address, and what the kernel answers to it.  `none` is -1 of `socket()`, and `binds`
that `bind()` returns 0. -/
structure Turn where
  addr : AddrInfo
  socket : Option ℕ
  binds : Bool
  deriving DecidableEq, Repr

/-- The members.  `dnsResolver` and `loop` are addresses. -/
structure TCPRelay where
  loop : Option ℕ
  closed : Bool
  dnsResolver : ℕ
  serverSocket : ℤ
  deriving DecidableEq, Repr

/-- How the constructor ends. -/
inductive Outcome where
  | exit (status : ℤ)
  | abort
  | returns (relay : TCPRelay) (net : Net)

/-- The loop over the addresses, with `server_socket` as it is before. -/
def bindLoop (net : Net) (serverSocket : ℤ) : List Turn → Net × ℤ
  | [] => (net, serverSocket)
  | turn :: turns =>
    match turn.socket with
    | none => bindLoop net (-1) turns
    | some fd =>
      -- a `setsockopt` that fails is only reported
      let net := net.socket fd turn.addr
      if turn.binds then (net.bind fd turn.addr, fd) else bindLoop net fd turns

/-- The constructor.  `answer` is what `getaddrinfo` gives back, and `listens` the answer of `listen()` for a socket
that is bound. -/
def construct (net : Net) (dnsResolver : ℕ) (answer : Except ℤ (List Turn)) (listens : Bool) : Outcome :=
  match answer with
  | .error _ => .exit 1
  | .ok result =>
    let (net, serverSocket) := bindLoop net 0 result
    let net := (makeSocketNonBlocking net serverSocket).1
    match net.listen serverSocket listens with
    | none => .abort
    | some net => .returns { loop := none, closed := false, dnsResolver, serverSocket } net

namespace Turn

/-- The socket of the address is there, and bound to it. -/
def Succeeds (turn : Turn) : Prop := turn.socket ≠ none ∧ turn.binds = true

instance (turn : Turn) : Decidable turn.Succeeds := inferInstanceAs (Decidable (_ ∧ _))

/-- What is in `server_socket` after the turn. -/
def serverSocket (turn : Turn) : ℤ :=
  match turn.socket with
  | none => -1
  | some fd => fd

end Turn

/-- `server_socket` is the socket of the first address that could be bound, and it is bound to that address. -/
def ListensWhereTold (result : List Turn) (relay : TCPRelay) (net : Net) : Prop :=
  ∃ turn fd sock, result.find? (fun turn => turn.Succeeds) = some turn ∧ turn.socket = some fd ∧
    relay.serverSocket = fd ∧ net.find relay.serverSocket = some sock ∧ sock.bound = .address turn.addr.addr

/-! ### How the loop ends -/

theorem find_modify (net : Net) (fd : ℤ) (f : Socket → Socket) : (net.modify fd f).find fd = (net.find fd).map f := by
  cases fd <;> simp [Net.modify, Net.find]

theorem find_socket (net : Net) (fd : ℕ) (ai : AddrInfo) :
    ∃ s, (net.socket fd ai).find fd = some s ∧ s.bound = .unbound :=
  ⟨_, Function.update_self .., rfl⟩

/-- The loop breaks at the first address that can be bound. -/
theorem bindLoop_of_find {result : List Turn} {turn : Turn}
    (h : result.find? (fun turn => turn.Succeeds) = some turn) (net : Net) (serverSocket : ℤ) :
    ∃ (fd : ℕ) (net' : Net) (sock : Socket), bindLoop net serverSocket result = (net', (fd : ℤ)) ∧
      turn.socket = some fd ∧ net'.find fd = some sock ∧ sock.bound = .address turn.addr.addr := by
  induction result generalizing net serverSocket with
  | nil => simp at h
  | cons first rest ih =>
    rw [List.find?_cons] at h
    cases hs : first.socket with
    | none =>
      have hnot : ¬ first.Succeeds := fun hf => hf.1 hs
      rw [bindLoop, hs]
      exact ih (by simpa [hnot] using h) net (-1)
    | some fd =>
      rw [bindLoop, hs]
      by_cases hb : first.binds = true
      · have hyes : first.Succeeds := ⟨by simp [hs], hb⟩
        obtain rfl : first = turn := by simpa [hyes] using h
        obtain ⟨sock, hsock, -⟩ := find_socket net fd first.addr
        refine ⟨fd, _, { sock with bound := .address first.addr.addr }, if_pos hb, hs, ?_, rfl⟩
        rw [Net.bind, find_modify, hsock]
        rfl
      · have hnot : ¬ first.Succeeds := fun hf => hb hf.2
        simp only [if_neg hb]
        exact ih (by simpa [hnot] using h) (net.socket fd first.addr) fd

/-- When no address can be bound the loop leaves the last socket behind, unbound, or -1. -/
theorem bindLoop_of_none {result : List Turn} (hne : result ≠ [])
    (h : result.find? (fun turn => turn.Succeeds) = none) (net : Net) (serverSocket : ℤ) :
    ∃ net', bindLoop net serverSocket result = (net', (result.getLast hne).serverSocket) ∧
      ∀ fd, (result.getLast hne).socket = some fd → ∃ sock, net'.find fd = some sock ∧ sock.bound = .unbound := by
  induction result generalizing net serverSocket with
  | nil => exact absurd rfl hne
  | cons first rest ih =>
    have hnot : ¬ first.Succeeds := by simpa using List.find?_eq_none.1 h first (by simp)
    have hrest : rest.find? (fun turn => turn.Succeeds) = none := by simpa [List.find?_cons, hnot] using h
    -- the turn leaves its own number in `server_socket`, and its socket unbound
    have hturn : ∃ net₁, bindLoop net serverSocket (first :: rest) = bindLoop net₁ first.serverSocket rest ∧
        ∀ fd, first.socket = some fd → ∃ sock, net₁.find fd = some sock ∧ sock.bound = .unbound := by
      cases hs : first.socket with
      | none =>
        refine ⟨net, ?_, by simp⟩
        simp only [bindLoop, hs, Turn.serverSocket]
      | some fd =>
        have hb : ¬ first.binds = true := fun hb => hnot ⟨by simp [hs], hb⟩
        refine ⟨net.socket fd first.addr, ?_, ?_⟩
        · simp only [bindLoop, hs, Turn.serverSocket, if_neg hb]
        · rintro _ ⟨⟩
          exact find_socket net fd first.addr
    obtain ⟨net₁, hloop, hunbound⟩ := hturn
    rw [hloop]
    cases rest with
    | nil => exact ⟨net₁, rfl, hunbound⟩
    | cons second rest =>
      rw [List.getLast_cons (List.cons_ne_nil second rest)]
      exact ih (List.cons_ne_nil second rest) hrest net₁ first.serverSocket

/-! ### What the constructor makes of it -/

theorem find_makeSocketNonBlocking (net : Net) (sfd : ℤ) :
    (makeSocketNonBlocking net sfd).1.find sfd =
      (net.find sfd).map fun s => { s with flags := s.flags ||| oNonblock } := by
  unfold makeSocketNonBlocking
  cases h : net.find sfd with
  | none => simp [h]
  | some s => simp [find_modify, h]

/-- A socket that is bound stays where it is bound. -/
theorem construct_of_bound {net net' net'' : Net} {dnsResolver : ℕ} {result : List Turn} {listens : Bool}
    {relay : TCPRelay} {fd : ℤ} {sock : Socket} (hloop : bindLoop net 0 result = (net', fd))
    (hfind : net'.find fd = some sock) (hbound : sock.bound ≠ .unbound)
    (h : construct net dnsResolver (.ok result) listens = .returns relay net'') :
    relay.serverSocket = fd ∧ ∃ sock', net''.find fd = some sock' ∧ sock'.bound = sock.bound := by
  have hnb := find_makeSocketNonBlocking net' fd
  rw [hfind] at hnb
  simp only [construct, hloop, Net.listen, hnb, Option.map_some, if_neg hbound] at h
  cases listens with
  | false => simp at h
  | true =>
    simp only [if_true, Outcome.returns.injEq] at h
    obtain ⟨rfl, rfl⟩ := h
    refine ⟨rfl, ?_⟩
    simp only [find_modify, hnb, Option.map_some]
    exact ⟨_, rfl, rfl⟩

/-- **The relay that is not bound looks like any other**: the constructor returns, whatever the kernel answers to
`listen()` otherwise, and the socket listens on an ephemeral port. -/
theorem construct_of_unbound {net net' : Net} {result : List Turn} {fd : ℤ} {sock : Socket}
    (hloop : bindLoop net 0 result = (net', fd)) (hfind : net'.find fd = some sock) (hbound : sock.bound = .unbound)
    (dnsResolver : ℕ) (listens : Bool) :
    ∃ net'' sock', construct net dnsResolver (.ok result) listens =
        .returns { loop := none, closed := false, dnsResolver, serverSocket := fd } net'' ∧
      net''.find fd = some sock' ∧ sock'.bound = .ephemeral ∧ sock'.listening = true := by
  have hnb := find_makeSocketNonBlocking net' fd
  rw [hfind] at hnb
  simp only [construct, hloop, Net.listen, hnb, Option.map_some, if_pos hbound]
  refine ⟨_, { sock with flags := sock.flags ||| oNonblock, bound := .ephemeral, listening := true }, rfl, ?_, rfl, rfl⟩
  rw [find_modify, hnb]
  rfl

/-- Without a socket the process ends. -/
theorem construct_of_invalid {net net' : Net} {result : List Turn} (hloop : bindLoop net 0 result = (net', -1))
    (dnsResolver : ℕ) (listens : Bool) : construct net dnsResolver (.ok result) listens = .abort := by
  have hnb := find_makeSocketNonBlocking net' (-1)
  have hnone : net'.find (-1) = none := rfl
  rw [hnone] at hnb
  simp only [construct, hloop, Net.listen, hnb, Option.map_none]

/-- **When a relay listens where it was told to.**  For every list of addresses and all answers of the kernel: each
relay that the constructor returns has in `server_socket` the socket of the first address that could be bound, bound
to it, exactly when there is such an address, or `socket()` fails for the last one. -/
theorem listens_where_told_iff (net : Net) (dnsResolver : ℕ) (result : List Turn) (hne : result ≠ []) :
    (∀ listens relay net', construct net dnsResolver (.ok result) listens = .returns relay net' →
      ListensWhereTold result relay net') ↔
    (∃ turn ∈ result, turn.Succeeds) ∨ (result.getLast hne).socket = none := by
  cases hf : result.find? (fun turn => turn.Succeeds) with
  | some turn =>
    have hsucceeds : ∃ turn ∈ result, turn.Succeeds :=
      ⟨turn, List.mem_of_find?_eq_some hf, by simpa using List.find?_some hf⟩
    refine iff_of_true ?_ (.inl hsucceeds)
    intro listens relay net' h
    obtain ⟨fd, net₁, sock, hloop, hs, hfind, hbound⟩ := bindLoop_of_find hf net 0
    obtain ⟨hrelay, sock', hfind', hbound'⟩ := construct_of_bound hloop hfind (by simp [hbound]) h
    exact ⟨turn, fd, sock', hf, hs, hrelay, by rw [hrelay, hfind'], by rw [hbound', hbound]⟩
  | none =>
    have hnone : ¬ ∃ turn ∈ result, turn.Succeeds := by simpa using hf
    obtain ⟨net₁, hloop, hunbound⟩ := bindLoop_of_none hne hf net 0
    cases hs : (result.getLast hne).socket with
    | none =>
      refine iff_of_true ?_ (.inr rfl)
      intro listens relay net' h
      rw [Turn.serverSocket, hs] at hloop
      rw [construct_of_invalid hloop] at h
      cases h
    | some fd =>
      refine iff_of_false ?_ (by simp [hnone])
      intro h
      obtain ⟨sock, hfind, hbound⟩ := hunbound fd hs
      rw [Turn.serverSocket, hs] at hloop
      obtain ⟨net₂, _, hreturns, -⟩ := construct_of_unbound hloop hfind hbound dnsResolver true
      obtain ⟨turn, _, _, hfound, -⟩ := h true _ net₂ hreturns
      rw [hf] at hfound
      cases hfound

/-- An address of the loopback interface, with port 8388. -/
def loopback : AddrInfo := { family := 2, socktype := 1, protocol := 6, addr := [2, 0, 32, 196, 127, 0, 0, 1] }

/-- The second `bind()` succeeds. -/
def boundSecond : List Turn := [⟨loopback, some 3, false⟩, ⟨loopback, some 4, true⟩]

/-- The relay listens with the second socket. -/
theorem listens_where_told_second : ∃ relay net,
    construct (fun _ => none) 1 (.ok boundSecond) true = .returns relay net ∧ relay.serverSocket = 4 ∧
      ListensWhereTold boundSecond relay net := by
  have hsucceeds : ∃ turn ∈ boundSecond, turn.Succeeds := ⟨⟨loopback, some 4, true⟩, by decide, by decide⟩
  have h := (listens_where_told_iff (fun _ => none) 1 boundSecond (by decide)).2 (.inl hsucceeds)
  exact ⟨_, _, rfl, rfl, h true _ _ rfl⟩

/-- The port is in use, and the relay listens on an ephemeral one. -/
theorem listens_elsewhere : ∃ relay net sock,
    construct (fun _ => none) 1 (.ok [⟨loopback, some 3, false⟩]) true = .returns relay net ∧
      net.find relay.serverSocket = some sock ∧ sock.bound = .ephemeral ∧ sock.listening = true ∧
      ¬ ListensWhereTold [⟨loopback, some 3, false⟩] relay net := by
  refine ⟨_, _, _, rfl, rfl, rfl, rfl, ?_⟩
  rintro ⟨turn, _, _, hfound, -⟩
  cases hfound

end Shadowc.TcpRelay
