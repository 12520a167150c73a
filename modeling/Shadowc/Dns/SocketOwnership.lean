import Shadowc.Dns.Resolution
import Shadowc.Dns.Sockets

/-!
# Who owns the number in `dns_socket`

`uses_step` says what a step adds to the list of what the resolver has done, and `newUses_own_iff` when it adds nothing
wrong.  `sockets_sound_iff` tells the runs in which the resolver keeps to its own descriptors, and
`not_sound_close_again` says that none of them closes the socket and calls `close` again later.
-/

namespace Shadowc.Dns

open Lib Reading EventLoop Transition

/-- The number is the resolver's own, and so is the handler, if there is one. -/
def Use.Own : Use → Prop
  | .close _ owner => ∃ serial, owner = some (.resolver serial)
  | .read _ owner => ∃ serial, owner = some (.resolver serial)
  | .remove _ handler => handler ≠ some .other

namespace Sockets

variable {Cb : Type}

/-- What the resolver has done, it has done to its own descriptors and handlers, and it has closed none of its
descriptors twice. -/
structure Sound (s : Sockets Cb) : Prop where
  own : ∀ u ∈ s.uses, u.Own
  once : (s.uses.filterMap Use.closes).Nodup

/-- An event for `dns_socket` comes, and `close` finds one, only as long as the socket is open; and `close` does not
find another handler under that number. -/
def Guarded (s : Sockets Cb) : SocketAct → Prop
  | .handleEvent _ evt _ => evt.fd = s.resolver.dnsSocket → s.live = true
  | .close => s.resolver.dnsSocket ≠ 0 → s.live = true ∧
      (s.resolver.loop ≠ none → s.loop.fdHandlerMap s.resolver.dnsSocket ≠ some .other)
  | _ => True

/-! ### One step -/

/-- What a step adds to the list. -/
def newUses (s : Sockets Cb) : SocketAct → List Use
  | .handleEvent _ evt _ =>
    if s.resolver.dnsSocket ≠ evt.fd then []
    else if evt.events &&& epollErr ≠ 0 then [.close evt.fd (s.owner evt.fd)]
    else [.read evt.fd (s.owner evt.fd)]
  | .close =>
    let fd := s.resolver.dnsSocket
    if fd = 0 then []
    else if s.resolver.loop = none then [.close fd (s.owner fd)]
    else [.close fd (s.owner fd), .remove fd (s.loop.fdHandlerMap fd)]
  | _ => []

theorem uses_createDnsSocket {s t : Sockets Cb} {answer : Option ℕ} (h : s.createDnsSocket answer = some t) :
    t.uses = s.uses := by
  obtain ⟨_, -, rfl⟩ := Option.map_eq_some_iff.1 h
  dsimp only
  split
  · cases answer <;> rfl
  · rfl

theorem uses_step {s t : Sockets Cb} {act : SocketAct} (h : s.Steps act t) : t.uses = s.uses ++ s.newUses act := by
  cases act with
  | createDnsSocket answer => simpa [newUses] using uses_createDnsSocket h
  | addToLoop loop answer =>
    simp only [newUses, List.append_nil]
    simp only [Steps, step, addToLoop] at h
    split at h
    · cases h
      rfl
    · obtain ⟨u, hu, rfl⟩ := Option.map_eq_some_iff.1 h
      show u.uses = s.uses
      exact uses_createDnsSocket hu
  | handleEvent env evt received =>
    obtain rfl := Option.some.inj h
    rcases handleEvent_cases s env evt received with ⟨hfd, he⟩ | ⟨hfd, herr, he⟩ | ⟨hfd, herr, resolver, -, he⟩
    · simp [he, newUses, hfd]
    · simp [he, newUses, hfd, herr, closed]
    · simp [he, newUses, hfd, herr]
  | close =>
    obtain rfl := Option.some.inj h
    by_cases hd : s.resolver.dnsSocket = 0
    · simp [close, newUses, hd]
    · by_cases hl : s.resolver.loop = none <;> simp [close, closed, newUses, hd, hl]
  | others act =>
    simp only [newUses, List.append_nil]
    simp only [Steps, step, others] at h
    split at h
    · obtain ⟨loop, -, rfl⟩ := Option.map_eq_some_iff.1 h
      rfl
    · cases h

/-- Closing and reading `dns_socket` is right as long as its socket is live. -/
theorem newUses_own_iff {s : Sockets Cb} (hs : s.Books) (act : SocketAct) :
    (∀ u ∈ s.newUses act, u.Own) ↔ s.Guarded act := by
  cases act with
  | handleEvent env evt received =>
    by_cases hfd : s.resolver.dnsSocket = evt.fd
    · have hlive := hs.live
      rw [hfd] at hlive
      by_cases herr : evt.events &&& epollErr = 0 <;> simp [newUses, Guarded, Use.Own, hfd, herr, hlive]
    · have hfd' : evt.fd ≠ s.resolver.dnsSocket := fun h => hfd h.symm
      simp [newUses, Guarded, hfd, hfd']
  | close =>
    by_cases hd : s.resolver.dnsSocket = 0
    · simp [newUses, Guarded, hd]
    · by_cases hl : s.resolver.loop = none <;> simp [newUses, Guarded, Use.Own, hd, hl, hs.live]
  | createDnsSocket | addToLoop | others => simp [newUses, Guarded]

theorem owner_of_mem_newUses {s : Sockets Cb} {act : SocketAct} {fd : ℤ} {owner : Option Owner}
    (h : .close fd owner ∈ s.newUses act) : s.owner fd = owner := by
  unfold newUses at h
  split at h
  · split at h
    · simp at h
    · split at h
      · obtain ⟨rfl, rfl⟩ : fd = _ ∧ owner = _ := by simpa using h
        rfl
      · simp at h
  · dsimp only at h
    split at h
    · simp at h
    · split at h <;>
      · obtain ⟨rfl, rfl⟩ : fd = _ ∧ owner = _ := by simpa using h
        rfl
  · simp at h

/-- No step closes two descriptors. -/
theorem nodup_newUses (s : Sockets Cb) (act : SocketAct) : ((s.newUses act).filterMap Use.closes).Nodup := by
  have hone : ∀ u : Use, ([u].filterMap Use.closes).Nodup := by
    intro u
    cases h : u.closes <;> simp [h]
  unfold newUses
  split
  · split
    · simp
    · split <;> exact hone _
  · dsimp only
    split
    · simp
    · split
      · exact hone _
      · simpa [List.filterMap_cons] using hone (.close s.resolver.dnsSocket (s.owner s.resolver.dnsSocket))
  · simp

/-- **A step keeps to the resolver's own descriptors** exactly when it is guarded. -/
theorem sound_step {s t : Sockets Cb} {act : SocketAct} (hs : s.Books) (hsound : s.Sound) (h : s.Steps act t) :
    t.Sound ↔ s.Guarded act := by
  rw [← newUses_own_iff hs act]
  have huses := uses_step h
  constructor
  · intro ht u hu
    apply ht.own
    rw [huses]
    exact List.mem_append_right _ hu
  · intro hown
    refine ⟨?_, ?_⟩
    · intro u hu
      rw [huses] at hu
      rcases List.mem_append.1 hu with hu | hu
      · exact hsound.own u hu
      · exact hown u hu
    · rw [huses, List.filterMap_append, List.nodup_append]
      refine ⟨hsound.once, s.nodup_newUses act, ?_⟩
      rintro serial hold _ hnew rfl
      obtain ⟨u, hu, hcloses⟩ := List.mem_filterMap.1 hnew
      obtain ⟨fd, rfl⟩ := Use.closes_eq_some.1 hcloses
      exact (hs.closed serial hold).2 fd (owner_of_mem_newUses hu)

/-! ### A socket that is closed -/

/-- Once `dns_socket` is set it stays as it is, and its socket is not opened again. -/
theorem live_step {s t : Sockets Cb} {act : SocketAct} (hd : s.resolver.dnsSocket ≠ 0) (h : s.Steps act t) :
    t.resolver.dnsSocket = s.resolver.dnsSocket ∧ (s.live = false → t.live = false) := by
  cases act with
  | createDnsSocket answer =>
    obtain rfl := Option.some.inj ((createDnsSocket_again hd answer).symm.trans h)
    exact ⟨rfl, id⟩
  | addToLoop loop answer =>
    simp only [Steps, step, addToLoop, createDnsSocket_again hd] at h
    split at h <;> cases h <;> exact ⟨rfl, id⟩
  | handleEvent env evt received =>
    obtain rfl := Option.some.inj h
    rcases handleEvent_cases s env evt received with ⟨-, he⟩ | ⟨-, -, he⟩ | ⟨-, -, resolver, hr, he⟩
    · rw [he]
      exact ⟨rfl, id⟩
    · rw [he]
      exact ⟨rfl, fun _ => rfl⟩
    · rw [he]
      exact ⟨hr, id⟩
  | close =>
    obtain rfl := Option.some.inj h
    by_cases hl : s.resolver.loop = none <;> simp [close, closed, hd, hl]
  | others act =>
    simp only [Steps, step, others] at h
    split at h
    · obtain ⟨loop, -, rfl⟩ := Option.map_eq_some_iff.1 h
      exact ⟨rfl, id⟩
    · cases h

/-- A socket that has been closed stays so for the rest of the run. -/
theorem closed_for_good {s t : Sockets Cb} {acts : List SocketAct} (h : Runs Steps s acts t)
    (hd : s.resolver.dnsSocket ≠ 0) (hl : s.live = false) : t.resolver.dnsSocket ≠ 0 ∧ t.live = false := by
  refine h.induction (P := fun s => s.resolver.dnsSocket ≠ 0 ∧ s.live = false) ?_ ⟨hd, hl⟩
  rintro s act t ⟨hd, hl⟩ hst
  obtain ⟨hsocket, hlive⟩ := live_step hd hst
  exact ⟨by rwa [hsocket], hlive hl⟩

/-- **After an error event or a `close`, each later `close` does harm**, whatever happens in between. -/
theorem not_sound_close_again {k : Kernel} {s t : Sockets Cb} {acts acts' : List SocketAct}
    (hs : Runs Steps (start k) acts s) (hd : s.resolver.dnsSocket ≠ 0) (hl : s.live = false)
    (ht : Runs Steps s acts' t) : ¬ t.close.Sound := by
  have hbooks : t.Books := books_run (hs.append ht)
  obtain ⟨hd, hl⟩ := closed_for_good ht hd hl
  intro hsound
  have hclose : t.Steps .close t.close := rfl
  have hown : ∀ u ∈ t.newUses .close, u.Own := by
    intro u hu
    apply hsound.own
    rw [uses_step hclose]
    exact List.mem_append_right _ hu
  have hguarded := (newUses_own_iff hbooks .close).1 hown hd
  rw [hl] at hguarded
  cases hguarded.1

/-! ### Whole runs -/

/-- **When the resolver keeps to its own descriptors.**  Along every run of calls of `create_dns_socket`,
`add_to_loop`, `handle_event` and `close` between which other components open, register and close descriptors: in all
states that are reached the resolver has closed none of its descriptors twice, has closed and read no number that was
not its own and has removed no other handler, exactly when each event for `dns_socket`, and each `close` after it has
been set, comes as long as its socket is open, and no such `close` finds another handler in the loop. -/
theorem sockets_sound_iff (k : Kernel) (acts : List SocketAct) :
    (∀ pre post s, acts = pre ++ post → Runs Steps (start k : Sockets Cb) pre s → s.Sound) ↔
      Along Steps Guarded (start k : Sockets Cb) acts := by
  apply forall_reached_iff (I := Books)
  · intro s act t hs h
    exact books_step hs h
  · intro s act t hs hsound h
    exact sound_step hs hsound h
  · intro s act hnot
    cases act with
    | handleEvent env evt received => exact ⟨_, rfl⟩
    | close => exact ⟨_, rfl⟩
    | createDnsSocket | addToLoop | others => exact absurd trivial hnot
  · exact books_start k
  · exact ⟨by simp [start], by simp [start]⟩

/-- The socket gets the number 5, and there is an error event for it.  Another component opens a descriptor, which
gets the number 5 again, and registers it.  Then `close` is called. -/
def closedAfterError : List SocketAct :=
  [.addToLoop 1 (some 5), .handleEvent .zero ⟨epollErr, 5⟩ ⟨-1, []⟩, .others (.openFd 5 true),
    .others (.add 5 epollIn .other), .close]

/-- `close` closes the descriptor of the other component. -/
theorem closes_foreign : ∃ s : Sockets Unit, Runs Steps (start .fresh) closedAfterError s ∧
    s.uses = [.close 5 (some (.resolver 0)), .close 5 (some .other), .remove 5 (some .resolver)] ∧ ¬ s.Sound := by
  have hrun : Runs Steps (start .fresh : Sockets Unit) closedAfterError _ :=
    .cons rfl (.cons rfl (.cons rfl (.cons rfl (.cons rfl .nil))))
  refine ⟨_, hrun, rfl, ?_⟩
  intro hsound
  obtain ⟨serial, h⟩ := hsound.own (.close 5 (some .other)) (by decide)
  cases h

end Sockets

end Shadowc.Dns
