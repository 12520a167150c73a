import Shadowc.Dns.Request

/-!
# `DNSResolver`

The members of the resolver and its operations on them.  A callback is a value of any type `Cb`: the resolver only
stores it and calls it.  The two `std::map`s are functions to `Option`, a pending vector is a list.

`Env` holds what the resolver finds in memory it has not written, and its process id.
-/

namespace Shadowc.Dns

open Lib Reading Memory

abbrev Host := List UInt8

structure Env where
  heap : Mem
  stack : Mem
  pid : ℕ

/-- Memory that holds zeros, process 1. -/
def Env.zero : Env := { heap := fun _ => 0, stack := fun _ => 0, pid := 1 }

structure Resolver (Cb : Type) where
  servers : List String
  numServers : ℕ
  loop : Option ℕ
  dnsSocket : ℤ
  hostnameToCb : Host → Option (List Cb)
  hostnameStatusMap : Host → Option ℤ

/-- A call `cb(hostname, ip)`. -/
structure Invocation (Cb : Type) where
  callback : Cb
  hostname : Host
  ip : String
  deriving DecidableEq, Repr

/-- The call with its callback renamed. -/
def Invocation.map {Cb Cb' : Type} (f : Cb → Cb') (i : Invocation Cb) : Invocation Cb' :=
  { callback := f i.callback, hostname := i.hostname, ip := i.ip }

def statusFirst : ℤ := 0

namespace Resolver

variable {Cb : Type}

/-- The constructor. -/
def init : Resolver Cb where
  servers := ["8.8.4.4", "8.8.8.8"]
  numServers := 2
  loop := none
  dnsSocket := 0
  hostnameToCb := fun _ => none
  hostnameStatusMap := fun _ => none

/-- The callbacks pending for a hostname. -/
def pending (s : Resolver Cb) (h : Host) : List Cb := (s.hostnameToCb h).getD []

def sendReq (env : Env) (s : Resolver Cb) (hostname : Host) (queryType : ℕ) : List Sent :=
  let (buf, len) := buildQuery env.stack env.pid hostname queryType
  (s.servers.take s.numServers).map fun server => { socket := s.dnsSocket, server, bytes := slice buf 0 len }

/-- `hostname_to_cb[hostname]->push_back(cb)` -/
def pushBack (s : Resolver Cb) (hostname : Host) (cb : Cb) : Resolver Cb :=
  { s with hostnameToCb := Function.update s.hostnameToCb hostname (some (s.pending hostname ++ [cb])) }

/-- The new state, and what is sent on the way. -/
def resolve (env : Env) (s : Resolver Cb) (hostname : Host) (cb : Cb) : Resolver Cb × List Sent :=
  match s.hostnameToCb hostname with
  | none =>
    let s := { s with
      hostnameToCb := Function.update s.hostnameToCb hostname (some [])
      hostnameStatusMap := Function.update s.hostnameStatusMap hostname (some statusFirst) }
    let sent := s.sendReq env hostname qtypeA
    (s.pushBack hostname cb, sent)
  | some _ =>
    let s := s.pushBack hostname cb
    (s, s.sendReq env hostname qtypeA)

/-- The new state, and the calls made.  The callbacks do not call back into the resolver. -/
def callCallback (s : Resolver Cb) (hostname : Host) (ip : String) : Resolver Cb × List (Invocation Cb) :=
  match s.hostnameToCb hostname with
  | none => (s, [])
  | some callbacks =>
    ({ s with
        hostnameToCb := Function.update s.hostnameToCb hostname (some [])
        hostnameStatusMap := Function.update s.hostnameStatusMap hostname none },
      callbacks.map fun callback => { callback, hostname, ip })

def handleData (env : Env) (s : Resolver Cb) (data : List UInt8) : Run (Resolver Cb × List (Invocation Cb)) := do
  let answers ← parseResponse env.heap data
  match ← firstAddress env.heap data answers with
  | some (hostname, ip) => return s.callCallback hostname ip
  | none => return (s, [])

/-! ### What the operations do to the pending callbacks -/

theorem pending_pushBack (s : Resolver Cb) (hostname : Host) (cb : Cb) (h : Host) :
    (s.pushBack hostname cb).pending h = if h = hostname then s.pending hostname ++ [cb] else s.pending h := by
  by_cases hh : h = hostname
  · subst hh
    simp [pending, pushBack]
  · simp [pending, pushBack, hh]

theorem pending_resolve (env : Env) (s : Resolver Cb) (hostname : Host) (cb : Cb) (h : Host) :
    (s.resolve env hostname cb).1.pending h = if h = hostname then s.pending hostname ++ [cb] else s.pending h := by
  unfold resolve
  cases hm : s.hostnameToCb hostname with
  | some cbs => exact pending_pushBack s hostname cb h
  | none =>
    simp only
    rw [pending_pushBack]
    by_cases hh : h = hostname
    · subst hh; simp [pending, hm]
    · simp [pending, hh]

/-- The calls made for a hostname are one for each pending callback, in order. -/
theorem callCallback_calls (s : Resolver Cb) (hostname : Host) (ip : String) :
    (s.callCallback hostname ip).2 = (s.pending hostname).map fun callback => { callback, hostname, ip } := by
  unfold callCallback
  cases hm : s.hostnameToCb hostname <;> simp [pending, hm]

theorem pending_callCallback (s : Resolver Cb) (hostname : Host) (ip : String) (h : Host) :
    (s.callCallback hostname ip).1.pending h = if h = hostname then [] else s.pending h := by
  unfold callCallback
  cases hm : s.hostnameToCb hostname with
  | none =>
    by_cases hh : h = hostname
    · subst hh; simp [pending, hm]
    · simp [hh]
  | some cbs =>
    by_cases hh : h = hostname
    · subst hh; simp [pending]
    · simp [pending, hh]

/-- **What `handle_data` can do**: nothing at all, or the calls for the owner of the first A record. -/
theorem handleData_cases {env : Env} {s s' : Resolver Cb} {data : List UInt8} {calls : List (Invocation Cb)}
    (h : s.handleData env data = .ok (s', calls)) :
    ∃ answers, parseResponse env.heap data = .ok answers ∧
      ((firstAddress env.heap data answers = .ok none ∧ s' = s ∧ calls = []) ∨
        ∃ hostname ip, firstAddress env.heap data answers = .ok (some (hostname, ip)) ∧
          s' = (s.callCallback hostname ip).1 ∧ calls = (s.callCallback hostname ip).2) := by
  obtain ⟨answers, hp, h⟩ := bind_eq_ok.1 h
  obtain ⟨first, hf, h⟩ := bind_eq_ok.1 h
  refine ⟨answers, hp, ?_⟩
  cases first with
  | none =>
    obtain ⟨rfl, rfl⟩ := Prod.mk.inj (Except.ok.inj h)
    exact .inl ⟨hf, rfl, rfl⟩
  | some p =>
    have e := (Except.ok.inj h).symm
    exact .inr ⟨p.1, p.2, hf, congrArg Prod.fst e, congrArg Prod.snd e⟩

/-! ### Renaming the callbacks -/

variable {Cb' : Type} (f : Cb → Cb')

/-- The resolver with every stored callback renamed. -/
def map (s : Resolver Cb) : Resolver Cb' where
  servers := s.servers
  numServers := s.numServers
  loop := s.loop
  dnsSocket := s.dnsSocket
  hostnameToCb h := (s.hostnameToCb h).map (List.map f)
  hostnameStatusMap := s.hostnameStatusMap

theorem map_update (m : Host → Option (List Cb)) (hostname : Host) (l : List Cb) :
    (fun h => (Function.update m hostname (some l) h).map (List.map f)) =
      Function.update (fun h => (m h).map (List.map f)) hostname (some (l.map f)) :=
  Function.comp_update (Option.map (List.map f)) m hostname (some l)

theorem pending_map (s : Resolver Cb) (h : Host) : (s.map f).pending h = (s.pending h).map f := by
  simp only [pending, map]
  cases s.hostnameToCb h <;> rfl

theorem map_pushBack (s : Resolver Cb) (hostname : Host) (cb : Cb) :
    (s.pushBack hostname cb).map f = (s.map f).pushBack hostname (f cb) := by
  rw [pushBack, pushBack, pending_map]
  simp only [map, map_update, List.map_append]
  rfl

theorem map_resolve (env : Env) (s : Resolver Cb) (hostname : Host) (cb : Cb) :
    (s.map f).resolve env hostname (f cb) =
      ((s.resolve env hostname cb).1.map f, (s.resolve env hostname cb).2) := by
  unfold resolve
  cases hm : s.hostnameToCb hostname with
  | some cbs =>
    simp only [map, hm, Option.map_some]
    exact Prod.ext (map_pushBack f s hostname cb).symm rfl
  | none =>
    simp only [map, hm, Option.map_none]
    refine Prod.ext ?_ rfl
    simp only
    rw [← map, map_pushBack]
    simp only [map, map_update]
    rfl

theorem map_callCallback (s : Resolver Cb) (hostname : Host) (ip : String) :
    (s.map f).callCallback hostname ip =
      ((s.callCallback hostname ip).1.map f, (s.callCallback hostname ip).2.map (Invocation.map f)) := by
  unfold callCallback
  cases hm : s.hostnameToCb hostname with
  | none => simp [map, hm]
  | some cbs =>
    simp only [map, hm, Option.map_some, List.map_map]
    refine Prod.ext ?_ rfl
    simp only [map_update]
    rfl

theorem map_handleData (env : Env) (s : Resolver Cb) (data : List UInt8) :
    (s.map f).handleData env data =
      (s.handleData env data).map fun p => (p.1.map f, p.2.map (Invocation.map f)) := by
  unfold handleData
  cases parseResponse env.heap data with
  | error e => rfl
  | ok answers =>
    simp only [Bind.bind, Except.bind]
    cases firstAddress env.heap data answers with
    | error e => rfl
    | ok first =>
      cases first with
      | none => rfl
      | some p => exact congrArg Except.ok (map_callCallback f s p.1 p.2)

end Resolver

end Shadowc.Dns
