import Shadowc.Dns.Resolution
import Shadowc.Lib.Growable

/-!
# Callbacks that call `resolve`

`call_callback` walks the vector of a host name with an iterator, while the callbacks it calls may register further
ones, in the same vector or in others.  Here the pending callbacks are kept in vectors with a capacity
(`VectorResolver`); forgetting it gives the resolver of the other modules (`toResolver_resolve`,
`toResolver_callCallback`).

What the callbacks do is a list of calls of `resolve` for each turn of the walk.  The walk goes on until it has caught
up with the registrations for its own host name.  It does so, with nothing lost and nothing called twice, exactly when
that happens within the capacity the vector has (`reentrant_iff`); otherwise a registration moves the vector, and the
iterator is advanced after that.
-/

namespace Shadowc.Dns

open Lib Growable

/-- The members of the resolver, with vectors for the lists. -/
structure VectorResolver (Cb : Type) where
  servers : List String
  numServers : ℕ
  loop : Option ℕ
  dnsSocket : ℤ
  hostnameToCb : Host → Option (Vec Cb)
  hostnameStatusMap : Host → Option ℤ

/-- A call of `resolve` in a callback. -/
structure Nested (Cb : Type) where
  env : Env
  hostname : Host
  cb : Cb

/-- Use of an iterator that is invalid, or a loop without an end. -/
inductive Fault where
  | invalidIterator | endless
  deriving DecidableEq, Repr

def orInvalid {α : Type} : Option α → Except Fault α
  | some a => .ok a
  | none => .error .invalidIterator

namespace VectorResolver

variable {Cb : Type}

def init : VectorResolver Cb where
  servers := ["8.8.4.4", "8.8.8.8"]
  numServers := 2
  loop := none
  dnsSocket := 0
  hostnameToCb := fun _ => none
  hostnameStatusMap := fun _ => none

/-- The lists alone. -/
def toResolver (s : VectorResolver Cb) : Resolver Cb where
  servers := s.servers
  numServers := s.numServers
  loop := s.loop
  dnsSocket := s.dnsSocket
  hostnameToCb h := (s.hostnameToCb h).map Vec.elems
  hostnameStatusMap := s.hostnameStatusMap

/-- The vector of a host name, empty when there is none. -/
def vector (s : VectorResolver Cb) (h : Host) : Vec Cb := (s.hostnameToCb h).getD .empty

/-- The callbacks pending for a host name. -/
def pending (s : VectorResolver Cb) (h : Host) : List Cb := (s.vector h).elems

/-- `hostname_to_cb[hostname]->push_back(cb)` -/
def pushBack (g : Growth) (s : VectorResolver Cb) (hostname : Host) (cb : Cb) : VectorResolver Cb :=
  { s with hostnameToCb := Function.update s.hostnameToCb hostname (some ((s.vector hostname).pushBack g cb)) }

/-- The new state, and what is sent on the way. -/
def resolve (g : Growth) (env : Env) (s : VectorResolver Cb) (hostname : Host) (cb : Cb) :
    VectorResolver Cb × List Sent :=
  match s.hostnameToCb hostname with
  | none =>
    let s := { s with
      hostnameToCb := Function.update s.hostnameToCb hostname (some .empty)
      hostnameStatusMap := Function.update s.hostnameStatusMap hostname (some statusFirst) }
    let sent := s.toResolver.sendReq env hostname qtypeA
    (s.pushBack g hostname cb, sent)
  | some _ =>
    let s := s.pushBack g hostname cb
    (s, s.toResolver.sendReq env hostname qtypeA)

/-- What one callback does: calls of `resolve`, one after the other. -/
def resolveAll (g : Growth) (s : VectorResolver Cb) : List (Nested Cb) → VectorResolver Cb × List Sent
  | [] => (s, [])
  | r :: rs =>
    let (s, sent) := s.resolve g r.env r.hostname r.cb
    let (s, sent') := s.resolveAll g rs
    (s, sent ++ sent')

/-- `for (; cb_iter != callbacks->end(); ++cb_iter) (*cb_iter)(hostname, ip);` for at most `n` turns.  The callback that
is called in turn `k` does `behaviour k`. -/
def callbackLoop (g : Growth) (behaviour : ℕ → List (Nested Cb)) (hostname : Host) (ip : String) :
    ℕ → VectorResolver Cb → Iter → ℕ → Except Fault (VectorResolver Cb × List (Invocation Cb) × List Sent)
  | 0, _, _, _ => .error .endless
  | n + 1, s, cbIter, k =>
    if cbIter = (s.vector hostname).endIter then .ok (s, [], [])
    else do
      let callback ← orInvalid ((s.vector hostname).deref cbIter)
      let (s, sent) := s.resolveAll g (behaviour k)
      let cbIter ← orInvalid ((s.vector hostname).advance cbIter)
      let (s, calls, sent') ← callbackLoop g behaviour hostname ip n s cbIter (k + 1)
      return (s, { callback, hostname, ip } :: calls, sent ++ sent')

/-- `callbacks->clear(); hostname_status_map.erase(hostname);` -/
def finish (s : VectorResolver Cb) (hostname : Host) : VectorResolver Cb :=
  { s with
    hostnameToCb := Function.update s.hostnameToCb hostname (some (s.vector hostname).clear)
    hostnameStatusMap := Function.update s.hostnameStatusMap hostname none }

/-- The new state, the calls made, and what is sent on the way. -/
def callCallback (g : Growth) (behaviour : ℕ → List (Nested Cb)) (s : VectorResolver Cb) (hostname : Host)
    (ip : String) : Except Fault (VectorResolver Cb × List (Invocation Cb) × List Sent) :=
  match s.hostnameToCb hostname with
  | none => .ok (s, [], [])
  | some callbacks => do
    let (s, calls, sent) ← callbackLoop g behaviour hostname ip (callbacks.capacity + 1) s callbacks.beginIter 0
    return (s.finish hostname, calls, sent)

/-! ### The lists alone -/

theorem toResolver_pending (s : VectorResolver Cb) (h : Host) : s.toResolver.pending h = s.pending h := by
  simp only [Resolver.pending, toResolver, pending, vector]
  cases s.hostnameToCb h <;> rfl

theorem map_elems_update (m : Host → Option (Vec Cb)) (hostname : Host) (v : Vec Cb) :
    (fun h => (Function.update m hostname (some v) h).map Vec.elems) =
      Function.update (fun h => (m h).map Vec.elems) hostname (some v.elems) :=
  Function.comp_update (Option.map Vec.elems) m hostname (some v)

theorem toResolver_pushBack (g : Growth) (s : VectorResolver Cb) (hostname : Host) (cb : Cb) :
    (s.pushBack g hostname cb).toResolver = s.toResolver.pushBack hostname cb := by
  rw [Resolver.pushBack, toResolver_pending]
  simp only [pushBack, toResolver, map_elems_update, Vec.elems_pushBack]
  rfl

/-- **`resolve` does what it does to lists**, wherever the vector is kept. -/
theorem toResolver_resolve (g : Growth) (env : Env) (s : VectorResolver Cb) (hostname : Host) (cb : Cb) :
    ((s.resolve g env hostname cb).1.toResolver, (s.resolve g env hostname cb).2) =
      s.toResolver.resolve env hostname cb := by
  unfold resolve Resolver.resolve
  cases hm : s.hostnameToCb hostname with
  | some callbacks =>
    have hm' : s.toResolver.hostnameToCb hostname = some callbacks.elems := by simp [toResolver, hm]
    simp only [hm']
    rw [toResolver_pushBack]
  | none =>
    have hm' : s.toResolver.hostnameToCb hostname = none := by simp [toResolver, hm]
    simp only [hm']
    rw [toResolver_pushBack]
    simp only [toResolver, map_elems_update]
    rfl

/-! ### Registrations -/

/-- The callbacks that are registered for a host name. -/
def registered (h : Host) (rs : List (Nested Cb)) : List Cb := (rs.filter fun r => r.hostname = h).map Nested.cb

theorem registered_append (h : Host) (rs rs' : List (Nested Cb)) :
    registered h (rs ++ rs') = registered h rs ++ registered h rs' := by
  simp [registered]

variable (g : Growth)

theorem vector_pushBack (s : VectorResolver Cb) (hostname : Host) (cb : Cb) (h : Host) :
    (s.pushBack g hostname cb).vector h =
      if h = hostname then (s.vector hostname).pushBack g cb else s.vector h := by
  by_cases hh : h = hostname
  · subst hh
    simp [vector, pushBack]
  · simp [vector, pushBack, hh]

theorem vector_resolve (env : Env) (s : VectorResolver Cb) (hostname : Host) (cb : Cb) (h : Host) :
    (s.resolve g env hostname cb).1.vector h =
      if h = hostname then (s.vector hostname).pushBack g cb else s.vector h := by
  unfold resolve
  cases hm : s.hostnameToCb hostname with
  | some callbacks => exact vector_pushBack g s hostname cb h
  | none =>
    simp only
    rw [vector_pushBack]
    by_cases hh : h = hostname
    · subst hh
      simp [vector, hm]
    · simp [vector, hh]

/-- **What the calls of `resolve` in a callback do to a vector**: the registrations for its host name are appended. -/
theorem vector_resolveAll (s : VectorResolver Cb) (rs : List (Nested Cb)) (h : Host) :
    (s.resolveAll g rs).1.vector h = (s.vector h).pushAll g (registered h rs) := by
  induction rs generalizing s with
  | nil => rfl
  | cons r rs ih =>
    show ((s.resolve g r.env r.hostname r.cb).1.resolveAll g rs).1.vector h = _
    rw [ih, vector_resolve]
    by_cases hr : r.hostname = h
    · subst hr
      have hreg : registered r.hostname (r :: rs) = r.cb :: registered r.hostname rs := by simp [registered]
      rw [if_pos rfl, hreg, Vec.pushAll_cons]
    · rw [if_neg (Ne.symm hr)]
      simp [registered, hr]

theorem resolveAll_append (s : VectorResolver Cb) (rs rs' : List (Nested Cb)) :
    s.resolveAll g (rs ++ rs') = (((s.resolveAll g rs).1.resolveAll g rs').1,
      (s.resolveAll g rs).2 ++ ((s.resolveAll g rs).1.resolveAll g rs').2) := by
  induction rs generalizing s with
  | nil => rfl
  | cons r rs ih =>
    simp only [List.cons_append, resolveAll]
    rw [ih]
    simp

/-! ### The walk -/

/-- What the callbacks do in the `n` turns from turn `k` on. -/
def during (behaviour : ℕ → List (Nested Cb)) (k n : ℕ) : List (Nested Cb) := (List.range' k n).flatMap behaviour

theorem during_succ (behaviour : ℕ → List (Nested Cb)) (k n : ℕ) :
    during behaviour k (n + 1) = behaviour k ++ during behaviour (k + 1) n := by
  rw [during, List.range'_succ, List.flatMap_cons]
  rfl

/-- After `n` more turns the walk, which stands at index `i`, has caught up with the registrations, and the vector has
had room for them. -/
def CaughtUp (behaviour : ℕ → List (Nested Cb)) (hostname : Host) (v : Vec Cb) (i k n : ℕ) : Prop :=
  i + n = v.elems.length + (registered hostname (during behaviour k n)).length ∧ i + n ≤ v.capacity

variable {g} {behaviour : ℕ → List (Nested Cb)} {hostname : Host} {ip : String}

/-- A turn in which the vector keeps its storage moves the iterator on. -/
theorem callbackLoop_step {fuel i k : ℕ} {s : VectorResolver Cb} {callback : Cb}
    (hi : (s.pending hostname)[i]? = some callback)
    (hroom : (s.pending hostname).length + (registered hostname (behaviour k)).length ≤ (s.vector hostname).capacity) :
    callbackLoop g behaviour hostname ip (fuel + 1) s ⟨(s.vector hostname).generation, i⟩ k =
      (callbackLoop g behaviour hostname ip fuel (s.resolveAll g (behaviour k)).1
        ⟨((s.resolveAll g (behaviour k)).1.vector hostname).generation, i + 1⟩ (k + 1)).map fun r =>
          (r.1, { callback, hostname, ip } :: r.2.1, (s.resolveAll g (behaviour k)).2 ++ r.2.2) := by
  have hlt : i < (s.pending hostname).length := (List.getElem?_eq_some_iff.1 hi).1
  have hne : (⟨(s.vector hostname).generation, i⟩ : Iter) ≠ (s.vector hostname).endIter := by
    intro h
    exact absurd (congrArg Iter.index h) hlt.ne
  have hderef : (s.vector hostname).deref ⟨(s.vector hostname).generation, i⟩ = some callback := by
    rw [Vec.deref, if_pos rfl]
    exact hi
  have hgen : ((s.resolveAll g (behaviour k)).1.vector hostname).generation = (s.vector hostname).generation := by
    rw [vector_resolveAll]
    exact (Vec.pushAll_room g hroom).1
  have hlt' : i < ((s.resolveAll g (behaviour k)).1.vector hostname).elems.length := by
    rw [vector_resolveAll, Vec.elems_pushAll, List.length_append]
    exact Nat.lt_add_right _ hlt
  have hadvance : ((s.resolveAll g (behaviour k)).1.vector hostname).advance ⟨(s.vector hostname).generation, i⟩ =
      some ⟨((s.resolveAll g (behaviour k)).1.vector hostname).generation, i + 1⟩ := by
    rw [Vec.advance, if_pos ⟨hgen.symm, hlt'⟩, hgen]
  rw [callbackLoop, if_neg hne, hderef]
  simp only [orInvalid, hadvance, Bind.bind, Except.bind]
  rfl

/-- A turn in which the vector is moved is the last: the iterator is advanced after that. -/
theorem callbackLoop_moved {fuel i k : ℕ} {s : VectorResolver Cb} (hi : i < (s.pending hostname).length)
    (hfull : (s.vector hostname).capacity < (s.pending hostname).length + (registered hostname (behaviour k)).length) :
    callbackLoop g behaviour hostname ip (fuel + 1) s ⟨(s.vector hostname).generation, i⟩ k =
      .error .invalidIterator := by
  have hne : (⟨(s.vector hostname).generation, i⟩ : Iter) ≠ (s.vector hostname).endIter := by
    intro h
    exact absurd (congrArg Iter.index h) hi.ne
  have hderef : (s.vector hostname).deref ⟨(s.vector hostname).generation, i⟩ = some ((s.pending hostname)[i]) := by
    rw [Vec.deref, if_pos rfl]
    exact List.getElem?_eq_getElem hi
  have hgen : (s.vector hostname).generation < ((s.resolveAll g (behaviour k)).1.vector hostname).generation := by
    rw [vector_resolveAll]
    exact Vec.pushAll_full g hfull
  have hadvance : ((s.resolveAll g (behaviour k)).1.vector hostname).advance ⟨(s.vector hostname).generation, i⟩ =
      none := by
    rw [Vec.advance, if_neg]
    rintro ⟨h, -⟩
    exact hgen.ne h
  rw [callbackLoop, if_neg hne, hderef]
  simp only [orInvalid, hadvance, Bind.bind, Except.bind]

theorem CaughtUp.exists_succ {v : Vec Cb} {i k n : ℕ} (h : CaughtUp behaviour hostname v i k n)
    (hi : i < v.elems.length) : ∃ m, n = m + 1 := by
  cases n with
  | zero =>
    have hlen : i = v.elems.length := by simpa [during, registered] using h.1
    omega
  | succ m => exact ⟨m, rfl⟩

/-- A turn for which there is room counts as one. -/
theorem caughtUp_succ {v : Vec Cb} {i k n : ℕ}
    (hroom : v.elems.length + (registered hostname (behaviour k)).length ≤ v.capacity) :
    CaughtUp behaviour hostname v i k (n + 1) ↔
      CaughtUp behaviour hostname (v.pushAll g (registered hostname (behaviour k))) (i + 1) (k + 1) n := by
  have hcap := (Vec.pushAll_room g hroom).2
  rw [CaughtUp, CaughtUp, hcap, during_succ, registered_append, List.length_append, Vec.elems_pushAll,
    List.length_append]
  omega

/-- A turn for which there is no room is not made up for. -/
theorem not_caughtUp_succ {v : Vec Cb} {i k n : ℕ}
    (hfull : v.capacity < v.elems.length + (registered hostname (behaviour k)).length) :
    ¬ CaughtUp behaviour hostname v i k (n + 1) := by
  rintro ⟨hn, hcap⟩
  rw [during_succ, registered_append, List.length_append] at hn
  omega

theorem pending_resolveAll (s : VectorResolver Cb) (rs : List (Nested Cb)) (h : Host) :
    (s.resolveAll g rs).1.pending h = s.pending h ++ registered h rs := by
  rw [pending, vector_resolveAll, Vec.elems_pushAll]
  rfl

/-- How the walk can end, when it stands at index `i` before turn `k`: once it has caught up, with the calls from that
index on, or, when it does not, with an invalid iterator. -/
inductive WalkEnds (g : Growth) (behaviour : ℕ → List (Nested Cb)) (hostname : Host) (ip : String)
    (s : VectorResolver Cb) (i k : ℕ) : Except Fault (VectorResolver Cb × List (Invocation Cb) × List Sent) → Prop
  | caughtUp {n : ℕ} : CaughtUp behaviour hostname (s.vector hostname) i k n →
      WalkEnds g behaviour hostname ip s i k (.ok ((s.resolveAll g (during behaviour k n)).1,
        ((s.pending hostname ++ registered hostname (during behaviour k n)).drop i).map
          fun callback => { callback, hostname, ip },
        (s.resolveAll g (during behaviour k n)).2))
  | moved : (∀ n, ¬ CaughtUp behaviour hostname (s.vector hostname) i k n) →
      WalkEnds g behaviour hostname ip s i k (.error .invalidIterator)

/-- At the end of the vector the walk is over. -/
theorem walkEnds_here (s : VectorResolver Cb) (k : ℕ) :
    WalkEnds g behaviour hostname ip s (s.pending hostname).length k (.ok (s, [], [])) := by
  have hn : CaughtUp behaviour hostname (s.vector hostname) (s.pending hostname).length k 0 :=
    ⟨rfl, (s.vector hostname).length_le⟩
  have h : WalkEnds g behaviour hostname ip s (s.pending hostname).length k _ := .caughtUp hn
  simpa [during, registered, resolveAll] using h

/-- A turn for which there is room comes before the turns that follow. -/
theorem WalkEnds.turn {i k : ℕ} {s : VectorResolver Cb} {callback : Cb}
    {r : Except Fault (VectorResolver Cb × List (Invocation Cb) × List Sent)}
    (hi : (s.pending hostname)[i]? = some callback)
    (hroom : (s.pending hostname).length + (registered hostname (behaviour k)).length ≤ (s.vector hostname).capacity)
    (h : WalkEnds g behaviour hostname ip (s.resolveAll g (behaviour k)).1 (i + 1) (k + 1) r) :
    WalkEnds g behaviour hostname ip s i k (r.map fun r =>
      (r.1, { callback, hostname, ip } :: r.2.1, (s.resolveAll g (behaviour k)).2 ++ r.2.2)) := by
  obtain ⟨hlt, hget⟩ := List.getElem?_eq_some_iff.1 hi
  have hv := vector_resolveAll g s (behaviour k) hostname
  have hp := pending_resolveAll (g := g) s (behaviour k) hostname
  cases h with
  | @caughtUp n hn =>
    rw [hv, ← caughtUp_succ hroom] at hn
    have hall : s.pending hostname ++ registered hostname (during behaviour k (n + 1)) =
        (s.resolveAll g (behaviour k)).1.pending hostname ++ registered hostname (during behaviour (k + 1) n) := by
      rw [during_succ, registered_append, ← List.append_assoc, hp]
    have hdrop : (s.pending hostname ++ registered hostname (during behaviour k (n + 1))).drop i =
        callback :: (s.pending hostname ++ registered hostname (during behaviour k (n + 1))).drop (i + 1) := by
      rw [List.drop_eq_getElem_cons (by rw [List.length_append]; omega), List.getElem_append_left hlt, hget]
    have hend : WalkEnds g behaviour hostname ip s i k _ := .caughtUp hn
    rw [hdrop, hall, during_succ, resolveAll_append] at hend
    exact hend
  | moved hnone =>
    apply WalkEnds.moved
    intro n hn
    obtain ⟨m, rfl⟩ := hn.exists_succ hlt
    rw [caughtUp_succ (g := g) hroom, ← hv] at hn
    exact hnone m hn

/-- **How the walk ends**, with enough turns. -/
theorem walkEnds_callbackLoop (fuel : ℕ) : ∀ {i k : ℕ} {s : VectorResolver Cb}, i ≤ (s.pending hostname).length →
    (s.vector hostname).capacity < i + fuel → WalkEnds g behaviour hostname ip s i k
      (callbackLoop g behaviour hostname ip fuel s ⟨(s.vector hostname).generation, i⟩ k) := by
  induction fuel with
  | zero =>
    intro i k s hi hfuel
    have hle : (s.pending hostname).length ≤ (s.vector hostname).capacity := (s.vector hostname).length_le
    omega
  | succ fuel ih =>
    intro i k s hi hfuel
    rcases hi.eq_or_lt with rfl | hlt
    · have hend : (⟨(s.vector hostname).generation, (s.pending hostname).length⟩ : Iter) =
        (s.vector hostname).endIter := rfl
      rw [callbackLoop, if_pos hend]
      exact walkEnds_here s k
    by_cases hroom : (s.pending hostname).length + (registered hostname (behaviour k)).length ≤
      (s.vector hostname).capacity
    · have hget : (s.pending hostname)[i]? = some (s.pending hostname)[i] := List.getElem?_eq_getElem hlt
      rw [callbackLoop_step hget hroom]
      apply WalkEnds.turn hget hroom
      apply ih
      · rw [pending_resolveAll, List.length_append]
        omega
      · rw [vector_resolveAll, (Vec.pushAll_room g hroom).2]
        omega
    · have hfull := Nat.lt_of_not_le hroom
      rw [callbackLoop_moved hlt hfull]
      apply WalkEnds.moved
      intro n hn
      obtain ⟨m, rfl⟩ := hn.exists_succ hlt
      exact not_caughtUp_succ hfull hn

/-! ### The call -/

theorem callCallback_none {s : VectorResolver Cb} (hm : s.hostnameToCb hostname = none) :
    s.callCallback g behaviour hostname ip = .ok (s, [], []) := by
  rw [callCallback, hm]

/-- What `call_callback` does for a host name it finds. -/
theorem callCallback_outcome (g : Growth) (behaviour : ℕ → List (Nested Cb)) (ip : String) {s : VectorResolver Cb}
    {callbacks : Vec Cb} (hm : s.hostnameToCb hostname = some callbacks) :
    (∃ n, CaughtUp behaviour hostname (s.vector hostname) 0 0 n ∧
      s.callCallback g behaviour hostname ip = .ok ((s.resolveAll g (during behaviour 0 n)).1.finish hostname,
        (s.pending hostname ++ registered hostname (during behaviour 0 n)).map
          fun callback => { callback, hostname, ip },
        (s.resolveAll g (during behaviour 0 n)).2)) ∨
    ((∀ n, ¬ CaughtUp behaviour hostname (s.vector hostname) 0 0 n) ∧
      s.callCallback g behaviour hostname ip = .error .invalidIterator) := by
  have hv : s.vector hostname = callbacks := by rw [vector, hm, Option.getD_some]
  have hcall : s.callCallback g behaviour hostname ip =
      (callbackLoop g behaviour hostname ip (callbacks.capacity + 1) s ⟨(s.vector hostname).generation, 0⟩ 0).map
        fun r => (r.1.finish hostname, r.2) := by
    rw [callCallback, hm, hv]
    rfl
  have hfuel : (s.vector hostname).capacity < 0 + (callbacks.capacity + 1) := by
    rw [hv]
    omega
  have hends : WalkEnds g behaviour hostname ip s 0 0 _ :=
    walkEnds_callbackLoop (callbacks.capacity + 1) (Nat.zero_le _) hfuel
  rw [hcall]
  generalize callbackLoop g behaviour hostname ip _ s _ 0 = r at hends
  cases hends with
  | @caughtUp n hn => exact .inl ⟨n, hn, rfl⟩
  | moved hnone => exact .inr ⟨hnone, rfl⟩

theorem pending_finish (s : VectorResolver Cb) (hostname h : Host) :
    (s.finish hostname).pending h = if h = hostname then [] else s.pending h := by
  by_cases hh : h = hostname
  · subst hh
    simp [pending, vector, finish, Vec.clear]
  · simp [pending, vector, finish, hh]

/-- **Callbacks that do not call `resolve`** are served as the list says. -/
theorem toResolver_callCallback (g : Growth) (s : VectorResolver Cb) (hostname : Host) (ip : String) :
    ∃ s', s.callCallback g (fun _ => []) hostname ip = .ok (s', (s.toResolver.callCallback hostname ip).2, []) ∧
      s'.toResolver = (s.toResolver.callCallback hostname ip).1 := by
  have hduring : ∀ n, during (fun _ => ([] : List (Nested Cb))) 0 n = [] := by simp [during]
  cases hm : s.hostnameToCb hostname with
  | none =>
    have hm' : s.toResolver.hostnameToCb hostname = none := by simp [toResolver, hm]
    refine ⟨s, ?_, ?_⟩
    · rw [callCallback_none hm, Resolver.callCallback, hm']
    · rw [Resolver.callCallback, hm']
  | some callbacks =>
    rcases callCallback_outcome g (fun _ => []) ip hm with ⟨n, -, hcall⟩ | ⟨hnone, -⟩
    · refine ⟨s.finish hostname, ?_, ?_⟩
      · rw [hcall, hduring, Resolver.callCallback_calls, toResolver_pending]
        simp [resolveAll, registered]
      · have hm' : s.toResolver.hostnameToCb hostname = some callbacks.elems := by simp [toResolver, hm]
        rw [Resolver.callCallback, hm']
        simp only [finish, toResolver, map_elems_update]
        rfl
    · refine absurd ?_ (hnone (s.pending hostname).length)
      refine ⟨?_, ?_⟩
      · rw [hduring]
        simp [registered, pending]
      · have hle := (s.vector hostname).length_le
        simpa [pending] using hle

/-- The callbacks that have been called with a host name. -/
def served (h : Host) (calls : List (Invocation Cb)) : List Cb :=
  (calls.filter fun i => i.hostname = h).map Invocation.callback

/-- `call_callback` returns without using an iterator that is invalid, it first calls the callbacks that were pending,
in order, and for each host name the callbacks pending before and those registered meanwhile are now called, in order,
or pending, none of them twice. -/
def Accounted (g : Growth) (behaviour : ℕ → List (Nested Cb)) (s : VectorResolver Cb) (hostname : Host)
    (ip : String) : Prop :=
  ∃ s' calls sent, s.callCallback g behaviour hostname ip = .ok (s', calls, sent) ∧
    (∀ i ∈ calls, i.hostname = hostname ∧ i.ip = ip) ∧
    s.pending hostname <+: calls.map Invocation.callback ∧
    ∀ h, served h calls ++ s'.pending h = s.pending h ++ registered h (during behaviour 0 calls.length)

theorem accounted_of_caughtUp {s : VectorResolver Cb} {n : ℕ}
    (hn : n = (s.pending hostname).length + (registered hostname (during behaviour 0 n)).length)
    (hcall : s.callCallback g behaviour hostname ip = .ok ((s.resolveAll g (during behaviour 0 n)).1.finish hostname,
      (s.pending hostname ++ registered hostname (during behaviour 0 n)).map
        fun callback => { callback, hostname, ip },
      (s.resolveAll g (during behaviour 0 n)).2)) : Accounted g behaviour s hostname ip := by
  refine ⟨_, _, _, hcall, ?_, ?_, ?_⟩
  · intro i hi
    obtain ⟨callback, -, rfl⟩ := List.mem_map.1 hi
    exact ⟨rfl, rfl⟩
  · rw [List.map_map]
    simp [Function.comp_def]
  · intro h
    rw [List.length_map, List.length_append, ← hn, pending_finish, pending_resolveAll]
    by_cases hh : h = hostname
    · subst hh
      simp [served, List.filter_map, Function.comp_def]
    · have hh' : ¬ hostname = h := fun e => hh e.symm
      simp [served, List.filter_map, Function.comp_def, hh, hh']

/-- **When callbacks may call `resolve`.**  The walk serves everything exactly when it catches up, after some number of
turns, with the callbacks registered for its host name, and the vector has room for these from the start. -/
theorem reentrant_iff (g : Growth) (behaviour : ℕ → List (Nested Cb)) (s : VectorResolver Cb) (hostname : Host)
    (ip : String) :
    Accounted g behaviour s hostname ip ↔ ∃ n ≤ (s.vector hostname).capacity,
      n = (s.pending hostname).length + (registered hostname (during behaviour 0 n)).length := by
  cases hm : s.hostnameToCb hostname with
  | none =>
    have hp : s.pending hostname = [] := by rw [pending, vector, hm]; rfl
    refine iff_of_true ?_ ⟨0, Nat.zero_le _, by rw [hp]; rfl⟩
    refine ⟨s, [], [], callCallback_none hm, by simp, by rw [hp]; exact List.nil_prefix, ?_⟩
    intro h
    simp [served, during, registered]
  | some callbacks =>
    rcases callCallback_outcome g behaviour ip hm with ⟨n, ⟨hn, hcap⟩, hcall⟩ | ⟨hnone, hcall⟩
    · rw [Nat.zero_add] at hn hcap
      exact iff_of_true (accounted_of_caughtUp hn hcall) ⟨n, hcap, hn⟩
    · refine iff_of_false ?_ ?_
      · rintro ⟨s', calls, sent, hok, -⟩
        cases hcall.symm.trans hok
      · rintro ⟨n, hcap, hn⟩
        refine hnone n ⟨?_, ?_⟩
        · rw [Nat.zero_add]
          exact hn
        · rw [Nat.zero_add]
          exact hcap

/-- The resolver after `resolve("a", cb)`: the vector is full. -/
def askedOnce : VectorResolver String := (init.resolve .doubling .zero [97] "first").1

/-- The callback called first calls `resolve("a", cb)`. -/
def askAgain (k : ℕ) : List (Nested String) :=
  if k = 0 then [{ env := .zero, hostname := [97], cb := "second" }] else []

/-- **One registration too many**: the vector moves under the iterator. -/
theorem ask_again_invalid :
    askedOnce.callCallback .doubling askAgain [97] "192.0.2.1" = .error .invalidIterator ∧
      ¬ Accounted .doubling askAgain askedOnce [97] "192.0.2.1" := by
  have hcall : askedOnce.callCallback .doubling askAgain [97] "192.0.2.1" = .error .invalidIterator := by rfl
  refine ⟨hcall, ?_⟩
  rintro ⟨s', calls, sent, hok, -⟩
  cases hcall.symm.trans hok

end VectorResolver

end Shadowc.Dns
