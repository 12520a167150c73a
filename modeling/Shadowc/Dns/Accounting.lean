import Shadowc.Dns.Resolution

/-!
# Callback accounting over whole runs

A run is any list of `resolve` calls and delivered datagrams.  To tell two registrations of one callback apart, each
registration gets a serial number (`Registration`); the resolver never looks at it, and forgetting the numbers gives
the run of the plain resolver (`untag_run`).

The invariant is one equation for each hostname (`Ledger.account`): the registrations made for it are those invoked
for it followed by those still pending, in order.  `ledger_step` is one action, `ledger_run` a whole run, and
everything that is said about registrations is read off it.  What a call passes on is what is read first in a datagram
that has been delivered (`told_run`): the address of an A record of it, when it is legible.
-/

namespace Shadowc.Dns

open Lib Reading Memory

/-- What happens to the resolver: a `resolve` call, or a datagram that is handed to `handle_data`. -/
inductive Action (Cb : Type) where
  | resolve (hostname : Host) (cb : Cb)
  | deliver (data : List UInt8)

/-- A `resolve` call that has been made. -/
structure Registration (Cb : Type) where
  serial : ℕ
  hostname : Host
  cb : Cb

/-- The resolver, and what has happened so far. -/
structure History (Cb : Type) where
  resolver : Resolver (Registration Cb)
  made : List (Registration Cb)
  invoked : List (Invocation (Registration Cb))
  delivered : List (List UInt8)

namespace History

variable {Cb : Type}

def start : History Cb := { resolver := .init, made := [], invoked := [], delivered := [] }

/-- One action.  A datagram on which `handle_data` does not return ends the run. -/
def step (env : Env) (t : History Cb) : Action Cb → Run (History Cb)
  | .resolve hostname cb =>
    let r : Registration Cb := { serial := t.made.length, hostname, cb }
    return { t with resolver := (t.resolver.resolve env hostname r).1, made := t.made ++ [r] }
  | .deliver data => do
    let (resolver, calls) ← t.resolver.handleData env data
    return { t with resolver, invoked := t.invoked ++ calls, delivered := t.delivered ++ [data] }

def run (env : Env) (t : History Cb) (acts : List (Action Cb)) : Run (History Cb) := acts.foldlM (step env) t

/-- What one action does to a history. -/
theorem step_cases {env : Env} {t t' : History Cb} {act : Action Cb} (h : t.step env act = .ok t') :
    (∃ hostname cb, act = .resolve hostname cb ∧ t' = { t with
      resolver := (t.resolver.resolve env hostname ⟨t.made.length, hostname, cb⟩).1
      made := t.made ++ [⟨t.made.length, hostname, cb⟩] }) ∨
    (∃ data resolver calls, act = .deliver data ∧ t.resolver.handleData env data = .ok (resolver, calls) ∧
      t' = { t with resolver, invoked := t.invoked ++ calls, delivered := t.delivered ++ [data] }) := by
  cases act with
  | resolve hostname cb => exact .inl ⟨hostname, cb, rfl, (Except.ok.inj h).symm⟩
  | deliver data =>
    obtain ⟨⟨resolver, calls⟩, hd, h⟩ := bind_eq_ok.1 h
    exact .inr ⟨data, resolver, calls, rfl, hd, (Except.ok.inj h).symm⟩

theorem run_cons {env : Env} {t t' : History Cb} {act : Action Cb} {acts : List (Action Cb)} :
    t.run env (act :: acts) = .ok t' ↔ ∃ t₁, t.step env act = .ok t₁ ∧ t₁.run env acts = .ok t' := by
  rw [run, List.foldlM_cons]
  exact bind_eq_ok

/-- A property of histories that every action keeps holds at the end of every run. -/
theorem run_induction {env : Env} {P : History Cb → Prop}
    (hstep : ∀ t t' act, P t → t.step env act = .ok t' → P t') (acts : List (Action Cb)) :
    ∀ {t t' : History Cb}, P t → t.run env acts = .ok t' → P t' := by
  induction acts with
  | nil => intro t t' ht h; cases h; exact ht
  | cons act acts ih =>
    intro t t' ht h
    obtain ⟨t₁, hs, h⟩ := run_cons.1 h
    exact ih (hstep t t₁ act ht hs) h

/-- The run goes on as long as every delivered datagram is read to its end. -/
theorem run_total (env : Env) (acts : List (Action Cb)) (h : ∀ data, .deliver data ∈ acts → Whole data)
    (t : History Cb) : ∃ t', t.run env acts = .ok t' := by
  induction acts generalizing t with
  | nil => exact ⟨t, rfl⟩
  | cons act acts ih =>
    have ⟨t₁, hs⟩ : ∃ t₁, t.step env act = .ok t₁ := by
      cases act with
      | resolve hostname cb => exact ⟨_, rfl⟩
      | deliver data =>
        have ⟨p, hp⟩ : ∃ p, t.resolver.handleData env data = .ok p := by
          rcases handleData_of_whole env t.resolver (h data (by simp)) with ⟨_, _, -, hd⟩ | ⟨-, hd⟩
          · exact ⟨_, hd⟩
          · exact ⟨_, hd⟩
        simp only [step, hp, Bind.bind, Except.bind]
        exact ⟨_, rfl⟩
    obtain ⟨t', ht'⟩ := ih (fun data hd => h data (List.mem_cons_of_mem _ hd)) t₁
    exact ⟨t', run_cons.2 ⟨t₁, hs, ht'⟩⟩

/-! ### Forgetting the serial numbers -/

/-- One action on a resolver whose callbacks carry no serial number, with the calls made so far. -/
def plainStep (env : Env) (p : Resolver Cb × List (Invocation Cb)) :
    Action Cb → Run (Resolver Cb × List (Invocation Cb))
  | .resolve hostname cb => return ((p.1.resolve env hostname cb).1, p.2)
  | .deliver data => do
    let (resolver, calls) ← p.1.handleData env data
    return (resolver, p.2 ++ calls)

/-- The plain resolver of a history, and its calls. -/
def untag (t : History Cb) : Resolver Cb × List (Invocation Cb) :=
  (t.resolver.map Registration.cb, t.invoked.map (Invocation.map Registration.cb))

theorem untag_step (env : Env) (t : History Cb) (act : Action Cb) :
    plainStep env t.untag act = (t.step env act).map untag := by
  cases act with
  | resolve hostname cb =>
    have h := Resolver.map_resolve Registration.cb env t.resolver hostname ⟨t.made.length, hostname, cb⟩
    simp only [plainStep, untag, h]
    rfl
  | deliver data =>
    simp only [plainStep, step, untag, Resolver.map_handleData]
    cases t.resolver.handleData env data with
    | error e => rfl
    | ok p =>
      simp only [Bind.bind, Except.bind, Except.map]
      rw [← List.map_append]
      rfl

/-- **The serial numbers change nothing**: the plain resolver makes the same calls in the same order. -/
theorem untag_run (env : Env) (acts : List (Action Cb)) (t : History Cb) :
    acts.foldlM (plainStep env) t.untag = (t.run env acts).map untag := by
  induction acts generalizing t with
  | nil => rfl
  | cons act acts ih =>
    simp only [run, List.foldlM_cons, untag_step]
    cases h : t.step env act with
    | error e => rfl
    | ok t' => exact ih t'

/-! ### The ledger -/

/-- The message `data` holds an A record whose owner decodes to `h`, with the address `ip`. -/
def HoldsAddress (env : Env) (data : List UInt8) (h : Host) (ip : String) : Prop :=
  ∃ answers, parseResponse env.heap data = .ok answers ∧ ∃ ans ∈ answers,
    (∃ x, loadU16 data ans.resource = .ok x ∧ ntohs x = qtypeA) ∧ ans.name = h ∧ addressText env.heap ans.rdata = ip

/-- The registrations made for a hostname. -/
def madeFor (t : History Cb) (h : Host) : List (Registration Cb) := t.made.filter fun r => r.hostname = h

/-- The registrations that have been invoked with a hostname. -/
def invokedFor (t : History Cb) (h : Host) : List (Registration Cb) :=
  (t.invoked.filter fun i => i.hostname = h).map Invocation.callback

/-- The books of a run. -/
structure Ledger (env : Env) (t : History Cb) : Prop where
  serials : t.made.map Registration.serial = List.range t.made.length
  account : ∀ h, t.madeFor h = t.invokedFor h ++ t.resolver.pending h
  address : ∀ i ∈ t.invoked, ∃ data ∈ t.delivered, HoldsAddress env data i.hostname i.ip

theorem ledger_start (env : Env) : Ledger env (start : History Cb) :=
  ⟨rfl, fun _ => rfl, by simp [start]⟩

theorem firstAddress_some {heap : Mem} {data : List UInt8} {answers : List ResRecord} {h : Host} {ip : String}
    (hf : firstAddress heap data answers = .ok (some (h, ip))) : ∃ ans ∈ answers,
      (∃ x, loadU16 data ans.resource = .ok x ∧ ntohs x = qtypeA) ∧ ans.name = h ∧ addressText heap ans.rdata = ip := by
  induction answers with
  | nil => cases hf
  | cons ans answers ih =>
    obtain ⟨x, hx, hf⟩ := bind_eq_ok.1 hf
    split at hf
    · next hA =>
      cases hf
      exact ⟨ans, by simp, ⟨x, hx, hA⟩, rfl, rfl⟩
    · obtain ⟨ans', hmem, hrest⟩ := ih hf
      exact ⟨ans', List.mem_cons_of_mem _ hmem, hrest⟩

/-- A registration enters the books of its own hostname, at the end of the pending ones. -/
theorem ledger_resolve {env : Env} {t : History Cb} (hl : Ledger env t) (hostname : Host) (cb : Cb) :
    Ledger env { t with
      resolver := (t.resolver.resolve env hostname ⟨t.made.length, hostname, cb⟩).1
      made := t.made ++ [⟨t.made.length, hostname, cb⟩] } := by
  refine ⟨by simp [hl.serials, List.range_succ], fun h => ?_, hl.address⟩
  have ha := hl.account h
  simp only [madeFor, invokedFor, List.filter_append] at ha ⊢
  rw [Resolver.pending_resolve, ha]
  by_cases hh : h = hostname
  · subst hh
    simp
  · have hh' : ¬ hostname = h := fun e => hh e.symm
    simp [hh, hh']

/-- The calls for a hostname move its pending registrations over to the invoked ones. -/
theorem ledger_deliver {env : Env} {t : History Cb} (hl : Ledger env t) {data : List UInt8}
    {resolver : Resolver (Registration Cb)} {calls : List (Invocation (Registration Cb))}
    (hd : t.resolver.handleData env data = .ok (resolver, calls)) :
    Ledger env { t with resolver, invoked := t.invoked ++ calls, delivered := t.delivered ++ [data] } := by
  obtain ⟨answers, hp, ⟨-, rfl, rfl⟩ | ⟨hostname, ip, hf, rfl, rfl⟩⟩ := Resolver.handleData_cases hd
  · refine ⟨hl.serials, by simpa [madeFor, invokedFor] using hl.account, ?_⟩
    intro i hi
    obtain ⟨d, hd, h⟩ := hl.address i (by simpa using hi)
    exact ⟨d, List.mem_append_left _ hd, h⟩
  · refine ⟨hl.serials, fun h => ?_, ?_⟩
    · have ha := hl.account h
      simp only [madeFor, invokedFor, List.filter_append, List.map_append] at ha ⊢
      rw [ha, Resolver.pending_callCallback, Resolver.callCallback_calls, List.append_assoc]
      congr 1
      by_cases hh : h = hostname
      · subst hh
        simp [List.filter_map, Function.comp_def]
      · have hh' : ¬ hostname = h := fun e => hh e.symm
        simp [hh, hh', List.filter_map, Function.comp_def]
    · intro i hi
      rcases List.mem_append.1 hi with hi | hi
      · obtain ⟨d, hd, h⟩ := hl.address i hi
        exact ⟨d, List.mem_append_left _ hd, h⟩
      · rw [Resolver.callCallback_calls] at hi
        obtain ⟨cb, -, rfl⟩ := List.mem_map.1 hi
        exact ⟨data, by simp, answers, hp, firstAddress_some hf⟩

theorem ledger_step {env : Env} {t t' : History Cb} {act : Action Cb} (hl : Ledger env t)
    (h : t.step env act = .ok t') : Ledger env t' := by
  rcases step_cases h with ⟨hostname, cb, rfl, rfl⟩ | ⟨data, resolver, calls, rfl, hd, rfl⟩
  · exact ledger_resolve hl hostname cb
  · exact ledger_deliver hl hd

theorem ledger_run {env : Env} {acts : List (Action Cb)} {t : History Cb} (h : start.run env acts = .ok t) :
    Ledger env t :=
  run_induction (fun _ _ _ => ledger_step) acts (ledger_start env) h

/-! ### What the books say -/

/-- What the callback accounting promises of a history. -/
structure Accounting (env : Env) (t : History Cb) : Prop where
  /-- No registration is invoked twice, and none that was not made. -/
  once : (t.invoked.map Invocation.callback).Nodup
  registered : ∀ i ∈ t.invoked, i.callback ∈ t.made
  /-- The registrations are told apart by their serial numbers, which count them. -/
  serials : t.made.map Registration.serial = List.range t.made.length
  ownHostname : ∀ i ∈ t.invoked, i.callback.hostname = i.hostname
  address : ∀ i ∈ t.invoked, ∃ data ∈ t.delivered, HoldsAddress env data i.hostname i.ip
  inOrder : ∀ h, ((t.invokedFor h).map Registration.serial).Pairwise (· < ·)
  conserved : ∀ h, (t.madeFor h).length = (t.invokedFor h).length + (t.resolver.pending h).length
  /-- A reply whose first A record is owned by `h` empties the list of `h` and touches no other. -/
  served : ∀ data answers h ip, parseResponse env.heap data = .ok answers →
    firstAddress env.heap data answers = .ok (some (h, ip)) →
    ∃ s calls, t.resolver.handleData env data = .ok (s, calls) ∧ s.pending h = [] ∧
      ∀ h', h' ≠ h → s.pending h' = t.resolver.pending h'

section Books

variable {env : Env} {t : History Cb} (hl : Ledger env t)
include hl

theorem Ledger.callback_mem {i : Invocation (Registration Cb)} (hi : i ∈ t.invoked) :
    i.callback ∈ t.madeFor i.hostname := by
  rw [hl.account]
  refine List.mem_append_left _ (List.mem_map.2 ⟨i, ?_, rfl⟩)
  simp [hi]

theorem Ledger.registered {i : Invocation (Registration Cb)} (hi : i ∈ t.invoked) : i.callback ∈ t.made :=
  (List.mem_filter.1 (hl.callback_mem hi)).1

theorem Ledger.ownHostname {i : Invocation (Registration Cb)} (hi : i ∈ t.invoked) :
    i.callback.hostname = i.hostname := by
  simpa using (List.mem_filter.1 (hl.callback_mem hi)).2

theorem Ledger.invokedFor_sublist (h : Host) : (t.invokedFor h).Sublist t.made := by
  have h1 : (t.invokedFor h).Sublist (t.madeFor h) := by
    rw [hl.account]
    exact List.sublist_append_left _ _
  exact h1.trans List.filter_sublist

theorem Ledger.made_nodup : t.made.Nodup := by
  have h : (t.made.map Registration.serial).Nodup := by
    rw [hl.serials]
    exact List.nodup_range
  exact h.of_map _

/-- Two calls of one registration would both stand in the books of its hostname. -/
theorem Ledger.once : (t.invoked.map Invocation.callback).Nodup := by
  rw [List.nodup_iff_sublist]
  intro r hr
  obtain ⟨calls, hsub, hcalls⟩ := List.sublist_map_iff.1 hr
  have hhost : ∀ i ∈ calls, i.hostname = r.hostname := by
    intro i hi
    have hir : i.callback = r := by
      have : i.callback ∈ [r, r] := by rw [hcalls]; exact List.mem_map_of_mem hi
      simpa using this
    rw [← hir, hl.ownHostname (hsub.subset hi)]
  have hfilter : calls.Sublist (t.invoked.filter fun i => i.hostname = r.hostname) := by
    have : calls.filter (fun i => i.hostname = r.hostname) = calls :=
      List.filter_eq_self.2 fun i hi => by simpa using hhost i hi
    rw [← this]
    exact hsub.filter _
  have htwice : [r, r].Sublist (t.invokedFor r.hostname) := by
    rw [hcalls]
    exact hfilter.map _
  exact List.nodup_iff_sublist.1 hl.made_nodup r (htwice.trans (hl.invokedFor_sublist _))

theorem Ledger.inOrder (h : Host) : ((t.invokedFor h).map Registration.serial).Pairwise (· < ·) := by
  have hs : (t.made.map Registration.serial).Pairwise (· < ·) := by
    rw [hl.serials]
    exact List.pairwise_lt_range
  exact hs.sublist ((hl.invokedFor_sublist h).map _)

theorem Ledger.conserved (h : Host) :
    (t.madeFor h).length = (t.invokedFor h).length + (t.resolver.pending h).length := by
  rw [hl.account h, List.length_append]

end Books

theorem handleData_first (env : Env) (s : Resolver Cb) {data : List UInt8} {answers : List ResRecord} {h : Host}
    {ip : String} (hp : parseResponse env.heap data = .ok answers)
    (hf : firstAddress env.heap data answers = .ok (some (h, ip))) :
    s.handleData env data = .ok (s.callCallback h ip) := by
  exact bind_eq_ok.2 ⟨answers, hp, bind_eq_ok.2 ⟨some (h, ip), hf, rfl⟩⟩

theorem Ledger.accounting {env : Env} {t : History Cb} (hl : Ledger env t) : Accounting env t where
  once := hl.once
  registered _ := hl.registered
  serials := hl.serials
  ownHostname _ := hl.ownHostname
  address := hl.address
  inOrder := hl.inOrder
  conserved := hl.conserved
  served data answers h ip hp hf := by
    refine ⟨(t.resolver.callCallback h ip).1, (t.resolver.callCallback h ip).2,
      handleData_first env t.resolver hp hf, ?_, fun h' hh => ?_⟩
    · rw [Resolver.pending_callCallback, if_pos rfl]
    · rw [Resolver.pending_callCallback, if_neg hh]

/-- In a well-formed response the record is one of the answer section. -/
theorem holdsAddress_response {env : Env} {m : Response} {h : Host} {ip : String}
    (hh : HoldsAddress env m.msg h ip) : ∃ r ∈ m.answers, dotted r.owner = h ∧ r.address? = some ip := by
  obtain ⟨answers, hp, ans, hans, ⟨x, hx, hA⟩, hname, hip⟩ := hh
  obtain ⟨recs, hp', hall⟩ := parseResponse_response env.heap m
  obtain rfl : answers = recs := Except.ok.inj (hp.symm.trans hp')
  obtain ⟨r, hr, hd⟩ : ∃ r ∈ m.answers, Decodes m.msg ans r := by
    clear hp hp'
    revert hall
    generalize m.answers = rs
    intro hall
    induction hall with
    | nil => simp at hans
    | @cons a r as rs had _ ih =>
      rcases List.mem_cons.1 hans with rfl | hans
      · exact ⟨r, by simp, had⟩
      · obtain ⟨r', hr', hd⟩ := ih hans
        exact ⟨r', List.mem_cons_of_mem _ hr', hd⟩
  refine ⟨r, hr, by rw [← hd.name, hname], ?_⟩
  obtain ⟨f, hload, etype, -⟩ := hd.resource
  have hx' : x = f.type := Except.ok.inj (hx.symm.trans (rdata_load_fields hload).1)
  have hrd := (m.answersAt.ok r hr).2.2.2.2.2
  have e := hd.rdata
  cases hrdata : r.rdata with
  | domain target =>
    simp only [hrdata] at hrd
    exact absurd (by rw [← etype, ← hx', hA]; rfl) hrd.1
  | address a b c d =>
    simp only [hrdata] at e
    rw [← hip, e, addressText_octets]
    simp [RR.address?, hrdata]

theorem run_delivered {env : Env} (acts : List (Action Cb)) :
    ∀ {t t' : History Cb}, t.run env acts = .ok t' → ∀ d ∈ t'.delivered, d ∈ t.delivered ∨ .deliver d ∈ acts := by
  induction acts with
  | nil => intro t t' h d hd; cases h; exact .inl hd
  | cons act acts ih =>
    intro t t' h d hd
    obtain ⟨t₁, hs, h⟩ := run_cons.1 h
    rcases ih h d hd with hd | hd
    · rcases step_cases hs with ⟨hostname, cb, rfl, rfl⟩ | ⟨data, resolver, calls, rfl, -, rfl⟩
      · exact .inl hd
      · rcases List.mem_append.1 hd with hd | hd
        · exact .inl hd
        · obtain rfl := List.mem_singleton.1 hd
          exact .inr (by simp)
    · exact .inr (List.mem_cons_of_mem _ hd)

/-- Each call passes on what is read first in a datagram that has been delivered. -/
def Told (env : Env) (t : History Cb) : Prop :=
  ∀ i ∈ t.invoked, ∃ data ∈ t.delivered, FirstRead env.heap data i.hostname i.ip

theorem told_step {env : Env} {t t' : History Cb} {act : Action Cb} (ht : Told env t) (h : t.step env act = .ok t') :
    Told env t' := by
  rcases step_cases h with ⟨hostname, cb, rfl, rfl⟩ | ⟨data, resolver, calls, rfl, hd, rfl⟩
  · exact ht
  · intro i hi
    rcases List.mem_append.1 hi with hi | hi
    · obtain ⟨d, hdel, hf⟩ := ht i hi
      exact ⟨d, List.mem_append_left _ hdel, hf⟩
    refine ⟨data, by simp, ?_⟩
    rcases handleData_of_whole env t.resolver (whole_of_handleData hd) with ⟨host, ip, hf, hd'⟩ | ⟨-, hd'⟩
    · obtain rfl : calls = (t.resolver.callCallback host ip).2 :=
        congrArg Prod.snd (Except.ok.inj (hd.symm.trans hd'))
      rw [Resolver.callCallback_calls] at hi
      obtain ⟨callback, -, rfl⟩ := List.mem_map.1 hi
      exact hf
    · obtain rfl : calls = [] := congrArg Prod.snd (Except.ok.inj (hd.symm.trans hd'))
      cases hi

theorem told_run {env : Env} {acts : List (Action Cb)} {t : History Cb} (h : start.run env acts = .ok t) :
    Told env t :=
  run_induction (fun _ _ _ => told_step) acts (by simp [Told, start]) h

/-- **Callback accounting.**  Whatever was registered and whatever datagrams were delivered, the books of the run are
in order.  A run whose datagrams are legible messages, with records of any types, goes on to its end, each call then
passes on the address of an A record of such a message that is owned by the hostname, and a legible message whose first
A record is owned by `h` empties the list of `h` and touches no other. -/
theorem callback_accounting (env : Env) (acts : List (Action Cb)) :
    (∀ t, start.run env acts = .ok t → Accounting env t) ∧
    ((∀ data, .deliver data ∈ acts → ∃ m : Message, m.msg = data ∧ Legible m) →
      ∃ t, start.run env acts = .ok t ∧
        (∀ i ∈ t.invoked, ∃ m : Message, .deliver m.msg ∈ acts ∧ Legible m ∧
          ∃ r ∈ m.answers, r.type = 1 ∧ dotted r.owner = i.hostname ∧ r.address? = some i.ip) ∧
        ∀ (m : Message) (r : WireRR), Legible m → firstARecord m.answers = some r →
          ∃ s calls, t.resolver.handleData env m.msg = .ok (s, calls) ∧ s.pending (dotted r.owner) = [] ∧
            ∀ h, h ≠ dotted r.owner → s.pending h = t.resolver.pending h) := by
  refine ⟨fun t h => (ledger_run h).accounting, ?_⟩
  intro hwf
  have hwhole : ∀ data, .deliver data ∈ acts → Whole data := by
    intro data hd
    obtain ⟨m, rfl, hm⟩ := hwf data hd
    exact hm.whole
  obtain ⟨t, ht⟩ := run_total env acts hwhole start
  refine ⟨t, ht, fun i hi => ?_, fun m r hm hr => ?_⟩
  · obtain ⟨data, hd, hf⟩ := told_run ht i hi
    have hdel : .deliver data ∈ acts := by simpa [start] using run_delivered acts ht data hd
    obtain ⟨m, rfl, hm⟩ := hwf data hdel
    obtain ⟨r, hr, howner, hip⟩ := (firstRead_iff env.heap hm.inStep hm.addresses).1 hf
    obtain ⟨hmem, htype, -⟩ := address_of_firstARecord hm.addresses hr
    exact ⟨m, hdel, hm, r, hmem, htype, howner, hip⟩
  · obtain ⟨ip, -, hd⟩ := hm.handleData env t.resolver hr
    refine ⟨(t.resolver.callCallback (dotted r.owner) ip).1, (t.resolver.callCallback (dotted r.owner) ip).2, hd, ?_,
      fun h hne => ?_⟩
    · rw [Resolver.pending_callCallback, if_pos rfl]
    · rw [Resolver.pending_callCallback, if_neg hne]

/-- Two registrations for `a`, and a reply that comes twice. -/
def askedTwice : List (Action Unit) :=
  [.resolve [97] (), .resolve [97] (), .deliver directReply.msg, .deliver directReply.msg]

/-- The books of this run: the first reply invokes both registrations, the second none. -/
theorem callback_accounting_repeated : ∃ t, start.run .zero askedTwice = .ok t ∧ Accounting .zero t ∧
    t.invoked.map (fun i => i.callback.serial) = [0, 1] ∧
    ∀ i ∈ t.invoked, ∃ m : Message, .deliver m.msg ∈ askedTwice ∧ Legible m ∧
      ∃ r ∈ m.answers, r.type = 1 ∧ dotted r.owner = i.hostname ∧ r.address? = some i.ip := by
  have hwf : ∀ data, .deliver data ∈ askedTwice → ∃ m : Message, m.msg = data ∧ Legible m := by
    intro data hd
    obtain rfl : data = directReply.msg := by simpa [askedTwice] using hd
    exact exists_legible directReply
  obtain ⟨t, ht, haddress, -⟩ := (callback_accounting .zero askedTwice).2 hwf
  refine ⟨t, ht, (callback_accounting .zero askedTwice).1 t ht, ?_, haddress⟩
  have hrun : (start.run .zero askedTwice).map (fun t => t.invoked.map fun i => i.callback.serial) = .ok [0, 1] := rfl
  rw [ht] at hrun
  exact Except.ok.inj hrun

/-- Question `a A IN`; answers `a TXT` and `a A 192.0.2.1`.  Behind two bytes of it the text is an A record of `a`, but
for the last three octets of its address. -/
def txtMsg : List UInt8 :=
  [18, 52, 129, 128, 0, 1, 0, 2, 0, 0, 0, 0, 1, 97, 0, 0, 1, 0, 1,
    192, 12, 0, 16, 0, 1, 0, 0, 0, 60, 0, 15, 14, 0, 192, 12, 0, 1, 0, 1, 0, 0, 0, 60, 0, 4, 10,
    192, 12, 0, 1, 0, 1, 0, 0, 0, 60, 0, 4, 192, 0, 2, 1]

theorem txtMsg_qname : NameAt txtMsg 12 [[97]] 3 := nameAt_one (by decide)

def txtReply : Message where
  msg := txtMsg
  qdcount := 1
  questionLen := 7
  answers := [⟨[[97]], 2, 16, 1, 60, [14, 0, 192, 12, 0, 1, 0, 1, 0, 0, 0, 60, 0, 4, 10]⟩,
    ⟨[[97]], 2, 1, 1, 60, [192, 0, 2, 1]⟩]
  qr := ⟨129, rfl, by decide⟩
  qdcountAt := by decide
  ancount_lt := by decide
  ancountAt := by decide
  questions := by
    have htype : BytesAt txtMsg (12 + 3) (be16 1 ++ be16 1) := by decide
    exact .cons txtMsg_qname htype .nil
  answersAt := by
    have howner : ∀ off, txtMsg[off]? = some 192 → txtMsg[off + 1]? = some 12 → NameAt txtMsg off [[97]] 2 :=
      fun off h0 h1 => .pointer h0 h1 (by decide) txtMsg_qname
    refine .cons ⟨by decide, by decide, howner _ rfl rfl, by decide, by decide⟩ (.cons ?_ .nil)
    exact ⟨by decide, by decide, howner _ rfl rfl, by decide, by decide⟩

/-- A callback hears an address that no A record of the reply has; and a reply whose first A record is owned by `a`
leaves the list of `a` as it is. -/
theorem callback_misled :
    (txtReply.AddressesOk ∧ ∃ t : History Unit,
      start.run .zero [.resolve [97] (), .deliver txtReply.msg] = .ok t ∧
      ∃ i ∈ t.invoked, ∀ r ∈ txtReply.answers, r.type = 1 → r.address? ≠ some i.ip) ∧
    (aaaaReply.AddressesOk ∧ (firstARecord aaaaReply.answers).map (fun r => dotted r.owner) = some [97] ∧
      ∃ t : History Unit, start.run .zero [.resolve [97] (), .deliver aaaaReply.msg] = .ok t ∧
        (t.resolver.pending [97]).length = 1) := by
  constructor
  · have hcalls : (start.run .zero [.resolve [97] (), .deliver txtReply.msg]).map
        (fun t : History Unit => t.invoked.map Invocation.ip) = .ok ["10.192.12.0"] := by decide +kernel
    obtain ⟨t, ht, hip⟩ := map_eq_ok.1 hcalls
    obtain ⟨i, hi⟩ : ∃ i, t.invoked = [i] := by
      apply List.length_eq_one_iff.1
      rw [← List.length_map (f := Invocation.ip), hip, List.length_singleton]
    rw [hi] at hip
    refine ⟨by decide, t, ht, i, by simp [hi], ?_⟩
    rw [show i.ip = "10.192.12.0" from (List.cons.inj hip).1]
    decide
  · have hpending : (start.run .zero [.resolve [97] (), .deliver aaaaReply.msg]).map
        (fun t : History Unit => (t.resolver.pending [97]).length) = .ok 1 := by decide +kernel
    obtain ⟨t, ht, hlen⟩ := map_eq_ok.1 hpending
    exact ⟨by decide, by decide, t, ht, hlen⟩

end History

end Shadowc.Dns
