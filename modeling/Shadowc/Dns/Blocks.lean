import Shadowc.Dns.Accounting
import Shadowc.Lib.Blocks
import Shadowc.Lib.Transition

/-!
# The blocks of the resolver

The functions that allocate and free, on a heap: `read_name` allocates the block of a name, `parse_response` an array
and two blocks for each record, `free_response` frees them, and the resolver has an array of servers and one vector for
each entry of `hostname_to_cb`.  A use of a block that is not there, or a second `free`, stops the code.

That never happens, and whatever a resolver has been used for, its destructor leaves the heap as the constructor found
it: `no_leak`.  A block is there or not, as a whole: whether the code stays inside it is another matter, and the one of
`Shadowc.Dns.NameBounds` and `Shadowc.Dns.RdataBounds`.
-/

namespace Shadowc.Dns

open Lib Reading Memory Blocks Transition

/-! ### `parse_response` and `free_response` -/

/-- `struct RES_RECORD` with its two blocks. -/
structure BlockRecord where
  record : ResRecord
  name : ℕ
  rdata : ℕ

/-- `mem` is what `malloc` leaves in a block. -/
def readNameBlock (mem : Mem) (data : List UInt8) (reader : ℕ) : Code Stop (ℕ × List UInt8 × ℕ) := do
  let name ← malloc
  let (text, count) ← lift (readName mem data reader)
  return (name, text, count)

def parseRecordBlocks (mem : Mem) (data : List UInt8) (reader : ℕ) : Code Stop (BlockRecord × ℕ) := do
  let (nameBlock, name, stop) ← readNameBlock mem data reader
  let resource := reader + stop
  let reader := resource + sizeofRData
  let type ← lift (loadU16 data resource)
  if ntohs type = 1 then
    let resourceLen := ntohs (← lift (loadU16 data (resource + 8)))
    let rdataBlock ← malloc
    let rdata ← lift (copyBytes data resourceLen reader)
    return ({ record := { name, resource, rdata }, name := nameBlock, rdata := rdataBlock }, reader + resourceLen)
  else
    let (rdataBlock, rdata, stop) ← readNameBlock mem data reader
    return ({ record := { name, resource, rdata }, name := nameBlock, rdata := rdataBlock }, reader + stop)

def parseRecordsBlocks (mem : Mem) (data : List UInt8) : ℕ → ℕ → Code Stop (List BlockRecord)
  | 0, _ => return []
  | n + 1, reader => do
    let (answer, reader) ← parseRecordBlocks mem data reader
    let answers ← parseRecordsBlocks mem data n reader
    return answer :: answers

/-- The array, and its records. -/
def parseResponseBlocks (mem : Mem) (data : List UInt8) : Code Stop (ℕ × List BlockRecord) := do
  let queryLen := (← lift (strlen (data.drop sizeofDnsHeader))) + 1
  let readerStartIdx := sizeofDnsHeader + queryLen + sizeofQuestion
  let ansCount := ntohs (← lift (loadU16 data 6))
  let array ← malloc
  let answers ← parseRecordsBlocks mem data ansCount readerStartIdx
  return (array, answers)

def freeResponse (array : ℕ) : List BlockRecord → Code Stop Unit
  | [] => free array
  | r :: rs => do
    free r.name
    free r.rdata
    freeResponse array rs

/-- The blocks of the records. -/
def recordBlocks (rs : List BlockRecord) : List ℕ := rs.flatMap fun r => [r.name, r.rdata]

theorem freeResponse_run (array : ℕ) (rs : List BlockRecord) (h : Heap) :
    freeResponse array rs h = freeAll (recordBlocks rs ++ [array]) h := by
  induction rs generalizing h with
  | nil =>
    show free array h = (free array >>= fun _ => pure ()) h
    by_cases hp : array ∈ h.live
    · have hfree : (free array : Code Stop Unit) h = .ok ((), h.erase array) := if_pos hp
      rw [bind_ok hfree, hfree]
      rfl
    · have hfree : (free array : Code Stop Unit) h = .error (.bad array) := if_neg hp
      rw [bind_error hfree, hfree]
  | cons r rs ih =>
    have hrest : freeResponse array rs = freeAll (recordBlocks rs ++ [array]) := funext ih
    rw [freeResponse, hrest]
    rfl

/-! ### What `parse_response` allocates -/

theorem allocates_readNameBlock (mem : Mem) (data : List UInt8) (reader : ℕ) :
    Allocates (readNameBlock mem data reader) (readName mem data reader) fun a b ps => a.2 = b ∧ ps = [a.1] := by
  refine .malloc fun p => ?_
  refine (Allocates.lift (readName mem data reader)).map ?_
  rintro a b ps ⟨rfl, rfl⟩
  exact ⟨rfl, rfl⟩

/-- A record has its two blocks. -/
theorem allocates_parseRecordBlocks (mem : Mem) (data : List UInt8) (reader : ℕ) :
    Allocates (parseRecordBlocks mem data reader) (parseRecord mem data reader) fun a b ps =>
      a.1.record = b.1 ∧ a.2 = b.2 ∧ ps = [a.1.name, a.1.rdata] := by
  refine (allocates_readNameBlock mem data reader).bind ?_
  rintro ⟨nameBlock, name, stop⟩ b ps ⟨rfl, rfl⟩
  refine (Allocates.lift (loadU16 data (reader + stop))).bind ?_
  rintro type b ps ⟨rfl, rfl⟩
  simp only
  split
  · refine (Allocates.lift (loadU16 data (reader + stop + 8))).bind ?_
    rintro len b ps ⟨rfl, rfl⟩
    refine .malloc fun rdataBlock => ?_
    refine (Allocates.lift (copyBytes data (ntohs len) (reader + stop + sizeofRData))).result ?_
    rintro rdata b ps ⟨rfl, rfl⟩
    exact ⟨rfl, rfl, rfl⟩
  · refine (allocates_readNameBlock mem data (reader + stop + sizeofRData)).result ?_
    rintro ⟨rdataBlock, rdata, stop'⟩ b ps ⟨rfl, rfl⟩
    exact ⟨rfl, rfl, rfl⟩

theorem allocates_parseRecordsBlocks (mem : Mem) (data : List UInt8) (n : ℕ) : ∀ reader,
    Allocates (parseRecordsBlocks mem data n reader) (parseRecords mem data n reader) fun a b ps =>
      a.map BlockRecord.record = b ∧ ps = recordBlocks a := by
  induction n with
  | zero => exact fun reader => .pure ⟨rfl, rfl⟩
  | succ n ih =>
    intro reader
    refine (allocates_parseRecordBlocks mem data reader).bind ?_
    rintro ⟨answer, reader'⟩ ⟨b, b'⟩ ps ⟨rfl, rfl, rfl⟩
    refine (ih reader').result ?_
    rintro answers b ps ⟨rfl, rfl⟩
    exact ⟨rfl, rfl⟩

/-- **What `parse_response` allocates**: the array, and two blocks for each record. -/
theorem allocates_parseResponseBlocks (mem : Mem) (data : List UInt8) :
    Allocates (parseResponseBlocks mem data) (parseResponse mem data) fun a b ps =>
      a.2.map BlockRecord.record = b ∧ ps = a.1 :: recordBlocks a.2 := by
  refine (Allocates.lift (strlen (data.drop sizeofDnsHeader))).bind ?_
  rintro len b ps ⟨rfl, rfl⟩
  refine (Allocates.lift (loadU16 data 6)).bind ?_
  rintro count b ps ⟨rfl, rfl⟩
  refine .malloc fun array => ?_
  refine (allocates_parseRecordsBlocks mem data (ntohs count) _).map ?_
  rintro answers b ps ⟨rfl, rfl⟩
  exact ⟨rfl, rfl⟩

/-! ### The resolver -/

/-- The members of a resolver with the blocks they point to: the array of servers, and the entries of `hostname_to_cb`
with their vectors. -/
structure HeapResolver (Cb : Type) where
  resolver : Resolver Cb
  servers : ℕ
  vectors : List (Host × ℕ)

namespace HeapResolver

variable {Cb : Type}

/-- The constructor. -/
def construct : Code Stop (HeapResolver Cb) := do
  let servers ← malloc
  return { resolver := .init, servers, vectors := [] }

def resolve (env : Env) (o : HeapResolver Cb) (hostname : Host) (cb : Cb) : Code Stop (HeapResolver Cb) := do
  match o.vectors.lookup hostname with
  | none =>
    let vector ← malloc
    let o := { o with vectors := o.vectors ++ [(hostname, vector)] }
    -- `push_back`
    deref vector
    return { o with resolver := (o.resolver.resolve env hostname cb).1 }
  | some vector =>
    deref vector
    return { o with resolver := (o.resolver.resolve env hostname cb).1 }

def callCallback (o : HeapResolver Cb) (hostname : Host) (ip : String) :
    Code Stop (HeapResolver Cb × List (Invocation Cb)) := do
  match o.vectors.lookup hostname with
  | none => return (o, [])
  | some vector =>
    deref vector
    let (resolver, calls) := o.resolver.callCallback hostname ip
    return ({ o with resolver }, calls)

/-- The loop of `handle_data`: the block of `hostname` besides the two strings. -/
def firstAddressBlocks (mem : Mem) (data : List UInt8) : List BlockRecord → Code Stop (Option (ℕ × Host × String))
  | [] => return none
  | ans :: answers => do
    let type ← lift (loadU16 data ans.record.resource)
    if ntohs type = qtypeA then
      deref ans.rdata
      return some (ans.name, ans.record.name, addressText mem ans.record.rdata)
    else firstAddressBlocks mem data answers

def handleData (env : Env) (o : HeapResolver Cb) (data : List UInt8) :
    Code Stop (HeapResolver Cb × List (Invocation Cb)) := do
  let (array, answers) ← parseResponseBlocks env.heap data
  let result ← match ← firstAddressBlocks env.heap data answers with
    | some (name, hostname, ip) => do
      -- the string is copied for `call_callback`
      deref name
      o.callCallback hostname ip
    | none => pure (o, [])
  freeResponse array answers
  return result

/-- The destructor; the vectors are deleted in the order of the list. -/
def destruct (o : HeapResolver Cb) : Code Stop Unit := do
  free o.servers
  freeAll (o.vectors.map Prod.snd)

/-- One action, with the calls of callbacks so far. -/
def step (env : Env) (s : HeapResolver Cb × List (Invocation Cb)) :
    Action Cb → Code Stop (HeapResolver Cb × List (Invocation Cb))
  | .resolve hostname cb => do
    let o ← s.1.resolve env hostname cb
    return (o, s.2)
  | .deliver data => do
    let (o, calls) ← s.1.handleData env data
    return (o, s.2 ++ calls)

/-- A resolver, the calls of callbacks so far and the heap. -/
abbrev State (Cb : Type) := (HeapResolver Cb × List (Invocation Cb)) × Heap

/-- An action that comes to its end. -/
def Steps (env : Env) (s : State Cb) (act : Action Cb) (s' : State Cb) : Prop := step env s.1 act s.2 = .ok s'

/-- The hostnames that have been asked for. -/
def asked : List (Action Cb) → List Host
  | [] => []
  | .resolve hostname _ :: acts => hostname :: asked acts
  | .deliver _ :: acts => asked acts

/-- The blocks of the resolver are in the heap, besides those that were there before, and it has an entry for each
hostname that has been asked for. -/
structure Owns (h₀ : Heap) (acts : List (Action Cb)) (o : HeapResolver Cb) (h : Heap) : Prop where
  grown : h₀.Grown (o.servers :: o.vectors.map Prod.snd) h
  keys : (o.vectors.map Prod.fst).Nodup
  hosts : ∀ host, host ∈ o.vectors.map Prod.fst ↔ host ∈ asked acts
  entry : ∀ host, o.vectors.lookup host = none ↔ o.resolver.hostnameToCb host = none

variable {h₀ h : Heap} {acts : List (Action Cb)} {o : HeapResolver Cb}

/-- The vector of an entry is in the heap. -/
theorem Owns.vector_live (hown : Owns h₀ acts o h) {hostname : Host} {vector : ℕ}
    (hv : o.vectors.lookup hostname = some vector) : vector ∈ h.live := by
  obtain ⟨l₁, l₂, hl, -⟩ := List.lookup_eq_some_iff.1 hv
  refine hown.grown.mem.2 (.inr (List.mem_cons_of_mem _ (List.mem_map.2 ⟨(hostname, vector), ?_, rfl⟩)))
  rw [hl]
  simp

/-- A change of the resolver that adds no entry, on a heap with the same blocks. -/
theorem Owns.keep (hown : Owns h₀ acts o h) {s : Resolver Cb} {h' : Heap} {acts' : List (Action Cb)}
    (hlive : h'.live = h.live) (hasked : ∀ host, host ∈ asked acts' ↔ host ∈ asked acts)
    (hentry : ∀ host, s.hostnameToCb host = none ↔ o.resolver.hostnameToCb host = none) :
    Owns h₀ acts' { o with resolver := s } h' where
  grown := ⟨hlive.trans hown.grown.live, hown.grown.nodup, hown.grown.new⟩
  keys := hown.keys
  hosts host := (hown.hosts host).trans (hasked host).symm
  entry host := (hown.entry host).trans (hentry host).symm

theorem entry_callCallback (s : Resolver Cb) (hostname : Host) (ip : String) (host : Host) :
    (s.callCallback hostname ip).1.hostnameToCb host = none ↔ s.hostnameToCb host = none := by
  unfold Resolver.callCallback
  cases hm : s.hostnameToCb hostname with
  | none => exact Iff.rfl
  | some cbs =>
    by_cases hh : host = hostname
    · subst hh
      simp [hm]
    · simp [hh]

theorem entry_resolve (env : Env) (s : Resolver Cb) (hostname : Host) (cb : Cb) (host : Host) :
    (s.resolve env hostname cb).1.hostnameToCb host = none ↔ host ≠ hostname ∧ s.hostnameToCb host = none := by
  unfold Resolver.resolve Resolver.pushBack
  cases hm : s.hostnameToCb hostname <;> by_cases hh : host = hostname <;> simp [hh]

/-- The loop of `handle_data` finds the rdata it looks at, and the name it returns is one of the records. -/
theorem firstAddressBlocks_run (mem : Mem) (data : List UInt8) {answers : List BlockRecord}
    (hlive : ∀ p ∈ recordBlocks answers, p ∈ h.live) :
    (∀ e, firstAddress mem data (answers.map BlockRecord.record) = .error e →
      firstAddressBlocks mem data answers h = .error (.stop e)) ∧
    (firstAddress mem data (answers.map BlockRecord.record) = .ok none →
      firstAddressBlocks mem data answers h = .ok (none, h)) ∧
    ∀ hostname ip, firstAddress mem data (answers.map BlockRecord.record) = .ok (some (hostname, ip)) →
      ∃ name ∈ recordBlocks answers, firstAddressBlocks mem data answers h = .ok (some (name, hostname, ip), h) := by
  induction answers with
  | nil => exact ⟨fun e he => (by cases he), fun _ => rfl, fun hostname ip hf => (by cases hf)⟩
  | cons ans answers ih =>
    have hdata : ans.rdata ∈ h.live := hlive _ (by simp [recordBlocks])
    obtain ⟨ih₁, ih₂, ih₃⟩ := ih fun p hp => hlive p (by
      rw [recordBlocks, List.flatMap_cons]
      exact List.mem_append_right _ hp)
    simp only [firstAddressBlocks, firstAddress, List.map_cons]
    cases htype : loadU16 data ans.record.resource with
    | error e =>
      refine ⟨?_, fun h0 => (by cases h0), fun hostname ip h0 => (by cases h0)⟩
      rintro e' he
      cases he
      exact bind_error rfl
    | ok type =>
      have hload : (lift (.ok type) : Code Stop ℕ) h = .ok (type, h) := rfl
      rw [bind_ok hload]
      by_cases hA : ntohs type = qtypeA
      · have hderef : (deref ans.rdata : Code Stop Unit) h = .ok ((), h) := if_pos hdata
        simp only [Bind.bind, Except.bind, if_pos hA]
        refine ⟨fun e he => (by cases he), fun h0 => (by cases h0), fun hostname ip hf => ?_⟩
        obtain ⟨rfl, rfl⟩ := Prod.mk.inj (Option.some.inj (Except.ok.inj hf))
        exact ⟨ans.name, by simp [recordBlocks], bind_ok hderef⟩
      · simp only [Bind.bind, Except.bind, if_neg hA]
        refine ⟨ih₁, ih₂, fun hostname ip hf => ?_⟩
        obtain ⟨name, hname, hrun⟩ := ih₃ hostname ip hf
        exact ⟨name, by rw [recordBlocks, List.flatMap_cons]; exact List.mem_append_right _ hname, hrun⟩

theorem callCallback_run (hown : Owns h₀ acts o h) {h₁ : Heap} (hle : ∀ p ∈ h.live, p ∈ h₁.live) (hostname : Host)
    (ip : String) : o.callCallback hostname ip h₁ =
      .ok (({ o with resolver := (o.resolver.callCallback hostname ip).1 },
        (o.resolver.callCallback hostname ip).2), h₁) := by
  unfold callCallback
  cases hv : o.vectors.lookup hostname with
  | none =>
    have hnone := (hown.entry hostname).1 hv
    simp only [Resolver.callCallback, hnone]
    rfl
  | some vector =>
    have hderef : (deref vector : Code Stop Unit) h₁ = .ok ((), h₁) := if_pos (hle _ (hown.vector_live hv))
    exact bind_ok hderef

/-- **`handle_data`** does what it does without a heap, and frees what it allocates. -/
theorem handleData_run (hown : Owns h₀ acts o h) (env : Env) (data : List UInt8) :
    (∀ e, o.resolver.handleData env data = .error e → o.handleData env data h = .error (.stop e)) ∧
    ∀ s calls, o.resolver.handleData env data = .ok (s, calls) →
      ∃ h', o.handleData env data h = .ok (({ o with resolver := s }, calls), h') ∧ h'.live = h.live ∧
        ∀ host, s.hostnameToCb host = none ↔ o.resolver.hostnameToCb host = none := by
  obtain ⟨hstop, hparse⟩ := allocates_parseResponseBlocks env.heap data
  unfold handleData Resolver.handleData
  cases hrecs : parseResponse env.heap data with
  | error e =>
    refine ⟨?_, fun s calls h0 => (by cases h0)⟩
    rintro e' he
    cases he
    exact bind_error (hstop e hrecs h)
  | ok recs =>
    obtain ⟨⟨array, answers⟩, h₁, ps, hrun, hgrown, rfl, rfl⟩ := hparse recs hrecs h
    rw [bind_ok hrun]
    have hlive : ∀ p ∈ recordBlocks answers, p ∈ h₁.live := fun p hp =>
      hgrown.mem.2 (.inr (List.mem_cons_of_mem _ hp))
    obtain ⟨hf₁, hf₂, hf₃⟩ := firstAddressBlocks_run env.heap data hlive
    obtain ⟨h₂, hfree, hback⟩ := hgrown.freeAll (ε := Stop) (List.perm_append_singleton array (recordBlocks answers))
    rw [← freeResponse_run] at hfree
    simp only [Bind.bind, Except.bind]
    cases hfirst : firstAddress env.heap data (answers.map BlockRecord.record) with
    | error e =>
      refine ⟨?_, fun s calls h0 => (by cases h0)⟩
      rintro e' he
      cases he
      exact bind_error (hf₁ e hfirst)
    | ok first =>
      cases first with
      | none =>
        refine ⟨fun e he => (by cases he), fun s calls h0 => ?_⟩
        obtain ⟨rfl, rfl⟩ := Prod.mk.inj (Except.ok.inj h0)
        exact ⟨h₂, (bind_ok (hf₂ hfirst)).trans ((bind_ok rfl).trans (bind_ok hfree)), hback, fun host => Iff.rfl⟩
      | some p =>
        obtain ⟨hostname, ip⟩ := p
        refine ⟨fun e he => (by cases he), fun s calls h0 => ?_⟩
        obtain ⟨rfl, rfl⟩ := Prod.mk.inj (Except.ok.inj h0)
        obtain ⟨name, hname, hf⟩ := hf₃ hostname ip hfirst
        have hderef : (deref name : Code Stop Unit) h₁ = .ok ((), h₁) := if_pos (hlive name hname)
        have hcall := callCallback_run hown (fun p hp => hgrown.mem.2 (.inl hp)) hostname ip
        refine ⟨h₂, ?_, hback, fun host => entry_callCallback o.resolver hostname ip host⟩
        exact (bind_ok hf).trans ((bind_ok hderef).trans ((bind_ok hcall).trans (bind_ok hfree)))

theorem asked_append (acts acts' : List (Action Cb)) : asked (acts ++ acts') = asked acts ++ asked acts' := by
  induction acts with
  | nil => rfl
  | cons act acts ih =>
    cases act with
    | resolve hostname cb => exact congrArg (hostname :: ·) ih
    | deliver data => exact ih

/-- **`resolve`** allocates a vector for a new hostname, and else nothing. -/
theorem resolve_run (hown : Owns h₀ acts o h) (env : Env) (hostname : Host) (cb : Cb) :
    ∃ o' h', o.resolve env hostname cb h = .ok (o', h') ∧ o'.resolver = (o.resolver.resolve env hostname cb).1 ∧
      Owns h₀ (acts ++ [.resolve hostname cb]) o' h' := by
  have hasked : asked (acts ++ [.resolve hostname cb]) = asked acts ++ [hostname] := asked_append acts _
  have hmem : o.vectors.lookup hostname = none ↔ hostname ∉ o.vectors.map Prod.fst := by
    rw [List.lookup_eq_none_iff]
    constructor
    · intro hl hm
      obtain ⟨p, hp, rfl⟩ := List.mem_map.1 hm
      simpa using hl p hp
    · intro hm p hp
      simp only [bne_iff_ne]
      rintro rfl
      exact hm (List.mem_map_of_mem hp)
  unfold resolve
  cases hv : o.vectors.lookup hostname with
  | some vector =>
    have hderef : (deref vector : Code Stop Unit) h = .ok ((), h) := if_pos (hown.vector_live hv)
    have hthere : hostname ∈ asked acts := (hown.hosts hostname).1 (by
      by_contra hm
      rw [hmem.2 hm] at hv
      cases hv)
    refine ⟨_, h, bind_ok hderef, rfl, hown.keep rfl (fun host => ?_) fun host => ?_⟩
    · rw [hasked, List.mem_append, List.mem_singleton]
      exact or_iff_left_of_imp fun heq => heq ▸ hthere
    · rw [entry_resolve, and_iff_right_of_imp]
      rintro hnone rfl
      rw [(hown.entry host).2 hnone] at hv
      cases hv
  | none =>
    obtain ⟨vector, h₁, hnew, hg⟩ := malloc_run (ε := Stop) h
    have hderef : (deref vector : Code Stop Unit) h₁ = .ok ((), h₁) := if_pos (hg.mem.2 (.inr (by simp)))
    refine ⟨_, h₁, (bind_ok hnew).trans (bind_ok hderef), rfl, ?_, ?_, fun host => ?_, fun host => ?_⟩
    · have hgrown := hown.grown.trans hg
      rw [List.cons_append] at hgrown
      simpa using hgrown
    · rw [List.map_append, List.nodup_append]
      refine ⟨hown.keys, by simp, ?_⟩
      rintro host hm host' hm' rfl
      simp only [List.map_cons, List.map_nil, List.mem_singleton] at hm'
      exact hmem.1 hv (hm' ▸ hm)
    · rw [hasked, List.map_append, List.mem_append, List.mem_append, hown.hosts host]
      simp
    · rw [entry_resolve, List.lookup_append, ← hown.entry host]
      by_cases hh : host = hostname
      · subst hh
        simp
      · have hbeq : (host == hostname) = false := beq_eq_false_iff_ne.2 hh
        simp [List.lookup_cons, hbeq, hh]

/-- **No block of the resolver is used or freed that is not there**, and but for its blocks the resolver does what it
does without them. -/
theorem step_run (hown : Owns h₀ acts o h) (env : Env) (calls : List (Invocation Cb)) (act : Action Cb) :
    (∀ e, History.plainStep env (o.resolver, calls) act = .error e → step env (o, calls) act h = .error (.stop e)) ∧
    ∀ s calls', History.plainStep env (o.resolver, calls) act = .ok (s, calls') →
      ∃ o' h', step env (o, calls) act h = .ok ((o', calls'), h') ∧ o'.resolver = s ∧
        Owns h₀ (acts ++ [act]) o' h' := by
  cases act with
  | resolve hostname cb =>
    obtain ⟨o', h', hrun, hresolver, hown'⟩ := resolve_run hown env hostname cb
    refine ⟨fun e he => (by cases he), fun s calls' hs => ?_⟩
    obtain ⟨rfl, rfl⟩ := Prod.mk.inj (Except.ok.inj hs)
    exact ⟨o', h', bind_ok hrun, hresolver, hown'⟩
  | deliver data =>
    obtain ⟨hstop, hrun⟩ := handleData_run hown env data
    simp only [History.plainStep]
    cases hd : o.resolver.handleData env data with
    | error e =>
      refine ⟨fun e' he => ?_, fun s calls' hs => (by cases hs)⟩
      cases he
      exact bind_error (hstop e hd)
    | ok p =>
      refine ⟨fun e he => (by cases he), fun s calls' hs => ?_⟩
      obtain ⟨rfl, rfl⟩ := Prod.mk.inj (Except.ok.inj hs)
      obtain ⟨h', hrun, hlive, hentry⟩ := hrun p.1 p.2 hd
      refine ⟨_, h', bind_ok hrun, rfl, hown.keep hlive (fun host => ?_) hentry⟩
      rw [asked_append]
      exact Iff.of_eq (congrArg _ (List.append_nil _))

/-- An action comes to its end, or stops for a reason that is none of the heap. -/
theorem step_cases (hown : Owns h₀ acts o h) (env : Env) (calls : List (Invocation Cb)) (act : Action Cb) :
    (∃ e, step env (o, calls) act h = .error (.stop e)) ∨
      ∃ o' calls' h', History.plainStep env (o.resolver, calls) act = .ok (o'.resolver, calls') ∧
        step env (o, calls) act h = .ok ((o', calls'), h') ∧ Owns h₀ (acts ++ [act]) o' h' := by
  obtain ⟨hstop, hrun⟩ := step_run hown env calls act
  cases hp : History.plainStep env (o.resolver, calls) act with
  | error e => exact .inl ⟨e, hstop e hp⟩
  | ok p =>
    obtain ⟨o', h', hok, hresolver, hown'⟩ := hrun p.1 p.2 hp
    exact .inr ⟨o', p.2, h', by rw [hresolver], hok, hown'⟩

/-- An action stops where it stops without blocks, and for the same reason. -/
theorem step_stops_iff (hown : Owns h₀ acts o h) (env : Env) (calls : List (Invocation Cb)) (act : Action Cb)
    (e : Stop) :
    History.plainStep env (o.resolver, calls) act = .error e ↔ step env (o, calls) act h = .error (.stop e) := by
  obtain ⟨hstop, hruns⟩ := step_run hown env calls act
  refine ⟨hstop e, fun he => ?_⟩
  cases hp : History.plainStep env (o.resolver, calls) act with
  | error e' =>
    cases (hstop e' hp).symm.trans he
    rfl
  | ok p =>
    obtain ⟨o', h', hok, -⟩ := hruns p.1 p.2 hp
    rw [hok] at he
    cases he

/-- How many blocks there are. -/
theorem Owns.card (hown : Owns h₀ acts o h) : h.live.card = h₀.live.card + 1 + (asked acts).toFinset.card := by
  have hdisj : Disjoint h₀.live (o.servers :: o.vectors.map Prod.snd).toFinset := by
    rw [Finset.disjoint_right]
    exact fun p hp => hown.grown.new p (List.mem_toFinset.1 hp)
  have hhosts : (asked acts).toFinset = (o.vectors.map Prod.fst).toFinset := by
    ext host
    rw [List.mem_toFinset, List.mem_toFinset, hown.hosts]
  rw [hown.grown.live, Finset.card_union_of_disjoint hdisj, List.toFinset_card_of_nodup hown.grown.nodup, hhosts,
    List.toFinset_card_of_nodup hown.keys]
  simp only [List.length_cons, List.length_map]
  omega

theorem owns_construct (h₀ : Heap) :
    ∃ o h, (construct : Code Stop (HeapResolver Cb)) h₀ = .ok (o, h) ∧ o.resolver = .init ∧ Owns h₀ [] o h := by
  obtain ⟨servers, h, hnew, hg⟩ := malloc_run (ε := Stop) h₀
  exact ⟨_, h, bind_ok hnew, rfl, hg, List.nodup_nil, fun host => Iff.rfl, fun host => iff_of_true rfl rfl⟩

theorem owns_run {env : Env} {s s' : State Cb} (hown : Owns h₀ [] s.1.1 s.2) (hrun : Runs (Steps env) s acts s') :
    acts.foldlM (History.plainStep env) (s.1.1.resolver, s.1.2) = .ok (s'.1.1.resolver, s'.1.2) ∧
      Owns h₀ acts s'.1.1 s'.2 := by
  refine hrun.induction_history (Q := fun acts t => acts.foldlM (History.plainStep env) (s.1.1.resolver, s.1.2) =
    .ok (t.1.1.resolver, t.1.2) ∧ Owns h₀ acts t.1.1 t.2) ⟨rfl, hown⟩ ?_
  rintro acts ⟨⟨o, calls⟩, h⟩ act t' - ⟨hplain, ht⟩ hu
  rcases step_cases ht env calls act with ⟨e, he⟩ | ⟨o', calls', h', hplain', hok, hown'⟩
  · rw [Steps, he] at hu
    cases hu
  · obtain rfl := Except.ok.inj (hok.symm.trans hu)
    refine ⟨?_, hown'⟩
    rw [List.foldlM_append, hplain]
    simp only [List.foldlM_cons, List.foldlM_nil, hplain', Bind.bind, Except.bind]
    rfl

/-- **Nothing leaks, and nothing is freed twice.**  For every heap, every resolver that is constructed on it and every
sequence of requests and messages it is used for: members and calls of callbacks are what they are without blocks; there
is one block for the servers and one for each hostname that has been asked for, however often and whether or not it has
been answered; the next request or message uses and frees only blocks that are there, stops where it stops without
blocks and for the same reason, and else makes the same calls; and the destructor leaves the heap as the constructor
found it. -/
theorem no_leak {env : Env} {o₀ : HeapResolver Cb} {h₁ : Heap} {calls : List (Invocation Cb)}
    (hnew : construct h₀ = .ok (o₀, h₁)) (hrun : Runs (Steps env) ((o₀, []), h₁) acts ((o, calls), h)) :
    acts.foldlM (History.plainStep env) (.init, []) = .ok (o.resolver, calls) ∧
    h.live.card = h₀.live.card + 1 + (asked acts).toFinset.card ∧
    (∀ act p, step env (o, calls) act h ≠ .error (.bad p)) ∧
    (∀ act e, History.plainStep env (o.resolver, calls) act = .error e ↔ step env (o, calls) act h = .error (.stop e)) ∧
    (∀ act s calls', History.plainStep env (o.resolver, calls) act = .ok (s, calls') →
      ∃ o' h', step env (o, calls) act h = .ok ((o', calls'), h') ∧ o'.resolver = s) ∧
    ∃ h', o.destruct h = .ok ((), h') ∧ h'.live = h₀.live := by
  obtain ⟨o', h', hnew', hinit, hown₀⟩ := owns_construct h₀
  obtain ⟨rfl, rfl⟩ := Prod.mk.inj (Except.ok.inj (hnew.symm.trans hnew'))
  obtain ⟨hplain, hown⟩ := owns_run (s := ((o₀, []), h₁)) hown₀ hrun
  refine ⟨hinit ▸ hplain, hown.card, fun act p hbad => ?_, step_stops_iff hown env calls, fun act s calls' hs => ?_,
    hown.grown.freeAll (List.Perm.refl _)⟩
  · rcases step_cases hown env calls act with ⟨e, he⟩ | ⟨o', calls', h', -, hok, -⟩
    · rw [he] at hbad
      cases hbad
    · rw [hok] at hbad
      cases hbad
  · obtain ⟨o', h', hok, hresolver, -⟩ := (step_run hown env calls act).2 s calls' hs
    exact ⟨o', h', hok, hresolver⟩

/-- A heap without blocks. -/
def noBlocks : Heap := { live := ∅, next := 0, fresh := by simp }

/-- A request for `a`, a message without answers, and requests for `b` and for `a` again. -/
def askedTwice : List (Action Unit) :=
  [.resolve [97] (), .deliver (List.replicate 17 0), .resolve [98] (), .resolve [97] ()]

theorem no_leak_askedTwice : ∃ o₀ h₁ o h, construct noBlocks = .ok (o₀, h₁) ∧
    Runs (Steps .zero) ((o₀, []), h₁) askedTwice ((o, []), h) ∧ h.live.card = 3 ∧
    ∃ h', o.destruct h = .ok ((), h') ∧ h'.live = ∅ := by
  obtain ⟨o₀, h₁, hnew, -, hown⟩ := owns_construct noBlocks
  obtain ⟨o₁, h₂, hrun₁, -, hown⟩ := resolve_run hown .zero [97] ()
  obtain ⟨h₃, hrun₂, hlive, hentry⟩ := (handleData_run hown .zero (List.replicate 17 0)).2 o₁.resolver [] rfl
  have hown := hown.keep hlive (fun _ => Iff.rfl) hentry
  obtain ⟨o₃, h₄, hrun₃, -, hown⟩ := resolve_run hown .zero [98] ()
  obtain ⟨o₄, h₅, hrun₄, -, -⟩ := resolve_run hown .zero [97] ()
  have hstep₁ : Steps .zero ((o₀, []), h₁) (.resolve [97] ()) ((o₁, []), h₂) := bind_ok hrun₁
  have hstep₂ : Steps .zero ((o₁, []), h₂) (.deliver (List.replicate 17 0)) ((o₁, []), h₃) := bind_ok hrun₂
  have hstep₃ : Steps .zero ((o₁, []), h₃) (.resolve [98] ()) ((o₃, []), h₄) := bind_ok hrun₃
  have hstep₄ : Steps .zero ((o₃, []), h₄) (.resolve [97] ()) ((o₄, []), h₅) := bind_ok hrun₄
  have hrun : Runs (Steps .zero) ((o₀, []), h₁) askedTwice ((o₄, []), h₅) :=
    .cons hstep₁ (.cons hstep₂ (.cons hstep₃ (.cons hstep₄ .nil)))
  obtain ⟨-, hcard, -, -, -, hdestruct⟩ := no_leak hnew hrun
  exact ⟨o₀, h₁, o₄, h₅, hnew, hrun, hcard, hdestruct⟩

end HeapResolver

end Shadowc.Dns
