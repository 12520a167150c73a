import Shadowc.Dns.Resolver
import Shadowc.Lib.Trace

/-!
# `read_name`, `parse_response` and `handle_data` with a log

The functions of `ReadName` and `Response`, and `handle_data`, with a log of what they touch: the bytes of the block in
which `read_name` collects a name, the offsets at which `parse_response` starts reading an answer, and the bytes of the
blocks that hold RDATA.  Without the log they are the functions they were (`handleDataTraced_outcome`).

The log goes on behind an access outside a block, as if the block were larger; the first such access is the one that
counts.
-/

namespace Shadowc.Dns

open Lib Reading Memory Trace Traced

inductive Access where
  /-- A byte of the block of `read_name`. -/
  | name (index : ℤ)
  /-- The start of an answer. -/
  | answer (offset : ℕ)
  /-- A byte of an RDATA block of this size. -/
  | rdata (size index : ℕ)
  deriving DecidableEq, Repr

abbrev Log (α : Type) := Traced Access Stop α

/-! ### `read_name` -/

def scanStepTraced (buffer : List UInt8) (s : Scan) : Log (Option Scan) := do
  let b ← lift (readByte buffer s.reader)
  if b = 0 then
    return none
  else if 192 ≤ b.toNat then
    let lo ← lift (readByte buffer (s.reader + 1))
    return some (s.jump (pointerOffset b lo))
  else
    emit (.name s.p)
    return some (s.push b)

def scanLoopTraced (buffer : List UInt8) : ℕ → Scan → Log Scan
  | 0, _ => lift (.error .hang)
  | n + 1, s => do
    match ← scanStepTraced buffer s with
    | none => return s
    | some s' => scanLoopTraced buffer n s'

/-- `name[i] = name[i+1]; i = i+1;` for each byte of the label. -/
def shiftLabelTraced : ℕ → Mem → ℕ → Log (Mem × ℕ)
  | 0, name, i => return (name, i)
  | j + 1, name, i => do
    emit (.name (i + 1))
    emit (.name i)
    shiftLabelTraced j (Function.update name i (name (i + 1))) (i + 1)

/-- `strlen(name)` reads up to the terminator. -/
def strlenTraced (name : Mem) (last : ℕ) : Log ℕ := do
  emits ((List.range (firstZero name last + 1)).map fun (k : ℕ) => .name k)
  return firstZero name last

def dotLoopTraced (last : ℕ) : ℕ → Mem → ℕ → Log (Mem × ℕ)
  | 0, name, i => return (name, i)
  | n + 1, name, i => do
    let len ← strlenTraced name last
    if i < len then
      emit (.name i)
      let (name, i) ← shiftLabelTraced (name i).toNat name i
      emit (.name i)
      dotLoopTraced last n (Function.update name i 46) (i + 1)
    else return (name, i)

/-- The last store is `name[i-1] = '\0'`, also when `i` is 0. -/
def dotNameTraced (last : ℕ) (name : Mem) : Log Mem := do
  let (name, i) ← dotLoopTraced last (last + 1) name 0
  emit (.name (i - 1))
  match i with
  | 0 => return name
  | i + 1 => return Function.update name i 0

def readNameTraced (heap : Mem) (buffer : List UInt8) (reader : ℕ) : Log (List UInt8 × ℕ) := do
  emit (.name 0)
  let s ← scanLoopTraced buffer (buffer.length + 1) (Scan.start heap reader)
  emit (.name s.p)
  let count := if s.jumped then s.count + 1 else s.count
  let name ← dotNameTraced s.p (Function.update s.name s.p 0)
  return (cString name s.p, count)

/-! ### `parse_response` -/

/-- The copy loop from index `j` on, with `n` bytes to go. -/
def copyBytesTraced (data : List UInt8) (size : ℕ) : ℕ → ℕ → ℕ → Log (List UInt8)
  | 0, _, _ => return []
  | n + 1, j, reader => do
    let b ← lift (readByte data reader)
    emit (.rdata size j)
    let bs ← copyBytesTraced data size n (j + 1) (reader + 1)
    return b :: bs

def parseRecordTraced (heap : Mem) (data : List UInt8) (reader : ℕ) : Log (ResRecord × ℕ) := do
  emit (.answer reader)
  let (name, stop) ← readNameTraced heap data reader
  let resource := reader + stop
  let reader := resource + sizeofRData
  let type ← lift (loadU16 data resource)
  if ntohs type = 1 then
    let resourceLen := ntohs (← lift (loadU16 data (resource + 8)))
    let rdata ← copyBytesTraced data resourceLen resourceLen 0 reader
    -- `rdata[resource_len] = '\0'`
    emit (.rdata resourceLen resourceLen)
    return ({ name, resource, rdata }, reader + resourceLen)
  else
    let (rdata, stop) ← readNameTraced heap data reader
    return ({ name, resource, rdata }, reader + stop)

def parseRecordsTraced (heap : Mem) (data : List UInt8) : ℕ → ℕ → Log (List ResRecord)
  | 0, _ => return []
  | n + 1, reader => do
    let (answer, reader) ← parseRecordTraced heap data reader
    let answers ← parseRecordsTraced heap data n reader
    return answer :: answers

def parseResponseTraced (heap : Mem) (data : List UInt8) : Log (List ResRecord) := do
  let queryLen := (← lift (strlen (data.drop sizeofDnsHeader))) + 1
  let readerStartIdx := sizeofDnsHeader + queryLen + sizeofQuestion
  let ansCount := ntohs (← lift (loadU16 data 6))
  parseRecordsTraced heap data ansCount readerStartIdx

/-! ### `handle_data` -/

def sizeofLong : ℕ := 8

def firstAddressTraced (heap : Mem) (data : List UInt8) : List ResRecord → Log (Option (List UInt8 × String))
  | [] => return none
  | ans :: answers => do
    let type ← lift (loadU16 data ans.resource)
    if ntohs type = qtypeA then
      -- `*(long*) ans->rdata`
      emits ((List.range sizeofLong).map fun k => .rdata ans.rdata.length k)
      return some (ans.name, addressText heap ans.rdata)
    else firstAddressTraced heap data answers

def Resolver.handleDataTraced {Cb : Type} (env : Env) (s : Resolver Cb) (data : List UInt8) :
    Log (Resolver Cb × List (Invocation Cb)) := do
  let answers ← parseResponseTraced env.heap data
  match ← firstAddressTraced env.heap data answers with
  | some (hostname, ip) => return s.callCallback hostname ip
  | none => return (s, [])

/-! ### Without the log -/

theorem scanStepTraced_outcome (buffer : List UInt8) (s : Scan) :
    (scanStepTraced buffer s).outcome = scanStep buffer s := by
  unfold scanStepTraced scanStep
  rw [outcome_bind]
  congr 1
  funext b
  split
  · rfl
  split
  · rw [outcome_bind]
    rfl
  · rfl

theorem scanLoopTraced_outcome (buffer : List UInt8) (n : ℕ) (s : Scan) :
    (scanLoopTraced buffer n s).outcome = scanLoop buffer n s := by
  induction n generalizing s with
  | zero => rfl
  | succ n ih =>
    rw [scanLoopTraced, scanLoop, outcome_bind, scanStepTraced_outcome]
    congr 1
    funext next
    cases next with
    | none => rfl
    | some s' => exact ih s'

theorem shiftLabelTraced_outcome (j : ℕ) (name : Mem) (i : ℕ) :
    (shiftLabelTraced j name i).outcome = .ok (shiftLabel j name i) := by
  induction j generalizing name i with
  | zero => rfl
  | succ j ih => exact ih _ _

theorem dotLoopTraced_outcome (last n : ℕ) (name : Mem) (i : ℕ) :
    (dotLoopTraced last n name i).outcome = .ok (dotLoop last n name i) := by
  induction n generalizing name i with
  | zero => rfl
  | succ n ih =>
    rw [dotLoopTraced, dotLoop, bind_ok (a := firstZero name last) rfl]
    show (ite _ _ _ : Log (Mem × ℕ)).outcome = _
    split
    · rw [bind_ok (outcome_emit _), bind_ok (shiftLabelTraced_outcome ..)]
      exact ih _ _
    · rfl

theorem dotNameTraced_outcome (last : ℕ) (name : Mem) :
    (dotNameTraced last name).outcome = .ok (dotName last name) := by
  rw [dotNameTraced, bind_ok (dotLoopTraced_outcome ..), dotName]
  cases dotLoop last (last + 1) name 0 with
  | mk name i => cases i <;> rfl

/-- **The log makes no difference** to what `read_name` returns. -/
theorem readNameTraced_outcome (heap : Mem) (buffer : List UInt8) (reader : ℕ) :
    (readNameTraced heap buffer reader).outcome = readName heap buffer reader := by
  rw [readNameTraced, bind_ok (outcome_emit _), readName, outcome_bind, scanLoopTraced_outcome]
  congr 1
  funext s
  rw [bind_ok (outcome_emit _), bind_ok (dotNameTraced_outcome ..)]
  rfl

theorem copyBytesTraced_outcome (data : List UInt8) (size n j reader : ℕ) :
    (copyBytesTraced data size n j reader).outcome = copyBytes data n reader := by
  induction n generalizing j reader with
  | zero => rfl
  | succ n ih =>
    rw [copyBytesTraced, copyBytes, outcome_bind]
    congr 1
    funext b
    rw [bind_ok (outcome_emit _), outcome_bind, ih]
    rfl

theorem parseRecordTraced_outcome (heap : Mem) (data : List UInt8) (reader : ℕ) :
    (parseRecordTraced heap data reader).outcome = parseRecord heap data reader := by
  rw [parseRecordTraced, bind_ok (outcome_emit _), parseRecord, outcome_bind, readNameTraced_outcome]
  congr 1
  funext p
  rw [outcome_bind]
  congr 1
  funext type
  split
  · rw [outcome_bind]
    congr 1
    funext len
    rw [outcome_bind, copyBytesTraced_outcome]
    rfl
  · rw [outcome_bind, readNameTraced_outcome]
    rfl

theorem parseRecordsTraced_outcome (heap : Mem) (data : List UInt8) (n reader : ℕ) :
    (parseRecordsTraced heap data n reader).outcome = parseRecords heap data n reader := by
  induction n generalizing reader with
  | zero => rfl
  | succ n ih =>
    rw [parseRecordsTraced, parseRecords, outcome_bind, parseRecordTraced_outcome]
    congr 1
    funext p
    rw [outcome_bind, ih]
    rfl

theorem parseResponseTraced_outcome (heap : Mem) (data : List UInt8) :
    (parseResponseTraced heap data).outcome = parseResponse heap data := by
  rw [parseResponseTraced, parseResponse, outcome_bind]
  congr 1
  funext len
  rw [outcome_bind]
  congr 1
  funext count
  exact parseRecordsTraced_outcome ..

theorem firstAddressTraced_outcome (heap : Mem) (data : List UInt8) (answers : List ResRecord) :
    (firstAddressTraced heap data answers).outcome = firstAddress heap data answers := by
  induction answers with
  | nil => rfl
  | cons ans answers ih =>
    rw [firstAddressTraced, firstAddress, outcome_bind]
    congr 1
    funext type
    split
    · rfl
    · exact ih

/-- **The log makes no difference** to what `handle_data` does. -/
theorem handleDataTraced_outcome {Cb : Type} (env : Env) (s : Resolver Cb) (data : List UInt8) :
    (s.handleDataTraced env data).outcome = s.handleData env data := by
  rw [Resolver.handleDataTraced, Resolver.handleData, outcome_bind, parseResponseTraced_outcome]
  congr 1
  funext answers
  rw [outcome_bind, firstAddressTraced_outcome]
  congr 1
  funext first
  cases first <;> rfl

/-! ### What `read_name` logs -/

def Access.IsName : Access → Prop
  | .name _ => True
  | _ => False

theorem scanLoopTraced_isName (buffer : List UInt8) (n : ℕ) (s : Scan) :
    All Access.IsName (scanLoopTraced buffer n s) := by
  induction n generalizing s with
  | zero => exact all_lift _
  | succ n ih =>
    refine all_bind.2 ⟨all_bind.2 ⟨all_lift _, fun b _ => ?_⟩, fun next _ => ?_⟩
    · split
      · exact all_pure _
      split
      · exact all_bind.2 ⟨all_lift _, fun _ _ => all_pure _⟩
      · exact all_bind.2 ⟨(all_emit _).2 trivial, fun _ _ => all_pure _⟩
    · cases next with
      | none => exact all_pure _
      | some s' => exact ih s'

theorem shiftLabelTraced_isName (j : ℕ) (name : Mem) (i : ℕ) : All Access.IsName (shiftLabelTraced j name i) := by
  induction j generalizing name i with
  | zero => exact all_pure _
  | succ j ih =>
    exact all_bind.2 ⟨(all_emit _).2 trivial, fun _ _ => all_bind.2 ⟨(all_emit _).2 trivial, fun _ _ => ih _ _⟩⟩

theorem dotLoopTraced_isName (last n : ℕ) (name : Mem) (i : ℕ) :
    All Access.IsName (dotLoopTraced last n name i) := by
  induction n generalizing name i with
  | zero => exact all_pure _
  | succ n ih =>
    refine all_bind.2 ⟨all_bind.2 ⟨?_, fun _ _ => all_pure _⟩, fun len _ => ?_⟩
    · rw [all_emits]
      intro a ha
      obtain ⟨k, -, rfl⟩ := List.mem_map.1 ha
      trivial
    · split
      · refine all_bind.2 ⟨(all_emit _).2 trivial, ?_⟩
        intro _ _
        refine all_bind.2 ⟨shiftLabelTraced_isName _ _ _, ?_⟩
        intro q _
        exact all_bind.2 ⟨(all_emit _).2 trivial, fun _ _ => ih _ _⟩
      · exact all_pure _

/-- **`read_name` touches its own block only.** -/
theorem readNameTraced_isName (heap : Mem) (buffer : List UInt8) (reader : ℕ) :
    All Access.IsName (readNameTraced heap buffer reader) := by
  refine all_bind.2 ⟨(all_emit _).2 trivial, ?_⟩
  intro _ _
  refine all_bind.2 ⟨scanLoopTraced_isName _ _ _, ?_⟩
  intro s _
  refine all_bind.2 ⟨(all_emit _).2 trivial, fun _ _ => all_bind.2 ⟨?_, fun _ _ => all_pure _⟩⟩
  refine all_bind.2 ⟨dotLoopTraced_isName _ _ _ _, ?_⟩
  intro q _
  refine all_bind.2 ⟨(all_emit _).2 trivial, ?_⟩
  intro _ _
  split <;> exact all_pure _

/-- A condition that does not concern the block of `read_name` holds of all that it logs. -/
theorem all_readNameTraced {p : Access → Prop} (hp : ∀ index, p (.name index)) (heap : Mem) (buffer : List UInt8)
    (reader : ℕ) : All p (readNameTraced heap buffer reader) := by
  refine (readNameTraced_isName heap buffer reader).mono ?_
  intro a ha
  cases a with
  | name index => exact hp index
  | answer offset => exact ha.elim
  | rdata size index => exact ha.elim

/-- The copy loop logs the bytes from `j` on, as far as it gets. -/
theorem all_copyBytesTraced {p : Access → Prop} (data : List UInt8) {size n j : ℕ} (reader : ℕ)
    (h : ∀ i < j + n, p (.rdata size i)) : All p (copyBytesTraced data size n j reader) := by
  induction n generalizing j reader with
  | zero => exact all_pure _
  | succ n ih =>
    refine all_bind.2 ⟨all_lift _, ?_⟩
    intro b _
    refine all_bind.2 ⟨(all_emit _).2 (h j (by omega)), ?_⟩
    intro _ _
    exact all_bind.2 ⟨ih (reader + 1) fun i hi => h i (by omega), fun _ _ => all_pure _⟩

end Shadowc.Dns
