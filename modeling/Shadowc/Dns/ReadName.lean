import Shadowc.Lib.Memory
import Shadowc.Lib.Reading
import Shadowc.Lib.Walk

/-!
# `read_name`: the label/pointer loop and the dot conversion

`readName` reads the name at offset `reader` of a message `buffer`.  Pointers into the message are offsets, the block
`name` that `malloc` leaves uninitialised is a memory `heap`, and what is returned is the string the block then holds
together with `*count`.

The loop is `scanLoop`, with a number of turns; `hop` is where one turn moves the reader.  The number of turns
`readName` allows is enough: a loop that has not ended by then never ends (`scanLoop_hang_iff`), and the same holds of
the dot conversion (`dotLoop_enough`).

`RawName` says without a loop which bytes are collected from an offset, and `readName_rawName` that `readName` returns
what they give.

All values are those of the C code; which cells of the 256-byte block are touched is not part of this module.
-/

namespace Shadowc.Dns

open Lib Reading Memory

/-- The variables of the collecting loop.  `name` is the block, `p` the next free cell of it. -/
structure Scan where
  reader : ℕ
  name : Mem
  p : ℕ
  jumped : Bool
  count : ℕ

/-- The offset a compression pointer with first byte `b` and second byte `lo` leads to. -/
def pointerOffset (b lo : UInt8) : ℕ := b.toNat * 256 + lo.toNat - 49152

/-- The branch of a pointer: `reader = buffer + offset - 1`, and then `reader = reader + 1` as for a plain byte. -/
def Scan.jump (s : Scan) (offset : ℕ) : Scan := { s with reader := offset, jumped := true }

/-- The branch of a plain byte: `name[p++] = *reader`. -/
def Scan.push (s : Scan) (b : UInt8) : Scan where
  reader := s.reader + 1
  name := Function.update s.name s.p b
  p := s.p + 1
  jumped := s.jumped
  count := if s.jumped then s.count else s.count + 1

/-- One turn of `while (*reader != 0)`; `none` when the loop is left. -/
def scanStep (buffer : List UInt8) (s : Scan) : Run (Option Scan) := do
  let b ← readByte buffer s.reader
  if b = 0 then
    return none
  else if 192 ≤ b.toNat then
    let lo ← readByte buffer (s.reader + 1)
    return some (s.jump (pointerOffset b lo))
  else
    return some (s.push b)

/-- The loop, for at most `n` turns. -/
def scanLoop (buffer : List UInt8) : ℕ → Scan → Run Scan
  | 0, _ => .error .hang
  | n + 1, s => do
    match ← scanStep buffer s with
    | none => return s
    | some s' => scanLoop buffer n s'

/-- The variables as the loop is entered. -/
def Scan.start (heap : Mem) (reader : ℕ) : Scan :=
  { reader, name := Function.update heap 0 0, p := 0, jumped := false, count := 1 }

/-- `for (j = 0; j < p; j++) { name[i] = name[i+1]; i = i+1; }` -/
def shiftLabel : ℕ → Mem → ℕ → Mem × ℕ
  | 0, name, i => (name, i)
  | j + 1, name, i => shiftLabel j (Function.update name i (name (i + 1))) (i + 1)

/-- `for (i = 0; i < strlen(name); i++) { … }`, for a string whose terminator stands at or before index `last`. -/
def dotLoop (last : ℕ) : ℕ → Mem → ℕ → Mem × ℕ
  | 0, name, i => (name, i)
  | n + 1, name, i =>
    if i < firstZero name last then
      let (name, i) := shiftLabel (name i).toNat name i
      dotLoop last n (Function.update name i 46) (i + 1)
    else (name, i)

/-- `3www6google3com` to `www.google.com`, in place.  Each turn moves `i` on by one at least, so that `last + 1` turns
are enough.  For the empty string the last store is `name[-1]`, which is no cell of the block. -/
def dotName (last : ℕ) (name : Mem) : Mem :=
  match dotLoop last (last + 1) name 0 with
  | (name, 0) => name
  | (name, i + 1) => Function.update name i 0

/-- The string in the block, and `*count`. -/
def readName (heap : Mem) (buffer : List UInt8) (reader : ℕ) : Run (List UInt8 × ℕ) := do
  let s ← scanLoop buffer (buffer.length + 1) (Scan.start heap reader)
  let name := Function.update s.name s.p 0
  let count := if s.jumped then s.count + 1 else s.count
  return (cString (dotName s.p name) s.p, count)

theorem shiftLabel_snd (n : ℕ) (m : Mem) (i : ℕ) : (shiftLabel n m i).2 = i + n := by
  induction n generalizing m i with
  | zero => rfl
  | succ n ih => rw [shiftLabel, ih]; omega

/-- **The turns of the conversion are enough**: further ones change nothing. -/
theorem dotLoop_enough {last n : ℕ} (k : ℕ) {m : Mem} {i : ℕ} (h : last < i + n) :
    dotLoop last (n + k) m i = dotLoop last n m i := by
  induction n generalizing m i with
  | zero =>
    have hz := firstZero_le m last
    cases k with
    | zero => rfl
    | succ k =>
      have hleft : ¬ i < firstZero m last := by omega
      rw [Nat.zero_add]
      simp only [dotLoop, if_neg hleft]
  | succ n ih =>
    have hsnd := shiftLabel_snd (m i).toNat m i
    rw [Nat.add_right_comm, dotLoop, dotLoop]
    split
    · exact ih (by omega)
    · rfl

/-! ### Where the reader goes -/

/-- The reader after one turn of the loop; `none` when the loop ends, by a zero byte or by a read outside. -/
def hop (buffer : List UInt8) (r : ℕ) : Option ℕ :=
  match buffer[r]? with
  | none => none
  | some b =>
    if b = 0 then none
    else if 192 ≤ b.toNat then
      match buffer[r + 1]? with
      | none => none
      | some lo => some (pointerOffset b lo)
    else some (r + 1)

section Step

variable {buffer : List UInt8} {s : Scan} {b lo : UInt8}

theorem scanStep_oob (h : buffer[s.reader]? = none) : scanStep buffer s = .error .oob := by
  unfold scanStep
  rw [readByte_oob h]
  rfl

theorem scanStep_zero (h : buffer[s.reader]? = some 0) : scanStep buffer s = .ok none := by
  unfold scanStep
  rw [readByte_eq h]
  rfl

theorem scanStep_push (h : buffer[s.reader]? = some b) (h0 : b ≠ 0) (h192 : b.toNat < 192) :
    scanStep buffer s = .ok (some (s.push b)) := by
  have h192' : ¬ 192 ≤ b.toNat := by omega
  simp only [scanStep, readByte_eq h, Bind.bind, Except.bind, if_neg h0, if_neg h192']
  rfl

theorem ne_zero_of_pointer (h192 : 192 ≤ b.toNat) : b ≠ 0 := by
  rintro rfl
  simp at h192

theorem scanStep_jump (h : buffer[s.reader]? = some b) (hlo : buffer[s.reader + 1]? = some lo)
    (h192 : 192 ≤ b.toNat) : scanStep buffer s = .ok (some (s.jump (pointerOffset b lo))) := by
  simp only [scanStep, readByte_eq h, readByte_eq hlo, Bind.bind, Except.bind, if_neg (ne_zero_of_pointer h192),
    if_pos h192]
  rfl

theorem scanStep_jump_oob (h : buffer[s.reader]? = some b) (hlo : buffer[s.reader + 1]? = none)
    (h192 : 192 ≤ b.toNat) : scanStep buffer s = .error .oob := by
  simp only [scanStep, readByte_eq h, readByte_oob hlo, Bind.bind, Except.bind, if_neg (ne_zero_of_pointer h192),
    if_pos h192]

/-- **What one turn does**, and where it takes the reader. -/
theorem scanStep_cases (buffer : List UInt8) (s : Scan) :
    (scanStep buffer s = .error .oob ∧ hop buffer s.reader = none) ∨
    (buffer[s.reader]? = some 0 ∧ scanStep buffer s = .ok none ∧ hop buffer s.reader = none) ∨
    (∃ offset, scanStep buffer s = .ok (some (s.jump offset)) ∧ hop buffer s.reader = some offset) ∨
    (∃ b, scanStep buffer s = .ok (some (s.push b)) ∧ hop buffer s.reader = some (s.reader + 1)) := by
  cases hb : buffer[s.reader]? with
  | none => exact .inl ⟨scanStep_oob hb, by simp [hop, hb]⟩
  | some b =>
    by_cases h0 : b = 0
    · subst h0
      exact .inr (.inl ⟨rfl, scanStep_zero hb, by simp [hop, hb]⟩)
    by_cases h192 : 192 ≤ b.toNat
    · cases hlo : buffer[s.reader + 1]? with
      | none => exact .inl ⟨scanStep_jump_oob hb hlo h192, by simp [hop, hb, h192, hlo]⟩
      | some lo => exact .inr (.inr (.inl ⟨_, scanStep_jump hb hlo h192, by simp [hop, hb, h0, h192, hlo]⟩))
    · exact .inr (.inr (.inr ⟨b, scanStep_push hb h0 (by omega), by simp [hop, hb, h0, h192]⟩))

end Step

theorem scanLoop_succ (buffer : List UInt8) (n : ℕ) (s : Scan) :
    scanLoop buffer (n + 1) s = scanStep buffer s >>= fun
      | none => .ok s
      | some s' => scanLoop buffer n s' := rfl

theorem hop_lt {buffer : List UInt8} {r r' : ℕ} (h : hop buffer r = some r') : r < buffer.length := by
  unfold hop at h
  cases hb : buffer[r]? with
  | none => simp [hb] at h
  | some b => exact (List.getElem?_eq_some_iff.1 hb).1

/-- The loop uses up its turns exactly when the reader can hop that often. -/
theorem scanLoop_hang_iff_steps (buffer : List UInt8) (n : ℕ) (s : Scan) :
    scanLoop buffer n s = .error .hang ↔ Walk.steps (hop buffer) n s.reader ≠ none := by
  induction n generalizing s with
  | zero => simp [scanLoop]
  | succ n ih =>
    rw [scanLoop_succ]
    rcases scanStep_cases buffer s with ⟨hs, hh⟩ | ⟨-, hs, hh⟩ | ⟨_, hs, hh⟩ | ⟨_, hs, hh⟩
    · simp [hs, Walk.steps_succ_of_none hh, Bind.bind, Except.bind]
    · simp [hs, Walk.steps_succ_of_none hh, Bind.bind, Except.bind]
    · rw [hs, Walk.steps_succ_of_some hh]
      exact ih _
    · rw [hs, Walk.steps_succ_of_some hh]
      exact ih _

/-- The offsets a reader can hop from lie in the message. -/
theorem hop_mem_range {buffer : List UInt8} {r r' : ℕ} (h : hop buffer r = some r') :
    r ∈ Finset.range buffer.length := Finset.mem_range.2 (hop_lt h)

/-- **A walk from an offset loops exactly when the loop of `read_name` goes on for ever from it.** -/
theorem loops_iff_hang (buffer : List UInt8) (s : Scan) :
    Walk.Loops (hop buffer) s.reader ↔ ∀ n, scanLoop buffer n s = .error .hang := by
  have h := Walk.not_loops_iff (f := hop buffer) (Finset.range buffer.length) (fun _ _ => hop_mem_range)
    (a := s.reader)
  rw [← not_iff_not, h]
  simp only [scanLoop_hang_iff_steps, not_forall, not_not]

/-- **The turns `read_name` is given are enough.** -/
theorem scanLoop_hang_iff (buffer : List UInt8) (s : Scan) :
    scanLoop buffer (buffer.length + 1) s = .error .hang ↔ ∀ n, scanLoop buffer n s = .error .hang := by
  refine ⟨fun h => (loops_iff_hang buffer s).1 ?_, fun h => h _⟩
  by_contra hl
  have := Walk.steps_eq_none_of_not_loops (Finset.range buffer.length) (fun _ _ _ => hop_mem_range) hl
  rw [Finset.card_range] at this
  exact (scanLoop_hang_iff_steps buffer _ s).1 h this

/-- A loop that has ended ends the same way when more turns are allowed. -/
theorem scanLoop_mono {buffer : List UInt8} {m n : ℕ} (hmn : m ≤ n) {s : Scan}
    (h : scanLoop buffer m s ≠ .error .hang) : scanLoop buffer n s = scanLoop buffer m s := by
  induction m generalizing n s with
  | zero => exact absurd rfl h
  | succ m ih =>
    obtain ⟨n, rfl⟩ : ∃ k, n = k + 1 := ⟨n - 1, by omega⟩
    rw [scanLoop_succ] at h
    rw [scanLoop_succ, scanLoop_succ]
    rcases scanStep_cases buffer s with ⟨hs, -⟩ | ⟨-, hs, -⟩ | ⟨_, hs, -⟩ | ⟨_, hs, -⟩
    all_goals rw [hs] at h ⊢
    · rfl
    · rfl
    · exact ih (by omega) h
    · exact ih (by omega) h

/-- A loop that is left after any number of turns is left within the turns `read_name` is given. -/
theorem scanLoop_enough {buffer : List UInt8} {n : ℕ} {s s' : Scan} (h : scanLoop buffer n s = .ok s') :
    scanLoop buffer (buffer.length + 1) s = .ok s' := by
  have hn : scanLoop buffer n s ≠ .error .hang := by rw [h]; simp
  have hne : scanLoop buffer (buffer.length + 1) s ≠ .error .hang := fun hh =>
    hn ((scanLoop_hang_iff buffer s).1 hh n)
  rw [← h]
  rcases Nat.le_total n (buffer.length + 1) with hle | hle
  · exact scanLoop_mono hle hn
  · exact (scanLoop_mono hle hne).symm

theorem readName_hang_iff (heap : Mem) (buffer : List UInt8) (r : ℕ) :
    readName heap buffer r = .error .hang ↔ Walk.Loops (hop buffer) r := by
  have hscan := scanLoop_hang_iff buffer (Scan.start heap r)
  rw [← loops_iff_hang] at hscan
  refine Iff.trans ⟨fun h => ?_, fun h => bind_eq_error.2 (.inl h)⟩ hscan
  rcases bind_eq_error.1 h with h | ⟨s, -, h⟩
  · exact h
  · cases h

/-! ### What is collected -/

/-- From offset `r` the labels and pointers lead to a zero byte.  On the way the bytes `bs` are collected, and in place
the name takes `k` bytes. -/
inductive RawName (buffer : List UInt8) : ℕ → List UInt8 → ℕ → Prop
  | zero {r : ℕ} : buffer[r]? = some 0 → RawName buffer r [] 1
  | plain {r k : ℕ} {b : UInt8} {bs : List UInt8} : buffer[r]? = some b → b ≠ 0 → b.toNat < 192 →
      RawName buffer (r + 1) bs k → RawName buffer r (b :: bs) (k + 1)
  | pointer {r k : ℕ} {hi lo : UInt8} {bs : List UInt8} : buffer[r]? = some hi → buffer[r + 1]? = some lo →
      192 ≤ hi.toNat → RawName buffer ((hi.toNat - 192) * 256 + lo.toNat) bs k → RawName buffer r bs 2

theorem pointerOffset_eq {hi lo : UInt8} (h : 192 ≤ hi.toNat) :
    pointerOffset hi lo = (hi.toNat - 192) * 256 + lo.toNat := by
  unfold pointerOffset
  omega

theorem Scan.slice_push (s : Scan) (b : UInt8) :
    slice (s.push b).name 0 (s.push b).p = slice s.name 0 s.p ++ [b] := by
  simp only [push]
  rw [slice_add, slice_update_of_ge _ _ (by omega), slice_succ]
  simp

/-- **The loop collects the bytes of the name it starts at**, and counts the bytes the name takes in place; after a
jump nothing is counted any more. -/
theorem scanLoop_rawName {buffer bs : List UInt8} {r k : ℕ} (h : RawName buffer r bs k) (s : Scan)
    (hs : s.reader = r) :
    ∃ n s', scanLoop buffer n s = .ok s' ∧ slice s'.name 0 s'.p = slice s.name 0 s.p ++ bs ∧
      (s.jumped = true → s'.jumped = true ∧ s'.count = s.count) ∧
      (s.jumped = false → (if s'.jumped then s'.count + 1 else s'.count) + 1 = s.count + k) := by
  induction h generalizing s with
  | zero h0 =>
    subst hs
    refine ⟨1, s, ?_, by simp, fun hj => ⟨hj, rfl⟩, fun hj => by simp [hj]⟩
    rw [scanLoop_succ, scanStep_zero h0]
    rfl
  | @plain r k b bs hb h0 h192 _ ih =>
    subst hs
    obtain ⟨n, s', hn, hname, hj, hc⟩ := ih (s.push b) rfl
    refine ⟨n + 1, s', ?_, ?_, fun h => ?_, fun h => ?_⟩
    · rw [scanLoop_succ, scanStep_push hb h0 h192]
      exact hn
    · rw [hname, s.slice_push, List.append_assoc]
      rfl
    · simpa [Scan.push, h] using hj h
    · have := hc h
      simp only [Scan.push, h] at this
      rw [this]
      simp only [Bool.false_eq_true, if_false]
      omega
  | @pointer r k hi lo bs hhi hlo h192 _ ih =>
    subst hs
    have hoff : pointerOffset hi lo = (hi.toNat - 192) * 256 + lo.toNat := pointerOffset_eq h192
    obtain ⟨n, s', hn, hname, hj, -⟩ := ih (s.jump (pointerOffset hi lo)) (by rw [Scan.jump, hoff])
    obtain ⟨hj', hc'⟩ := hj rfl
    have hstep := scanStep_jump hhi hlo h192
    rw [hoff] at hstep hn hname hc'
    refine ⟨n + 1, s', ?_, hname, fun _ => ⟨hj', hc'⟩, fun _ => ?_⟩
    · rw [scanLoop_succ, hstep]
      exact hn
    · rw [hj', hc']
      rfl

/-- A loop that is left has come to a zero byte. -/
theorem rawName_of_scanLoop {buffer : List UInt8} {n : ℕ} {s s' : Scan} (h : scanLoop buffer n s = .ok s') :
    ∃ bs k, RawName buffer s.reader bs k := by
  induction n generalizing s with
  | zero => cases h
  | succ n ih =>
    rw [scanLoop_succ] at h
    obtain ⟨next, hstep, h⟩ := bind_eq_ok.1 h
    unfold scanStep at hstep
    obtain ⟨b, hb, hstep⟩ := bind_eq_ok.1 hstep
    have hb := readByte_ok hb
    split at hstep
    · next h0 => exact ⟨[], 1, .zero (by rw [hb, h0])⟩
    next h0 =>
    split at hstep
    · next h192 =>
      obtain ⟨lo, hlo, hstep⟩ := bind_eq_ok.1 hstep
      obtain rfl := Except.ok.inj hstep
      obtain ⟨bs, k, hk⟩ := ih h
      rw [Scan.jump, pointerOffset_eq h192] at hk
      exact ⟨bs, 2, .pointer hb (readByte_ok hlo) h192 hk⟩
    · next h192 =>
      obtain rfl := Except.ok.inj hstep
      obtain ⟨bs, k, hk⟩ := ih h
      exact ⟨b :: bs, k + 1, .plain hb h0 (by omega) hk⟩

/-- **`read_name` converts what it has collected**: the bytes stand at the start of the block, with a zero behind. -/
theorem readName_rawName (heap : Mem) {buffer bs : List UInt8} {r k : ℕ} (h : RawName buffer r bs k) :
    ∃ m, slice m 0 bs.length = bs ∧ m bs.length = 0 ∧
      readName heap buffer r = .ok (cString (dotName bs.length m) bs.length, k) := by
  obtain ⟨n, s', hn, hname, -, hc⟩ := scanLoop_rawName h (Scan.start heap r) rfl
  have hname : slice s'.name 0 s'.p = bs := hname
  have hp : s'.p = bs.length := by rw [← hname, length_slice]
  have hcount : (if s'.jumped then s'.count + 1 else s'.count) = k := by
    have := hc rfl
    simp only [Scan.start] at this
    omega
  refine ⟨Function.update s'.name s'.p 0, ?_, ?_, ?_⟩
  · rw [← hp, slice_update_of_ge _ _ (by omega), hname]
  · rw [← hp, Function.update_self]
  · rw [← hp, readName, scanLoop_enough hn]
    simp only [Bind.bind, Except.bind, hcount]
    rfl

/-- The names `read_name` returns from, and their `*count`. -/
theorem readName_ok_iff (heap : Mem) (buffer : List UInt8) (r k : ℕ) :
    (∃ name, readName heap buffer r = .ok (name, k)) ↔ ∃ bs, RawName buffer r bs k := by
  constructor
  · rintro ⟨name, h⟩
    obtain ⟨s', hs', -⟩ := bind_eq_ok.1 h
    obtain ⟨bs, k', hk'⟩ := rawName_of_scanLoop hs'
    obtain ⟨m, -, -, h'⟩ := readName_rawName heap hk'
    obtain rfl : k = k' := congrArg Prod.snd (Except.ok.inj (h.symm.trans h'))
    exact ⟨bs, hk'⟩
  · rintro ⟨bs, h⟩
    obtain ⟨m, -, -, h'⟩ := readName_rawName heap h
    exact ⟨_, h'⟩

end Shadowc.Dns
