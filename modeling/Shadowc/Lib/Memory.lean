import Mathlib.Data.List.Range
import Mathlib.Logic.Function.Basic

/-!
# Arrays as functions

Memory from an address on, as a function of the index.  An array with no initial value is a memory about which nothing
is assumed, and a store is `Function.update`.

* `slice m i n`: the `n` cells from index `i` on, as a list;
* `load l m`: the memory `m` with the list `l` at its start;
* `firstZero m n`: the C string length, for a string whose terminator stands at or before index `n`.
-/

namespace Shadowc.Lib.Memory

abbrev Mem := ℕ → UInt8

/-- The `n` cells from index `i` on. -/
def slice (m : Mem) (i n : ℕ) : List UInt8 := (List.range n).map fun k => m (i + k)

@[simp] theorem length_slice (m : Mem) (i n : ℕ) : (slice m i n).length = n := by simp [slice]

@[simp] theorem slice_zero (m : Mem) (i : ℕ) : slice m i 0 = [] := rfl

theorem getElem?_slice (m : Mem) (i : ℕ) {n k : ℕ} (h : k < n) : (slice m i n)[k]? = some (m (i + k)) := by
  simp [slice, h]

theorem slice_succ (m : Mem) (i n : ℕ) : slice m i (n + 1) = m i :: slice m (i + 1) n := by
  simp only [slice, List.range_succ_eq_map, List.map_cons, List.map_map, Nat.add_zero]
  congr 1
  apply List.map_congr_left
  intro k _
  simp only [Function.comp]
  congr 1
  omega

theorem slice_add (m : Mem) (i n k : ℕ) : slice m i (n + k) = slice m i n ++ slice m (i + n) k := by
  simp only [slice, List.range_add, List.map_append, List.map_map]
  congr 1
  apply List.map_congr_left
  intro j _
  simp only [Function.comp, Nat.add_assoc]

theorem slice_congr {m m' : Mem} {i j n : ℕ} (h : ∀ k < n, m (i + k) = m' (j + k)) : slice m i n = slice m' j n :=
  List.map_congr_left fun k hk => h k (List.mem_range.1 hk)

theorem slice_update_of_ge (m : Mem) {i n j : ℕ} (v : UInt8) (h : i + n ≤ j) :
    slice (Function.update m j v) i n = slice m i n :=
  slice_congr fun k hk => Function.update_of_ne (by omega) _ _

theorem slice_update_of_lt (m : Mem) {i n j : ℕ} (v : UInt8) (h : j < i) :
    slice (Function.update m j v) i n = slice m i n :=
  slice_congr fun k _ => Function.update_of_ne (by omega) _ _

/-- The memory `m` with the list `l` at its start. -/
def load (l : List UInt8) (m : Mem) : Mem := fun i => l[i]?.getD (m i)

/-- The cells that were loaded. -/
theorem slice_load (l : List UInt8) (m : Mem) : slice (load l m) 0 l.length = l := by
  apply List.ext_getElem (by simp)
  intro i h1 h2
  simp [slice, load, h2]

/-! ### C strings -/

/-- The index of the first zero cell, looked for below `n`; `n` when there is none. -/
def firstZero (m : Mem) : ℕ → ℕ
  | 0 => 0
  | n + 1 => if m 0 = 0 then 0 else firstZero (fun i => m (i + 1)) n + 1

theorem firstZero_le (m : Mem) (n : ℕ) : firstZero m n ≤ n := by
  induction n generalizing m with
  | zero => simp [firstZero]
  | succ n ih =>
    rw [firstZero]
    split
    · omega
    · have := ih fun i => m (i + 1)
      omega

theorem firstZero_eq {m : Mem} {n k : ℕ} (hk : k ≤ n) (h0 : m k = 0) (hne : ∀ i < k, m i ≠ 0) :
    firstZero m n = k := by
  induction n generalizing m k with
  | zero => simp [firstZero, Nat.le_zero.1 hk]
  | succ n ih =>
    cases k with
    | zero => simp [firstZero, h0]
    | succ k =>
      rw [firstZero, if_neg (hne 0 (by omega)),
        ih (m := fun i => m (i + 1)) (by omega) h0 fun i hi => hne (i + 1) (by omega)]

/-- The string at the start of the memory, its terminator at or before index `n`. -/
def cString (m : Mem) (n : ℕ) : List UInt8 := slice m 0 (firstZero m n)

theorem cString_eq {m : Mem} {n : ℕ} {s : List UInt8} (hn : s.length ≤ n) (hs : slice m 0 s.length = s)
    (h0 : m s.length = 0) (hne : ∀ x ∈ s, x ≠ 0) : cString m n = s := by
  have hcell : ∀ i < s.length, m i ≠ 0 := by
    intro i hi
    have h := getElem?_slice m 0 hi
    rw [hs, Nat.zero_add] at h
    exact hne _ (List.mem_of_getElem? h)
  rw [cString, firstZero_eq hn h0 hcell, hs]

end Shadowc.Lib.Memory
