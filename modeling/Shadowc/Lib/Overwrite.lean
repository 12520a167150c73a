import Mathlib.Data.List.Basic

/-!
# Overwriting a list in place

A loop that reads a list from the front and writes what it keeps over the entries it has read.  `overwrite l n xs` is
`l` with `xs` written from place `n` on; writing one entry and then the rest is writing all of them
(`overwrite_set`), and what lies behind the writes is as before (`drop_overwrite`).
-/

namespace Shadowc.Lib

variable {α : Type*}

/-- `l` with `xs` written from place `n` on. -/
def overwrite (l : List α) (n : ℕ) (xs : List α) : List α := l.take n ++ xs ++ l.drop (n + xs.length)

@[simp] theorem overwrite_nil (l : List α) (n : ℕ) : overwrite l n [] = l := by
  simp [overwrite]

/-- One entry, and then the rest. -/
theorem overwrite_set {l : List α} {n : ℕ} (h : n < l.length) (x : α) (xs : List α) :
    overwrite (l.set n x) (n + 1) xs = overwrite l n (x :: xs) := by
  have htake : (l.set n x).take (n + 1) = l.take n ++ [x] := by
    have hset : n < (l.set n x).length := by rwa [List.length_set]
    rw [List.take_succ_eq_append_getElem hset, List.getElem_set_self, List.take_set_of_le (Nat.le_refl n)]
  rw [overwrite, overwrite, htake, List.drop_set_of_lt (by omega), List.length_cons, List.append_assoc (l.take n),
    List.singleton_append, Nat.add_right_comm, Nat.add_assoc]

/-- What lies behind the writes is as before. -/
theorem drop_overwrite {l : List α} {n m : ℕ} {xs : List α} (hn : n ≤ l.length) (hm : n + xs.length ≤ m) :
    (overwrite l n xs).drop m = l.drop m := by
  have hlen : (l.take n ++ xs).length = n + xs.length := by
    rw [List.length_append, List.length_take, Nat.min_eq_left hn]
  rw [overwrite, List.drop_append, hlen, List.drop_eq_nil_of_le (by omega), List.nil_append, List.drop_drop,
    Nat.add_sub_cancel' hm]

end Shadowc.Lib
