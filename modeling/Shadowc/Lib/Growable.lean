import Mathlib.Data.List.Basic
import Mathlib.Data.Nat.Notation

/-!
# Growable vectors and their iterators

A vector keeps its elements in storage of some capacity, which it exchanges for larger storage when it is full.  Then
all iterators are invalid: an iterator belongs to a generation of the vector, and may be used as long as that is the
present one.

`pushAll_room` and `pushAll_full` say which of the two happens when elements are appended one by one.
-/

namespace Shadowc.Lib.Growable

/-- The capacity that follows a capacity that is used up. -/
structure Growth where
  next : ℕ → ℕ
  lt_next : ∀ n, n < next n

/-- Twice the capacity, and 1 after 0. -/
def Growth.doubling : Growth where
  next n := max 1 (2 * n)
  lt_next n := by omega

structure Vec (α : Type) where
  elems : List α
  capacity : ℕ
  /-- How often all iterators have become invalid. -/
  generation : ℕ
  length_le : elems.length ≤ capacity

structure Iter where
  generation : ℕ
  index : ℕ
  deriving DecidableEq, Repr

namespace Vec

variable {α : Type}

/-- A new vector. -/
def empty : Vec α := { elems := [], capacity := 0, generation := 0, length_le := Nat.le_refl 0 }

def pushBack (g : Growth) (v : Vec α) (a : α) : Vec α :=
  if h : v.elems.length < v.capacity then
    { v with elems := v.elems ++ [a], length_le := by rw [List.length_append]; exact h }
  else
    { elems := v.elems ++ [a]
      capacity := g.next v.capacity
      generation := v.generation + 1
      length_le := by
        have hle := v.length_le
        have hlt := g.lt_next v.capacity
        simp
        omega }

def clear (v : Vec α) : Vec α := { v with elems := [], generation := v.generation + 1, length_le := Nat.zero_le _ }

def beginIter (v : Vec α) : Iter := { generation := v.generation, index := 0 }

def endIter (v : Vec α) : Iter := { generation := v.generation, index := v.elems.length }

/-- `*it`; `none` when the iterator is invalid. -/
def deref (v : Vec α) (it : Iter) : Option α := if it.generation = v.generation then v.elems[it.index]? else none

/-- `++it`; `none` when the iterator is invalid. -/
def advance (v : Vec α) (it : Iter) : Option Iter :=
  if it.generation = v.generation ∧ it.index < v.elems.length then some { it with index := it.index + 1 } else none

/-! ### Appending -/

variable (g : Growth)

@[simp] theorem elems_pushBack (v : Vec α) (a : α) : (v.pushBack g a).elems = v.elems ++ [a] := by
  unfold pushBack
  split <;> rfl

/-- Elements appended one by one. -/
def pushAll (v : Vec α) (l : List α) : Vec α := l.foldl (pushBack g) v

theorem pushAll_cons (v : Vec α) (a : α) (l : List α) : v.pushAll g (a :: l) = (v.pushBack g a).pushAll g l := rfl

@[simp] theorem elems_pushAll (v : Vec α) (l : List α) : (v.pushAll g l).elems = v.elems ++ l := by
  induction l generalizing v with
  | nil => simp [pushAll]
  | cons a l ih => rw [pushAll_cons, ih, elems_pushBack, List.append_assoc]; rfl

theorem generation_le_pushBack (v : Vec α) (a : α) : v.generation ≤ (v.pushBack g a).generation := by
  unfold pushBack
  split
  · exact Nat.le_refl _
  · exact Nat.le_succ _

theorem generation_le_pushAll (v : Vec α) (l : List α) : v.generation ≤ (v.pushAll g l).generation := by
  induction l generalizing v with
  | nil => exact Nat.le_refl _
  | cons a l ih => exact Nat.le_trans (generation_le_pushBack g v a) (ih (v.pushBack g a))

/-- **As long as there is room**, the storage and the iterators stay. -/
theorem pushAll_room {v : Vec α} {l : List α} (h : v.elems.length + l.length ≤ v.capacity) :
    (v.pushAll g l).generation = v.generation ∧ (v.pushAll g l).capacity = v.capacity := by
  induction l generalizing v with
  | nil => exact ⟨rfl, rfl⟩
  | cons a l ih =>
    rw [List.length_cons] at h
    have hlt : v.elems.length < v.capacity := by omega
    have hpush : (v.pushBack g a).generation = v.generation ∧ (v.pushBack g a).capacity = v.capacity := by
      rw [pushBack, dif_pos hlt]
      exact ⟨rfl, rfl⟩
    have hroom : (v.pushBack g a).elems.length + l.length ≤ (v.pushBack g a).capacity := by
      rw [elems_pushBack, hpush.2, List.length_append, List.length_singleton]
      omega
    obtain ⟨hgen, hcap⟩ := ih hroom
    exact ⟨hgen.trans hpush.1, hcap.trans hpush.2⟩

/-- **When they do not fit**, all iterators have become invalid. -/
theorem pushAll_full {v : Vec α} {l : List α} (h : v.capacity < v.elems.length + l.length) :
    v.generation < (v.pushAll g l).generation := by
  induction l generalizing v with
  | nil =>
    have hle := v.length_le
    simp at h
    omega
  | cons a l ih =>
    rw [List.length_cons] at h
    by_cases hlt : v.elems.length < v.capacity
    · have hpush : (v.pushBack g a).generation = v.generation ∧ (v.pushBack g a).capacity = v.capacity := by
        rw [pushBack, dif_pos hlt]
        exact ⟨rfl, rfl⟩
      have hfull : (v.pushBack g a).capacity < (v.pushBack g a).elems.length + l.length := by
        rw [elems_pushBack, hpush.2, List.length_append, List.length_singleton]
        omega
      rw [← hpush.1]
      exact ih hfull
    · have hpush : (v.pushBack g a).generation = v.generation + 1 := by rw [pushBack, dif_neg hlt]
      have hle := generation_le_pushAll g (v.pushBack g a) l
      rw [pushAll_cons]
      omega

end Vec

end Shadowc.Lib.Growable
