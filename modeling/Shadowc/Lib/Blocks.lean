import Mathlib.Data.Finset.Card

/-!
# Code that allocates and frees

A heap is the set of the blocks that have been allocated and not freed.  Code on it stops when it frees or uses a block
that is not there, or for a reason of its own.

* `Heap.Grown h ps h'`: what `h'` has more than `h` are the distinct blocks `ps`;
* `Allocates x y Q`: code that does what `y` does, and on the way allocates; with a rule for each construct;
* `Grown.freeAll`: blocks that were allocated can be freed, each once, in any order, and the heap is as before.
-/

namespace Shadowc.Lib.Blocks

/-- The blocks in use; blocks from `next` on have never been. -/
structure Heap where
  live : Finset ℕ
  next : ℕ
  fresh : ∀ p ∈ live, p < next

/-- Why code stops: a block that is not there, or something else. -/
inductive Fault (ε : Type) where
  | bad (p : ℕ)
  | stop (e : ε)

abbrev Code (ε α : Type) := StateT Heap (Except (Fault ε)) α

variable {ε α β γ δ : Type}

/-- A new block. -/
def malloc : Code ε ℕ := fun h =>
  .ok (h.next, {
    live := insert h.next h.live
    next := h.next + 1
    fresh := by
      intro p hp
      rcases Finset.mem_insert.1 hp with rfl | hp
      · exact Nat.lt_succ_self _
      · exact Nat.lt_succ_of_lt (h.fresh p hp) })

/-- The heap without a block. -/
def Heap.erase (h : Heap) (p : ℕ) : Heap where
  live := h.live.erase p
  next := h.next
  fresh q hq := h.fresh q (Finset.mem_of_mem_erase hq)

def free (p : ℕ) : Code ε Unit := fun h => if p ∈ h.live then .ok ((), h.erase p) else .error (.bad p)

/-- A use of a block. -/
def deref (p : ℕ) : Code ε Unit := fun h => if p ∈ h.live then .ok ((), h) else .error (.bad p)

/-- Code that leaves the heap alone. -/
def lift : Except ε α → Code ε α
  | .ok a => fun h => .ok (a, h)
  | .error e => fun _ => .error (.stop e)

def freeAll : List ℕ → Code ε Unit
  | [] => pure ()
  | p :: ps => do
    free p
    freeAll ps

theorem bind_ok {x : Code ε α} {f : α → Code ε β} {h h' : Heap} {a : α} (hx : x h = .ok (a, h')) :
    (x >>= f) h = f a h' := by
  show Except.bind (x h) _ = _
  rw [hx]
  rfl

theorem bind_error {x : Code ε α} {f : α → Code ε β} {h : Heap} {e : Fault ε} (hx : x h = .error e) :
    (x >>= f) h = .error e := by
  show Except.bind (x h) _ = _
  rw [hx]
  rfl

/-! ### What is allocated -/

/-- The heap `h'` has the distinct new blocks `ps` besides those of `h`. -/
structure Heap.Grown (h : Heap) (ps : List ℕ) (h' : Heap) : Prop where
  live : h'.live = h.live ∪ ps.toFinset
  nodup : ps.Nodup
  new : ∀ p ∈ ps, p ∉ h.live

theorem Heap.Grown.refl (h : Heap) : h.Grown [] h := ⟨by simp, List.nodup_nil, by simp⟩

theorem Heap.Grown.mem {h h' : Heap} {ps : List ℕ} (hg : h.Grown ps h') {p : ℕ} :
    p ∈ h'.live ↔ p ∈ h.live ∨ p ∈ ps := by
  rw [hg.live, Finset.mem_union, List.mem_toFinset]

theorem Heap.Grown.trans {h h' h'' : Heap} {ps qs : List ℕ} (hp : h.Grown ps h') (hq : h'.Grown qs h'') :
    h.Grown (ps ++ qs) h'' := by
  have hnew : ∀ q ∈ qs, q ∉ h.live ∧ q ∉ ps := fun q hmem => by
    have := hq.new q hmem
    rwa [hp.mem, not_or] at this
  refine ⟨?_, ?_, ?_⟩
  · rw [hq.live, hp.live, List.toFinset_append, Finset.union_assoc]
  · rw [List.nodup_append]
    refine ⟨hp.nodup, hq.nodup, ?_⟩
    rintro p hmem q hmem' rfl
    exact (hnew p hmem').2 hmem
  · intro p hmem
    rcases List.mem_append.1 hmem with hmem | hmem
    · exact hp.new p hmem
    · exact (hnew p hmem).1

theorem malloc_run (h : Heap) : ∃ p h', (malloc : Code ε ℕ) h = .ok (p, h') ∧ h.Grown [p] h' := by
  refine ⟨h.next, _, rfl, ⟨?_, List.nodup_singleton _, ?_⟩⟩
  · rw [List.toFinset_cons, List.toFinset_nil, Finset.union_comm]
    rfl
  · intro p hp hlive
    obtain rfl := List.mem_singleton.1 hp
    exact Nat.lt_irrefl _ (h.fresh _ hlive)

/-- The code does what `y` does: it stops when `y` does, and for the same reason; and when `y` returns, it returns too,
with new blocks, and `Q` says what the values and the blocks have to do with each other. -/
def Allocates (x : Code ε α) (y : Except ε β) (Q : α → β → List ℕ → Prop) : Prop :=
  (∀ e, y = .error e → ∀ h, x h = .error (.stop e)) ∧
  ∀ b, y = .ok b → ∀ h, ∃ a h' ps, x h = .ok (a, h') ∧ h.Grown ps h' ∧ Q a b ps

section Rules

variable {Q : α → β → List ℕ → Prop} {Q' : γ → δ → List ℕ → Prop}

theorem Allocates.pure {a : α} {b : β} (h : Q a b []) : Allocates (pure a : Code ε α) (.ok b) Q := by
  refine ⟨fun e he => (by cases he), fun b' hb' heap => ?_⟩
  cases hb'
  exact ⟨a, heap, [], rfl, .refl heap, h⟩

theorem Allocates.lift (y : Except ε α) : Allocates (lift y) y fun a b ps => a = b ∧ ps = [] := by
  refine ⟨?_, ?_⟩
  · rintro e rfl heap
    rfl
  · rintro b rfl heap
    exact ⟨b, heap, [], rfl, .refl heap, rfl, rfl⟩

/-- An allocation, which `y` does not have. -/
theorem Allocates.malloc {f : ℕ → Code ε γ} {y : Except ε δ}
    (hf : ∀ p, Allocates (f p) y fun c d qs => Q' c d (p :: qs)) : Allocates (malloc >>= f) y Q' := by
  refine ⟨fun e he heap => ?_, fun d hd heap => ?_⟩
  · obtain ⟨p, h₁, h, -⟩ := malloc_run (ε := ε) heap
    rw [bind_ok h]
    exact (hf p).1 e he h₁
  · obtain ⟨p, h₁, h, hp⟩ := malloc_run (ε := ε) heap
    obtain ⟨c, h₂, qs, h', hq, hQ⟩ := (hf p).2 d hd h₁
    exact ⟨c, h₂, p :: qs, (bind_ok h).trans h', hp.trans hq, hQ⟩

/-- One after the other. -/
theorem Allocates.bind {x : Code ε α} {y : Except ε β} {f : α → Code ε γ} {g : β → Except ε δ}
    (hx : Allocates x y Q) (hf : ∀ a b ps, Q a b ps → Allocates (f a) (g b) fun c d qs => Q' c d (ps ++ qs)) :
    Allocates (x >>= f) (y >>= g) Q' := by
  cases y with
  | error e =>
    refine ⟨fun e' he heap => ?_, fun d hd => (by cases hd)⟩
    cases he
    exact bind_error (hx.1 e rfl heap)
  | ok b =>
    refine ⟨fun e he heap => ?_, fun d hd heap => ?_⟩
    · obtain ⟨a, h₁, ps, h, -, hQ⟩ := hx.2 b rfl heap
      rw [bind_ok h]
      exact (hf a b ps hQ).1 e he h₁
    · obtain ⟨a, h₁, ps, h, hp, hQ⟩ := hx.2 b rfl heap
      obtain ⟨c, h₂, qs, h', hq, hQ'⟩ := (hf a b ps hQ).2 d hd h₁
      exact ⟨c, h₂, ps ++ qs, (bind_ok h).trans h', hp.trans hq, hQ'⟩

/-- At the end the result is put together, in two ways. -/
theorem Allocates.result {x : Code ε α} {y : Except ε β} {f : α → γ} {g : β → δ} (hx : Allocates x y Q)
    (hf : ∀ a b ps, Q a b ps → Q' (f a) (g b) ps) :
    Allocates (x >>= fun a => Pure.pure (f a)) (y >>= fun b => .ok (g b)) Q' :=
  hx.bind fun a b ps h => .pure (by rw [List.append_nil]; exact hf a b ps h)

/-- The code puts together what `y` returns as it is. -/
theorem Allocates.map {x : Code ε α} {y : Except ε β} {f : α → γ} {Q' : γ → β → List ℕ → Prop} (hx : Allocates x y Q)
    (hf : ∀ a b ps, Q a b ps → Q' (f a) b ps) : Allocates (x >>= fun a => Pure.pure (f a)) y Q' := by
  have h := hx.result (g := id) hf
  rwa [show (y >>= fun b => .ok (id b)) = y by cases y <;> rfl] at h

end Rules

/-! ### What is freed -/

theorem freeAll_run {ps : List ℕ} (hn : ps.Nodup) : ∀ {h : Heap}, (∀ p ∈ ps, p ∈ h.live) →
    ∃ h', (freeAll ps : Code ε Unit) h = .ok ((), h') ∧ h'.live = h.live \ ps.toFinset := by
  induction ps with
  | nil => exact fun {h} _ => ⟨h, rfl, by simp⟩
  | cons p ps ih =>
    intro h hp
    obtain ⟨hpn, hn⟩ := List.nodup_cons.1 hn
    have hfree : (free p : Code ε Unit) h = .ok ((), h.erase p) := if_pos (hp p (by simp))
    have hrest : ∀ q ∈ ps, q ∈ (h.erase p).live := by
      intro q hq
      refine Finset.mem_erase.2 ⟨?_, hp q (List.mem_cons_of_mem _ hq)⟩
      rintro rfl
      exact hpn hq
    obtain ⟨h', hrun, hlive⟩ := ih hn hrest
    refine ⟨h', (bind_ok hfree).trans hrun, ?_⟩
    rw [hlive]
    ext q
    simp only [Heap.erase, Finset.mem_sdiff, Finset.mem_erase, List.toFinset_cons, Finset.mem_insert, not_or]
    tauto

/-- **What was allocated can be freed**, in any order, and the heap is as before. -/
theorem Heap.Grown.freeAll {h h' : Heap} {ps qs : List ℕ} (hg : h.Grown ps h') (hperm : qs.Perm ps) :
    ∃ h'', (freeAll qs : Code ε Unit) h' = .ok ((), h'') ∧ h''.live = h.live := by
  obtain ⟨h'', hrun, hlive⟩ := freeAll_run (ε := ε) (hperm.nodup_iff.2 hg.nodup) (h := h')
    fun p hp => hg.mem.2 (.inr (hperm.mem_iff.1 hp))
  refine ⟨h'', hrun, ?_⟩
  rw [hlive, hg.live, List.toFinset_eq_of_perm _ _ hperm]
  ext p
  simp only [Finset.mem_sdiff, Finset.mem_union, List.mem_toFinset]
  constructor
  · rintro ⟨hp | hp, hnot⟩
    · exact hp
    · exact absurd hp hnot
  · intro hp
    exact ⟨.inl hp, fun hmem => hg.new p hmem hp⟩

end Shadowc.Lib.Blocks
