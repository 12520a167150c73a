import Mathlib.Data.List.Basic

/-!
# Code that may throw

A computation that gives a value or throws is an `Except`.  A sequence succeeds when both of its parts do, and throws
what the first of them throws that does; what each turn of a loop keeps holds after the loop.
-/

namespace Shadowc.Lib.Throwing

variable {ε α β σ : Type}

theorem bind_eq_ok {x : Except ε α} {f : α → Except ε β} {r : β} :
    x >>= f = .ok r ↔ ∃ a, x = .ok a ∧ f a = .ok r := by
  cases x <;> simp [Bind.bind, Except.bind]

theorem bind_eq_error {x : Except ε α} {f : α → Except ε β} {e : ε} :
    x >>= f = .error e ↔ x = .error e ∨ ∃ a, x = .ok a ∧ f a = .error e := by
  cases x <;> simp [Bind.bind, Except.bind]

theorem ok_bind (a : α) (f : α → Except ε β) : (.ok a : Except ε α) >>= f = f a := rfl

theorem pure_eq_ok (a : α) : (pure a : Except ε α) = .ok a := rfl

theorem mapError_eq_ok {δ : Type} {x : Except ε α} {f : ε → δ} {a : α} : x.mapError f = .ok a ↔ x = .ok a := by
  cases x <;> simp [Except.mapError]

theorem mapError_eq_error {δ : Type} {x : Except ε α} {f : ε → δ} {e' : δ} :
    x.mapError f = .error e' ↔ ∃ e, x = .error e ∧ f e = e' := by
  cases x <;> simp [Except.mapError]

/-- What each turn keeps holds after the loop. -/
theorem foldlM_induction {P : σ → Prop} {f : σ → α → Except ε σ} {l : List α} {s s' : σ}
    (hstep : ∀ a ∈ l, ∀ s s', P s → f s a = .ok s' → P s') (hs : P s) (h : l.foldlM f s = .ok s') : P s' := by
  induction l generalizing s with
  | nil =>
    cases h
    exact hs
  | cons a l ih =>
    rw [List.foldlM_cons] at h
    obtain ⟨s₁, h₁, h⟩ := bind_eq_ok.1 h
    exact ih (fun b hb => hstep b (List.mem_cons_of_mem _ hb)) (hstep a (by simp) s s₁ hs h₁) h

/-- A loop that reads each entry and then joins what it has read: all of them are read, and then joined. -/
theorem foldlM_join {g : α → Except ε β} {join : σ → β → σ} (l : List α) : ∀ s : σ,
    l.foldlM (fun s a => do
      let b ← g a
      return join s b) s = (do
      let bs ← l.mapM g
      return bs.foldl join s) := by
  induction l with
  | nil => exact fun _ => rfl
  | cons a l ih =>
    intro s
    rw [List.foldlM_cons, List.mapM_cons]
    cases g a with
    | error e => rfl
    | ok b =>
      simp only [ok_bind, pure_eq_ok] at ih ⊢
      rw [ih]
      cases l.mapM g <;> rfl

theorem length_mapM {g : α → Except ε β} {l : List α} : ∀ {bs : List β}, l.mapM g = .ok bs → bs.length = l.length := by
  induction l with
  | nil =>
    intro bs h
    cases h
    rfl
  | cons a l ih =>
    intro bs h
    rw [List.mapM_cons] at h
    obtain ⟨b, -, h⟩ := bind_eq_ok.1 h
    obtain ⟨bs', hbs, h⟩ := bind_eq_ok.1 h
    cases h
    rw [List.length_cons, List.length_cons, ih hbs]

/-- The last result is that of the last entry. -/
theorem mapM_concat {g : α → Except ε β} {l : List α} {a : α} {bs : List β} (h : (l ++ [a]).mapM g = .ok bs) :
    ∃ bs' b, l.mapM g = .ok bs' ∧ g a = .ok b ∧ bs = bs' ++ [b] := by
  rw [List.mapM_append] at h
  obtain ⟨bs', hbs', h⟩ := bind_eq_ok.1 h
  obtain ⟨bs'', hlast, h⟩ := bind_eq_ok.1 h
  rw [List.mapM_cons] at hlast
  obtain ⟨b, hb, hlast⟩ := bind_eq_ok.1 hlast
  cases hlast
  cases h
  exact ⟨bs', b, hbs', hb, rfl⟩

theorem mapM_replicate {g : α → Except ε β} {a : α} {n : ℕ} (hn : n ≠ 0) {bs : List β}
    (h : (List.replicate n a).mapM g = .ok bs) : ∃ b, g a = .ok b ∧ bs = List.replicate n b := by
  cases hb : g a with
  | error e =>
    obtain ⟨n, rfl⟩ := Nat.exists_eq_succ_of_ne_zero hn
    rw [List.replicate_succ, List.mapM_cons, hb] at h
    cases h
  | ok b =>
    refine ⟨b, rfl, ?_⟩
    have hall : ∀ n, (List.replicate n a).mapM g = .ok (List.replicate n b) := by
      intro n
      induction n with
      | zero => rfl
      | succ n ih =>
        rw [List.replicate_succ, List.mapM_cons, hb, ih]
        rfl
    rw [hall] at h
    exact (Except.ok.inj h).symm

end Shadowc.Lib.Throwing
