import Shadowc.Cxxopts.Options
import Mathlib.Data.List.Perm.Basic

/-!
# What can be declared

`add_options` takes declarations one after the other.  It takes a list of them when each has the form of one and no name
is declared twice, and then the names that can be found are theirs, each with the option of its declaration:
`declare_iff`.
-/

namespace Shadowc.Cxxopts

open Lib Throwing

namespace Declaration

/-- The names of an option, the short one first. -/
def names (decl : Declaration) : List Text :=
  match matchSpecifier decl.opts with
  | some (s, l) => if s.length > 0 then [s, l] else [l]
  | none => []

/-- The option, when `id` others have been made before it. -/
def details (decl : Declaration) (id : ℕ) : OptionDetails :=
  { id, type := decl.type, defaultValue := decl.defaultValue, implicitValue := decl.implicitValue }

theorem names_nodup (decl : Declaration) : decl.names.Nodup := by
  unfold names
  split
  · next s l hmatch =>
    split
    · next hs =>
      obtain ⟨hl, ⟨rfl, -⟩ | ⟨c, -, rfl, -⟩⟩ := matchSpecifier_cases hmatch
      · exact absurd hs (by simp)
      · obtain ⟨c', rest, rfl, -, hrest⟩ := isLongName_cons hl
        simp [Ne.symm hrest]
    · exact List.nodup_singleton _
  · exact List.nodup_nil

/-- A name has the form of a flag. -/
theorem names_ne_nil {decl : Declaration} (h : (matchSpecifier decl.opts).isSome) : decl.names ≠ [] := by
  obtain ⟨⟨s, l⟩, hmatch⟩ := Option.isSome_iff_exists.1 h
  unfold names
  rw [hmatch]
  simp only
  split <;> simp

end Declaration

/-- The entries of declarations, when `id` options have been made before them. -/
def entries : ℕ → List Declaration → List (Text × OptionDetails)
  | _, [] => []
  | id, decl :: decls => decl.names.map (fun name => (name, decl.details id)) ++ entries (id + 1) decls

theorem keys_entries (decls : List Declaration) : ∀ id, (entries id decls).map Prod.fst =
    decls.flatMap Declaration.names := by
  induction decls with
  | nil => exact fun _ => rfl
  | cons decl decls ih =>
    intro id
    simp only [entries, List.map_append, List.map_map, ih, List.flatMap_cons]
    congr 1
    exact List.map_id _

theorem mem_entries {decls : List Declaration} {name : Text} {d : OptionDetails} : ∀ {id : ℕ},
    (name, d) ∈ entries id decls ↔
      ∃ (i : ℕ) (decl : Declaration), decls[i]? = some decl ∧ name ∈ decl.names ∧ d = decl.details (id + i) := by
  induction decls with
  | nil => simp [entries]
  | cons decl decls ih =>
    intro id
    rw [entries, List.mem_append, ih]
    constructor
    · rintro (hmem | ⟨i, decl', hi, hname, rfl⟩)
      · obtain ⟨name', hname, heq⟩ := List.mem_map.1 hmem
        obtain ⟨rfl, rfl⟩ := Prod.mk.inj heq
        exact ⟨0, decl, rfl, hname, rfl⟩
      · exact ⟨i + 1, decl', hi, hname, by rw [Nat.add_assoc, Nat.add_comm 1]⟩
    · rintro ⟨i, decl', hi, hname, rfl⟩
      cases i with
      | zero =>
        obtain rfl := Option.some.inj hi
        exact .inl (List.mem_map.2 ⟨name, hname, rfl⟩)
      | succ i => exact .inr ⟨i, decl', hi, hname, by rw [Nat.add_assoc, Nat.add_comm 1]⟩

theorem insertKey_perm (key : Text) (d : OptionDetails) (l : List (Text × OptionDetails)) :
    (insertKey key d l).Perm ((key, d) :: l) := by
  induction l with
  | nil => exact .refl _
  | cons p l ih =>
    unfold insertKey
    split
    · exact .refl _
    · exact (ih.cons p).trans (.swap ..)

namespace Options

variable {o o' : Options} {name : Text} {d : OptionDetails}

theorem find_eq_some (hkeys : (o.options.map Prod.fst).Nodup) : o.find name = some d ↔ (name, d) ∈ o.options := by
  constructor
  · exact mem_of_find
  · intro hmem
    cases hfind : o.find name with
    | none => exact absurd (List.mem_map_of_mem hmem) (find_eq_none.1 hfind)
    | some d' =>
      have heq := List.inj_on_of_nodup_map hkeys (mem_of_find hfind) hmem rfl
      rw [(Prod.mk.inj heq).2]

theorem addOneOption_eq (h : o.find name = none) :
    o.addOneOption name d = .ok { o with options := insertKey name d o.options } := by
  rw [addOneOption, h]

/-- The names of one option. -/
theorem addNames_ok {names : List Text} : ∀ {o o' : Options},
    names.foldlM (fun o name => o.addOneOption name d) o = .ok o' →
    o'.options.Perm (names.map (fun name => (name, d)) ++ o.options) ∧ o'.made = o.made := by
  induction names with
  | nil =>
    intro o o' h
    cases h
    exact ⟨.refl _, rfl⟩
  | cons name names ih =>
    intro o o' h
    rw [List.foldlM_cons] at h
    obtain ⟨o₁, h₁, h⟩ := bind_eq_ok.1 h
    obtain ⟨-, rfl⟩ := addOneOption_ok h₁
    obtain ⟨hperm, hmade⟩ := ih h
    refine ⟨hperm.trans ?_, hmade⟩
    exact ((insertKey_perm name d o.options).append_left _).trans List.perm_middle

theorem exists_addNames {names : List Text} (hnodup : names.Nodup) : ∀ {o : Options},
    (∀ name ∈ names, o.find name = none) →
    ∃ o', names.foldlM (fun o name => o.addOneOption name d) o = .ok o' := by
  induction names with
  | nil => exact fun {o} _ => ⟨o, rfl⟩
  | cons name names ih =>
    intro o h
    obtain ⟨hname, hnames⟩ := List.nodup_cons.1 hnodup
    have hrest : ∀ name' ∈ names, find { o with options := insertKey name d o.options } name' = none := by
      intro name' hname'
      rw [find_eq_none, ((insertKey_perm name d o.options).map Prod.fst).mem_iff, List.map_cons, List.mem_cons, not_or]
      refine ⟨?_, find_eq_none.1 (h name' (List.mem_cons_of_mem _ hname'))⟩
      rintro rfl
      exact hname hname'
    obtain ⟨o', ho'⟩ := ih hnames hrest
    refine ⟨o', ?_⟩
    rw [List.foldlM_cons, addOneOption_eq (h name (by simp))]
    exact ho'

/-- A declaration adds its names, for one new option. -/
theorem add_eq {decl : Declaration} (h : (matchSpecifier decl.opts).isSome) (o : Options) :
    o.add decl = decl.names.foldlM (fun o' name => o'.addOneOption name (decl.details o.made))
      { o with made := o.made + 1 } := by
  obtain ⟨⟨s, l⟩, hmatch⟩ := Option.isSome_iff_exists.1 h
  obtain ⟨hl, -⟩ := matchSpecifier_cases hmatch
  have hllen : l.length > 0 := by
    obtain ⟨c, rest, rfl, -⟩ := isLongName_cons hl
    simp
  rw [add, hmatch]
  simp only [addOption, Declaration.names, hmatch, if_pos hllen]
  split
  · simp only [List.foldlM_cons, List.foldlM_nil, bind_pure]
    rfl
  · simp only [List.foldlM_cons, List.foldlM_nil, bind_pure]
    rfl

theorem isSome_of_add {decl : Declaration} (h : o.add decl = .ok o') : (matchSpecifier decl.opts).isSome := by
  unfold add at h
  split at h
  · cases h
  · next hmatch => rw [hmatch, Option.isSome_some]

theorem add_positional {decl : Declaration} (h : o.add decl = .ok o') : o'.positional = o.positional := by
  rw [add_eq (isSome_of_add h)] at h
  refine foldlM_induction (P := fun o₁ => o₁.positional = o.positional) (fun name _ o₁ o₂ h₁ h₂ => ?_) rfl h
  obtain ⟨-, rfl⟩ := addOneOption_ok h₂
  exact h₁

theorem declare_positional {decls : List Declaration} (h : decls.foldlM add new = .ok o) : o.positional = [] :=
  foldlM_induction (P := fun o₁ => o₁.positional = []) (fun _ _ _ _ hs hadd => (add_positional hadd).trans hs) rfl h

/-- **The declarations that are taken**, with the entries they make. -/
theorem addAll_ok {decls : List Declaration} : ∀ {o o' : Options}, decls.foldlM add o = .ok o' →
    (∀ decl ∈ decls, (matchSpecifier decl.opts).isSome) ∧ o'.options.Perm (entries o.made decls ++ o.options) := by
  induction decls with
  | nil =>
    intro o o' h
    cases h
    exact ⟨by simp, .refl _⟩
  | cons decl decls ih =>
    intro o o' h
    rw [List.foldlM_cons] at h
    obtain ⟨o₁, h₁, h⟩ := bind_eq_ok.1 h
    have hmatch := isSome_of_add h₁
    obtain ⟨hall, hperm⟩ := ih h
    rw [add_eq hmatch] at h₁
    obtain ⟨hperm₁, hmade⟩ := addNames_ok h₁
    refine ⟨List.forall_mem_cons.2 ⟨hmatch, hall⟩, hperm.trans ?_⟩
    rw [hmade, entries, List.append_assoc]
    exact (hperm₁.append_left _).trans (by
      simpa only [List.append_assoc] using List.perm_append_comm.append_right o.options)

theorem exists_addAll {decls : List Declaration} : ∀ {o : Options},
    (∀ decl ∈ decls, (matchSpecifier decl.opts).isSome) →
    ((entries o.made decls ++ o.options).map Prod.fst).Nodup → ∃ o', decls.foldlM add o = .ok o' := by
  induction decls with
  | nil => exact fun {o} _ _ => ⟨o, rfl⟩
  | cons decl decls ih =>
    intro o hall hnodup
    obtain ⟨hmatch, hall⟩ := List.forall_mem_cons.1 hall
    have hnew : ∀ name ∈ decl.names, find { o with made := o.made + 1 } name = none := by
      intro name hname
      rw [find_eq_none]
      rw [List.map_append, entries, List.map_append, List.append_assoc] at hnodup
      have hmem : name ∈ (decl.names.map fun name => (name, decl.details o.made)).map Prod.fst := by
        simpa using hname
      have hdisjoint := (List.nodup_append.1 hnodup).2.2 name hmem
      exact fun hold => hdisjoint name (List.mem_append_right _ hold) rfl
    obtain ⟨o₁, h₁⟩ := exists_addNames decl.names_nodup (d := decl.details o.made) hnew
    obtain ⟨hperm₁, hmade⟩ := addNames_ok h₁
    have hperm : (entries o.made (decl :: decls) ++ o.options).Perm (entries o₁.made decls ++ o₁.options) := by
      rw [hmade, entries, List.append_assoc]
      refine .trans ?_ (hperm₁.symm.append_left _)
      simpa only [List.append_assoc] using List.perm_append_comm.append_right o.options
    have hrest := (hperm.map Prod.fst).nodup_iff.1 hnodup
    obtain ⟨o', ho'⟩ := ih hall hrest
    refine ⟨o', ?_⟩
    rw [List.foldlM_cons, add_eq hmatch, h₁]
    exact ho'

/-- **What can be declared.**  Declarations are taken when each has the form of one and no name is declared twice; and
then the names that can be found are those of the declarations, each with the option of its own. -/
theorem declare_iff {decls : List Declaration} :
    (∃ o, decls.foldlM add new = .ok o ∧ ∀ name d, o.find name = some d ↔
      ∃ (i : ℕ) (decl : Declaration), decls[i]? = some decl ∧ name ∈ decl.names ∧ d = decl.details i) ↔
    (∀ decl ∈ decls, decl.opts ∈ optionSpecifier) ∧ (decls.flatMap Declaration.names).Nodup := by
  have hkeys : ((entries 0 decls ++ new.options).map Prod.fst) = decls.flatMap Declaration.names := by
    rw [List.map_append, keys_entries]
    exact List.append_nil _
  constructor
  · rintro ⟨o, ho, -⟩
    obtain ⟨hall, hperm⟩ := addAll_ok ho
    refine ⟨fun decl hdecl => matchSpecifier_isSome_iff.1 (hall decl hdecl), ?_⟩
    rw [← hkeys]
    exact (hperm.map Prod.fst).nodup_iff.1 (declared_addAll ho).keys
  · rintro ⟨hall, hnodup⟩
    rw [← hkeys] at hnodup
    obtain ⟨o, ho⟩ := exists_addAll (o := new) (fun decl hdecl => matchSpecifier_isSome_iff.2 (hall decl hdecl)) hnodup
    refine ⟨o, ho, fun name d => ?_⟩
    have hnew : entries new.made decls ++ new.options = entries 0 decls := List.append_nil _
    rw [find_eq_some (declared_addAll ho).keys, (addAll_ok ho).2.mem_iff, hnew, mem_entries]
    simp only [Nat.zero_add]

end Options

end Shadowc.Cxxopts
