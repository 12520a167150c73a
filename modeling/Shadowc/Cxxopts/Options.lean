import Shadowc.Cxxopts.Value
import Shadowc.Lib.Throwing
import Mathlib.Computability.Language
import Mathlib.Data.List.Nodup

/-!
# `cxxopts::Options`

The two regular expressions, and the options that `add_options` declares.

`matchOption` and `matchSpecifier` are what `std::regex_match` finds for them: they accept the languages of the
expressions (`matchOption_isSome_iff`, `matchSpecifier_isSome_iff`).  Whatever has been declared, each name belongs to
one option and can be written on the command line (`Declared`, `Declared.reachable`).
-/

namespace Shadowc.Cxxopts

open Computability Lib Throwing

/-! ### The regular expressions -/

/-- `[-_[:alnum:]]` -/
def isNameChar (c : Char) : Bool := c = '-' ∨ c = '_' ∨ c.isAlphanum

/-- `.`, which matches no line terminator. -/
def isDot (c : Char) : Bool := c.toNat ≠ 10 ∧ c.toNat ≠ 13

/-- `[[:alnum:]][-_[:alnum:]]+` -/
def isLongName : Text → Bool
  | c :: c' :: name => c.isAlphanum && (c' :: name).all isNameChar
  | _ => false

/-- The groups of `option_matcher` in a match: the first and the third, or the fourth. -/
inductive Flag where
  | long (name value : Text)
  | short (names : Text)
  deriving DecidableEq, Repr

/-- `std::regex_match(text, result, option_matcher)`: a group that takes part in no match is empty. -/
def matchOption : Text → Option Flag
  | '-' :: '-' :: text =>
    if isLongName (text.takeWhile (· ≠ '=')) then
      match text.dropWhile (· ≠ '=') with
      | [] => some (.long text [])
      | _ :: value => if value.all isDot then some (.long (text.takeWhile (· ≠ '=')) value) else none
    else none
  | '-' :: names => if names ≠ [] ∧ names.all Char.isAlphanum then some (.short names) else none
  | _ => none

/-- `std::regex_match(opts, result, option_specifier)`: the second group and the third. -/
def matchSpecifier : Text → Option (Text × Text)
  | c :: ',' :: l => if c.isAlphanum ∧ isLongName l then some ([c], l) else none
  | l => if isLongName l then some ([], l) else none

theorem isNameChar_of_isAlphanum {c : Char} (h : c.isAlphanum) : isNameChar c = true := by
  simp [isNameChar, h]

theorem isLongName_chars {name : Text} (h : isLongName name) : ∀ c ∈ name, isNameChar c := by
  match name, h with
  | c :: c' :: name, h =>
    simp only [isLongName, Bool.and_eq_true, List.all_eq_true] at h
    intro c₁ hc
    rcases List.mem_cons.1 hc with rfl | hc
    · exact isNameChar_of_isAlphanum h.1
    · exact h.2 c₁ hc

theorem isLongName_ne_eq {name : Text} (h : isLongName name) : ∀ c ∈ name, c ≠ '=' := by
  rintro c hc rfl
  exact absurd (isLongName_chars h '=' hc) (by decide)

theorem isLongName_cons {name : Text} (h : isLongName name) :
    ∃ c rest, name = c :: rest ∧ c.isAlphanum ∧ rest ≠ [] := by
  match name, h with
  | c :: c' :: name, h =>
    simp only [isLongName, Bool.and_eq_true] at h
    exact ⟨c, c' :: name, rfl, h.1, by simp⟩

theorem ne_dash_of_isAlphanum {c : Char} (h : c.isAlphanum) : c ≠ '-' := by
  rintro rfl
  exact absurd h (by decide)

theorem takeWhile_ne {name r : Text} (h : ∀ c ∈ name, c ≠ '=') :
    (name ++ r).takeWhile (· ≠ '=') = name ++ r.takeWhile (· ≠ '=') :=
  List.takeWhile_append_of_pos fun c hc => by simpa using h c hc

theorem dropWhile_ne {name r : Text} (h : ∀ c ∈ name, c ≠ '=') :
    (name ++ r).dropWhile (· ≠ '=') = r.dropWhile (· ≠ '=') :=
  List.dropWhile_append_of_pos fun c hc => by simpa using h c hc

/-! ### What matches -/

@[simp] theorem matchOption_long {name : Text} (h : isLongName name) :
    matchOption ('-' :: '-' :: name) = some (.long name []) := by
  have htake := takeWhile_ne (r := []) (isLongName_ne_eq h)
  have hdrop := dropWhile_ne (r := []) (isLongName_ne_eq h)
  simp only [List.append_nil, List.takeWhile_nil, List.dropWhile_nil] at htake hdrop
  simp only [matchOption, htake, hdrop, h, if_true]

@[simp] theorem matchOption_assigned {name value : Text} (h : isLongName name) (hv : value.all isDot) :
    matchOption ('-' :: '-' :: (name ++ '=' :: value)) = some (.long name value) := by
  have htake := takeWhile_ne (r := '=' :: value) (isLongName_ne_eq h)
  have hdrop := dropWhile_ne (r := '=' :: value) (isLongName_ne_eq h)
  have hself : ('=' :: value).takeWhile (· ≠ '=') = [] := by simp
  have hstop : ('=' :: value).dropWhile (· ≠ '=') = '=' :: value := by simp
  rw [hself, List.append_nil] at htake
  rw [hstop] at hdrop
  simp only [matchOption, htake, hdrop, h, hv, if_true]

@[simp] theorem matchOption_short {names : Text} (hne : names ≠ []) (h : ∀ c ∈ names, c.isAlphanum) :
    matchOption ('-' :: names) = some (.short names) := by
  obtain ⟨c, names, rfl⟩ := List.exists_cons_of_ne_nil hne
  have hc := ne_dash_of_isAlphanum (h c (by simp))
  unfold matchOption
  split
  · next heq => exact absurd (List.cons.inj (List.cons.inj heq).2).1 hc
  · next heq =>
    obtain rfl := (List.cons.inj heq).2
    exact if_pos ⟨hne, List.all_eq_true.2 h⟩
  · next hnot => exact absurd rfl (hnot (c :: names))

/-- **What a match is.** -/
theorem matchOption_cases {text : Text} {flag : Flag} (h : matchOption text = some flag) :
    (∃ names, flag = .short names ∧ names ≠ [] ∧ (∀ c ∈ names, c.isAlphanum) ∧ text = '-' :: names) ∨
    ∃ name value, flag = .long name value ∧ isLongName name ∧
      (value = [] ∧ text = '-' :: '-' :: name ∨
        value.all isDot ∧ text = '-' :: '-' :: (name ++ '=' :: value)) := by
  unfold matchOption at h
  split at h
  · next text =>
    split at h
    · next hname =>
      have hsplit := List.takeWhile_append_dropWhile (p := (· ≠ '=')) (l := text)
      split at h
      · next hdrop =>
        obtain rfl := Option.some.inj h
        rw [hdrop, List.append_nil] at hsplit
        rw [hsplit] at hname
        exact .inr ⟨text, [], rfl, hname, .inl ⟨rfl, rfl⟩⟩
      · next c value hdrop =>
        split at h
        · next hdot =>
          obtain rfl := Option.some.inj h
          have hc : c = '=' := by
            have hne : text.dropWhile (· ≠ '=') ≠ [] := by
              rw [hdrop]
              simp
            have hhead := List.head_dropWhile_not (· ≠ '=') hne
            simp only [hdrop, List.head_cons] at hhead
            simpa using hhead
          subst hc
          rw [hdrop] at hsplit
          exact .inr ⟨_, value, rfl, hname, .inr ⟨hdot, by rw [hsplit]⟩⟩
        · cases h
    · cases h
  · next names _ =>
    split at h
    · next hnames =>
      obtain rfl := Option.some.inj h
      exact .inl ⟨names, rfl, hnames.1, List.all_eq_true.1 hnames.2, rfl⟩
    · cases h
  · cases h

/-! ### The languages of the expressions -/

/-- One character of a class. -/
def oneOf (p : Char → Bool) : Language Char := {w | ∃ c, p c ∧ w = [c]}

theorem mem_oneOf_mul {p : Char → Bool} {l : Language Char} {w : Text} :
    w ∈ oneOf p * l ↔ ∃ c v, p c ∧ v ∈ l ∧ w = c :: v := by
  rw [Language.mem_mul]
  constructor
  · rintro ⟨_, ⟨c, hc, rfl⟩, v, hv, rfl⟩
    exact ⟨c, v, hc, hv, rfl⟩
  · rintro ⟨c, v, hc, hv, rfl⟩
    exact ⟨[c], ⟨c, hc, rfl⟩, v, hv, rfl⟩

theorem mem_oneOf_star {p : Char → Bool} {w : Text} : w ∈ (oneOf p)∗ ↔ ∀ c ∈ w, p c := by
  rw [Language.mem_kstar]
  constructor
  · rintro ⟨ws, rfl, hws⟩ c hc
    obtain ⟨v, hv, hc⟩ := List.mem_flatten.1 hc
    obtain ⟨c', hc', rfl⟩ := hws v hv
    exact List.mem_singleton.1 hc ▸ hc'
  · intro h
    refine ⟨w.map fun c => [c], by rw [← List.flatMap_def, List.flatMap_singleton'], ?_⟩
    intro v hv
    obtain ⟨c, hc, rfl⟩ := List.mem_map.1 hv
    exact ⟨c, h c hc, rfl⟩

/-- `[[:alnum:]][-_[:alnum:]]+` -/
def longNames : Language Char := oneOf Char.isAlphanum * (oneOf isNameChar * (oneOf isNameChar)∗)

/-- `--([[:alnum:]][-_[:alnum:]]+)(=(.*))?|-([[:alnum:]]+)` -/
def optionMatcher : Language Char :=
  {['-', '-']} * (longNames * (1 + {['=']} * (oneOf isDot)∗)) +
    {['-']} * (oneOf Char.isAlphanum * (oneOf Char.isAlphanum)∗)

/-- `(([[:alnum:]]),)?([[:alnum:]][-_[:alnum:]]+)` -/
def optionSpecifier : Language Char := (1 + oneOf Char.isAlphanum * {[',']}) * longNames

theorem mem_longNames {name : Text} : name ∈ longNames ↔ isLongName name := by
  simp only [longNames, mem_oneOf_mul, mem_oneOf_star]
  constructor
  · rintro ⟨c, _, hc, ⟨c', v, hc', hv, rfl⟩, rfl⟩
    simp only [isLongName, hc, List.all_cons, hc', Bool.true_and, List.all_eq_true]
    exact hv
  · intro h
    match name, h with
    | c :: c' :: name, h =>
      simp only [isLongName, Bool.and_eq_true, List.all_cons, List.all_eq_true] at h
      exact ⟨c, _, h.1, ⟨c', name, h.2.1, h.2.2, rfl⟩, rfl⟩

theorem mem_singleton_mul {u w : Text} {l : Language Char} : w ∈ ({u} : Language Char) * l ↔ ∃ v ∈ l, w = u ++ v := by
  rw [Language.mem_mul]
  constructor
  · rintro ⟨_, rfl, v, hv, rfl⟩
    exact ⟨v, hv, rfl⟩
  · rintro ⟨v, hv, rfl⟩
    exact ⟨u, rfl, v, hv, rfl⟩

/-- **A text is a flag when the expression matches it.** -/
theorem matchOption_isSome_iff {text : Text} : (matchOption text).isSome ↔ text ∈ optionMatcher := by
  have hvalue : ∀ {v : Text}, v ∈ 1 + ({['=']} : Language Char) * (oneOf isDot)∗ ↔
      v = [] ∨ ∃ value, (∀ c ∈ value, isDot c) ∧ v = '=' :: value := by
    intro v
    simp only [Language.mem_add, Language.mem_one, mem_singleton_mul, mem_oneOf_star]
    rfl
  rw [optionMatcher, Language.mem_add, mem_singleton_mul, mem_singleton_mul]
  constructor
  · intro h
    obtain ⟨flag, hflag⟩ := Option.isSome_iff_exists.1 h
    rcases matchOption_cases hflag with ⟨names, -, hne, hall, rfl⟩ | ⟨name, value, -, hname, htext⟩
    · obtain ⟨c, names, rfl⟩ := List.exists_cons_of_ne_nil hne
      refine .inr ⟨c :: names, mem_oneOf_mul.2 ⟨c, names, hall c (by simp), ?_, rfl⟩, rfl⟩
      exact mem_oneOf_star.2 fun c' hc' => hall c' (List.mem_cons_of_mem _ hc')
    · refine .inl ?_
      rcases htext with ⟨rfl, rfl⟩ | ⟨hdot, rfl⟩
      · exact ⟨name, Language.mem_mul.2 ⟨name, mem_longNames.2 hname, [], hvalue.2 (.inl rfl), by simp⟩, rfl⟩
      · exact ⟨name ++ '=' :: value, Language.mem_mul.2 ⟨name, mem_longNames.2 hname, '=' :: value,
          hvalue.2 (.inr ⟨value, List.all_eq_true.1 hdot, rfl⟩), rfl⟩, rfl⟩
  · rintro (⟨v, hv, rfl⟩ | ⟨v, hv, rfl⟩)
    · obtain ⟨name, hname, v', hv', rfl⟩ := Language.mem_mul.1 hv
      have hname := mem_longNames.1 hname
      rcases hvalue.1 hv' with rfl | ⟨value, hdot, rfl⟩
      · simp [hname]
      · simp [hname, List.all_eq_true.2 hdot]
    · obtain ⟨c, v', hc, hv', rfl⟩ := mem_oneOf_mul.1 hv
      have hall : ∀ c' ∈ c :: v', c'.isAlphanum := by
        intro c' hc'
        rcases List.mem_cons.1 hc' with rfl | hc'
        · exact hc
        · exact mem_oneOf_star.1 hv' c' hc'
      have h := matchOption_short (by simp) hall
      simp [h]

theorem matchSpecifier_cases {opts s l : Text} (h : matchSpecifier opts = some (s, l)) :
    isLongName l ∧ (s = [] ∧ opts = l ∨ ∃ c, c.isAlphanum ∧ s = [c] ∧ opts = c :: ',' :: l) := by
  unfold matchSpecifier at h
  split at h
  · split at h
    · next hc =>
      obtain ⟨rfl, rfl⟩ := Prod.mk.inj (Option.some.inj h)
      exact ⟨hc.2, .inr ⟨_, hc.1, rfl, rfl⟩⟩
    · cases h
  · split at h
    · next hl =>
      obtain ⟨rfl, rfl⟩ := Prod.mk.inj (Option.some.inj h)
      exact ⟨hl, .inl ⟨rfl, rfl⟩⟩
    · cases h

theorem matchSpecifier_long {l : Text} (h : isLongName l) : matchSpecifier l = some ([], l) := by
  unfold matchSpecifier
  split
  · exact absurd (isLongName_chars h ',' (by simp)) (by decide)
  · exact if_pos h

/-- **A text declares an option when the expression matches it.** -/
theorem matchSpecifier_isSome_iff {opts : Text} : (matchSpecifier opts).isSome ↔ opts ∈ optionSpecifier := by
  simp only [optionSpecifier, add_mul, one_mul, mul_assoc, Language.mem_add, mem_oneOf_mul, mem_singleton_mul,
    mem_longNames]
  constructor
  · intro h
    obtain ⟨⟨s, l⟩, hm⟩ := Option.isSome_iff_exists.1 h
    obtain ⟨hl, ⟨-, rfl⟩ | ⟨c, hc, -, rfl⟩⟩ := matchSpecifier_cases hm
    · exact .inl hl
    · exact .inr ⟨c, ',' :: l, hc, ⟨l, hl, rfl⟩, rfl⟩
  · rintro (hl | ⟨c, _, hc, ⟨l, hl, rfl⟩, rfl⟩)
    · rw [matchSpecifier_long hl]
      rfl
    · have h : matchSpecifier (c :: ',' :: l) = some ([c], l) := if_pos ⟨hc, hl⟩
      simp [h]

/-! ### Options -/

/-- What is fixed when an option is declared: which object it is, and what its `Value` knows. -/
structure OptionDetails where
  id : ℕ
  type : Ty
  defaultValue : Option Text
  implicitValue : Option Text
  deriving DecidableEq, Repr

/-- What parsing changes of an option. -/
structure Cell (type : Ty) where
  value : type.Val
  count : ℕ

structure Options where
  /-- `m_options`, in the order of the keys. -/
  options : List (Text × OptionDetails)
  /-- `m_positional` from `m_next_positional` on. -/
  positional : List Text
  cell : (d : OptionDetails) → Cell d.type
  /-- How many `OptionDetails` have been made. -/
  made : ℕ

/-- The arguments of a call of `OptionAdder`. -/
structure Declaration where
  opts : Text
  type : Ty
  defaultValue : Option Text := none
  implicitValue : Option Text := none

/-- `std::map::emplace` of a key that is not there. -/
def insertKey (key : Text) (d : OptionDetails) : List (Text × OptionDetails) → List (Text × OptionDetails)
  | [] => [(key, d)]
  | p :: rest => if key < p.1 then (key, d) :: p :: rest else p :: insertKey key d rest

namespace Options

/-- The constructor. -/
def new : Options := { options := [], positional := [], cell := fun d => ⟨d.type.zero, 0⟩, made := 0 }

def find (o : Options) (name : Text) : Option OptionDetails := o.options.lookup name

def addOneOption (o : Options) (option : Text) (d : OptionDetails) : Except OptionException Options :=
  match o.find option with
  | none => .ok { o with options := insertKey option d o.options }
  | some _ => .error (.optionExists option)

def addOption (o : Options) (s l : Text) (decl : Declaration) : Except OptionException Options := do
  let d := { id := o.made, type := decl.type, defaultValue := decl.defaultValue, implicitValue := decl.implicitValue }
  let o := { o with made := o.made + 1 }
  let o ← if s.length > 0 then o.addOneOption s d else pure o
  if l.length > 0 then o.addOneOption l d else pure o

/-- `OptionAdder::operator()` -/
def add (o : Options) (decl : Declaration) : Except OptionException Options :=
  match matchSpecifier decl.opts with
  | none => .error (.invalidOptionFormat decl.opts)
  | some (s, l) => o.addOption s l decl

end Options

theorem mem_insertKey {key : Text} {d : OptionDetails} {l : List (Text × OptionDetails)} {p : Text × OptionDetails} :
    p ∈ insertKey key d l ↔ p = (key, d) ∨ p ∈ l := by
  induction l with
  | nil => simp [insertKey]
  | cons q l ih =>
    unfold insertKey
    split
    · simp
    · simp only [List.mem_cons, ih]
      tauto

theorem nodup_insertKey {key : Text} {d : OptionDetails} {l : List (Text × OptionDetails)}
    (hl : (l.map Prod.fst).Nodup) (hkey : key ∉ l.map Prod.fst) : ((insertKey key d l).map Prod.fst).Nodup := by
  induction l with
  | nil => simp [insertKey]
  | cons q l ih =>
    simp only [List.map_cons, List.nodup_cons, List.mem_cons, not_or] at hl hkey
    unfold insertKey
    split
    · simp only [List.map_cons, List.nodup_cons, List.mem_cons, not_or]
      exact ⟨hkey, hl⟩
    · simp only [List.map_cons, List.nodup_cons]
      refine ⟨fun hmem => ?_, ih hl.2 hkey.2⟩
      obtain ⟨p, hp, hq⟩ := List.mem_map.1 hmem
      rcases mem_insertKey.1 hp with rfl | hp
      · exact hkey.1 hq
      · exact hl.1 (hq ▸ List.mem_map_of_mem hp)

namespace Options

variable {o o' : Options} {name : Text} {d : OptionDetails}

theorem find_eq_none : o.find name = none ↔ name ∉ o.options.map Prod.fst := by
  rw [find, List.lookup_eq_none_iff]
  constructor
  · intro h hm
    obtain ⟨p, hp, rfl⟩ := List.mem_map.1 hm
    simpa using h p hp
  · intro h p hp
    simp only [bne_iff_ne]
    rintro rfl
    exact h (List.mem_map_of_mem hp)

theorem mem_of_find (h : o.find name = some d) : (name, d) ∈ o.options := by
  obtain ⟨l₁, l₂, hl, -⟩ := List.lookup_eq_some_iff.1 h
  rw [hl]
  simp

/-- What `add_options` keeps: a name belongs to one option and has the form of a flag, and an option is one object. -/
structure Declared (o : Options) : Prop where
  keys : (o.options.map Prod.fst).Nodup
  names : ∀ p ∈ o.options, isLongName p.1 ∨ ∃ c, p.1 = [c] ∧ c.isAlphanum
  made : ∀ p ∈ o.options, p.2.id < o.made
  object : ∀ p ∈ o.options, ∀ q ∈ o.options, p.2.id = q.2.id → p.2 = q.2
  unset : o.cell = fun d => ⟨d.type.zero, 0⟩

theorem declared_new : Declared new where
  keys := by simp [new]
  names := by simp [new]
  made := by simp [new]
  object := by simp [new]
  unset := rfl

theorem addOneOption_ok (h : o.addOneOption name d = .ok o') :
    o.find name = none ∧ o' = { o with options := insertKey name d o.options } := by
  unfold addOneOption at h
  split at h
  · next hnone => exact ⟨hnone, (Except.ok.inj h).symm⟩
  · cases h

/-- One more name, of an option that is the latest. -/
theorem Declared.addOneOption (ho : o.Declared) (hname : isLongName name ∨ ∃ c, name = [c] ∧ c.isAlphanum)
    (hid : d.id < o.made) (hlast : ∀ p ∈ o.options, p.2.id = d.id → p.2 = d) (h : o.addOneOption name d = .ok o') :
    o'.Declared := by
  obtain ⟨hnone, rfl⟩ := addOneOption_ok h
  refine ⟨nodup_insertKey ho.keys (find_eq_none.1 hnone), fun p hp => ?_, fun p hp => ?_, fun p hp q hq heq => ?_,
    ho.unset⟩
  · rcases mem_insertKey.1 hp with rfl | hp
    · exact hname
    · exact ho.names p hp
  · rcases mem_insertKey.1 hp with rfl | hp
    · exact hid
    · exact ho.made p hp
  · rcases mem_insertKey.1 hp with rfl | hp <;> rcases mem_insertKey.1 hq with rfl | hq
    · rfl
    · exact (hlast q hq heq.symm).symm
    · exact hlast p hp heq
    · exact ho.object p hp q hq heq

theorem Declared.add {decl : Declaration} (ho : o.Declared) (h : o.add decl = .ok o') : o'.Declared := by
  unfold Options.add at h
  split at h
  · cases h
  · next s l hm =>
    obtain ⟨hl, hs⟩ := matchSpecifier_cases hm
    have hllen : l.length > 0 := by
      obtain ⟨c, rest, rfl, -⟩ := isLongName_cons hl
      simp
    have hmore : Declared { o with made := o.made + 1 } :=
      ⟨ho.keys, ho.names, fun p hp => Nat.lt_succ_of_lt (ho.made p hp), ho.object, ho.unset⟩
    have hnew : ∀ p ∈ o.options, p.2.id = o.made → p.2 =
        { id := o.made, type := decl.type, defaultValue := decl.defaultValue, implicitValue := decl.implicitValue } :=
      fun p hp heq => absurd (ho.made p hp) (by omega)
    simp only [addOption, if_pos hllen] at h
    rcases hs with ⟨rfl, -⟩ | ⟨c, hc, rfl, -⟩
    · exact hmore.addOneOption (.inl hl) (Nat.lt_succ_self _) hnew h
    · have hslen : [c].length > 0 := by simp
      rw [if_pos hslen] at h
      cases hfirst : Options.addOneOption { o with made := o.made + 1 } [c] _ with
      | error e =>
        rw [hfirst] at h
        cases h
      | ok o₁ =>
        rw [hfirst] at h
        have ho₁ := hmore.addOneOption (.inr ⟨c, rfl, hc⟩) (Nat.lt_succ_self _) hnew hfirst
        obtain ⟨-, rfl⟩ := addOneOption_ok hfirst
        refine ho₁.addOneOption (.inl hl) (Nat.lt_succ_self _) (fun p hp heq => ?_) h
        rcases mem_insertKey.1 hp with rfl | hp
        · rfl
        · exact hnew p hp heq

/-- Whatever is declared. -/
theorem declared_addAll {decls : List Declaration} (h : decls.foldlM add new = .ok o) : o.Declared :=
  foldlM_induction (fun _ _ _ _ ho hadd => ho.add hadd) declared_new h

/-- **Each name can be written on the command line.** -/
theorem Declared.reachable (ho : o.Declared) (h : o.find name = some d) :
    isLongName name ∨ ∃ c, name = [c] ∧ c.isAlphanum :=
  ho.names _ (mem_of_find h)

end Options

end Shadowc.Cxxopts
