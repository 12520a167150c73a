import Shadowc.Cxxopts.Declare
import Shadowc.Cxxopts.Effect

/-!
# What `parse` leaves behind

`parse` accepts a command line when each option can read its own texts, and each becomes what they say (`parse_iff`);
so the order of the texts of different options does not matter (`parse_reorder`), and any texts can be given to options
that take an argument (`parse_written`).  In `argv` stay the name of the program and the last of the words that are no
flags (`parse_kept`).  For an option that is no list the last text decides (`parse_last`); a list that is not on the
command line has its default once for each of its names (`parse_default_list`).
-/

namespace Shadowc.Cxxopts

open Lib Throwing Cells

/-! ### Words -/

/-- The texts of an item that are neither a flag nor its argument. -/
def Item.words : Item → List Text
  | word text => [text]
  | _ => []

def CommandLine.words (c : CommandLine) : List Text := c.items.flatMap Item.words

/-- An option that takes any number of words is among the positional ones. -/
def HasList (find : Text → Option OptionDetails) (names : List Text) : Prop :=
  ∃ name ∈ names, ∃ d, find name = some d ∧ d.type.isContainer

section Words

variable {find : Text → Option OptionDetails} {count : OptionDetails → ℕ} {names : List Text}

theorem not_hasList_nil : ¬ HasList find [] := by
  rintro ⟨_, hmem, -⟩
  cases hmem

theorem not_hasList_cons {name : Text} (hname : ∀ d, find name = some d → d.type.isContainer = false)
    (h : ¬ HasList find names) : ¬ HasList find (name :: names) := by
  rintro ⟨name', hmem, d, hd, hlist⟩
  rcases List.mem_cons.1 hmem with rfl | hmem
  · rw [hname d hd] at hlist
    cases hlist
  · exact h ⟨name', hmem, d, hd, hlist⟩

/-- The names before the one that takes a text are passed over. -/
theorem taker_eq_some {d : OptionDetails} {names' : List Text} (h : taker find count names = some (d, names')) :
    ∃ passed name rest, names = passed ++ name :: rest ∧ ¬ HasList find passed ∧ find name = some d ∧
      (d.type.isContainer = true ∧ names' = name :: rest ∨ d.type.isContainer = false ∧ names' = rest) := by
  induction names with
  | nil => cases h
  | cons name names ih =>
    have hrest : (∀ d, find name = some d → d.type.isContainer = false) → taker find count names = some (d, names') →
        ∃ passed name' rest, name :: names = passed ++ name' :: rest ∧ ¬ HasList find passed ∧ find name' = some d ∧
          (d.type.isContainer = true ∧ names' = name' :: rest ∨ d.type.isContainer = false ∧ names' = rest) := by
      intro hname h
      obtain ⟨passed, name', rest, rfl, hpassed, hfind, hnames'⟩ := ih h
      exact ⟨name :: passed, name', rest, rfl, not_hasList_cons hname hpassed, hfind, hnames'⟩
    rw [taker] at h
    cases hfind : find name with
    | none =>
      rw [hfind] at h
      exact hrest (by simp [hfind]) h
    | some d' =>
      rw [hfind] at h
      by_cases hlist : d'.type.isContainer = true
      · simp only [hlist, if_true, Option.some.injEq, Prod.mk.injEq] at h
        obtain ⟨rfl, rfl⟩ := h
        exact ⟨[], name, names, rfl, not_hasList_nil, hfind, .inl ⟨hlist, rfl⟩⟩
      · have hlist' : d'.type.isContainer = false := by simpa using hlist
        simp only [hlist', Bool.false_eq_true, if_false] at h
        split at h
        · simp only [Option.some.injEq, Prod.mk.injEq] at h
          obtain ⟨rfl, rfl⟩ := h
          exact ⟨[], name, names, rfl, not_hasList_nil, hfind, .inr ⟨hlist', rfl⟩⟩
        · refine hrest (fun d'' hd'' => ?_) h
          rw [hfind] at hd''
          exact Option.some.inj hd'' ▸ hlist'

theorem taker_of_hasList (h : HasList find names) : taker find count names ≠ none := by
  induction names with
  | nil => exact absurd h not_hasList_nil
  | cons name names ih =>
    obtain ⟨name', hmem, d, hd, hlist⟩ := h
    rw [taker]
    rcases List.mem_cons.1 hmem with rfl | hmem
    · simp [hd, hlist]
    · have hrest := ih ⟨name', hmem, d, hd, hlist⟩
      split
      · split
        · simp
        · split
          · simp
          · exact hrest
      · exact hrest

/-- A list stays the taker. -/
theorem HasList.of_taker {d : OptionDetails} {names' : List Text} (h : HasList find names)
    (htaker : taker find count names = some (d, names')) : HasList find names' := by
  obtain ⟨passed, name, rest, rfl, hpassed, hfind, ⟨hlist, rfl⟩ | ⟨hlist, rfl⟩⟩ := taker_eq_some htaker
  · exact ⟨name, by simp, d, hfind, hlist⟩
  · obtain ⟨name', hmem, d', hd', hlist'⟩ := h
    rcases List.mem_append.1 hmem with hmem | hmem
    · exact absurd ⟨name', hmem, d', hd', hlist'⟩ hpassed
    · rcases List.mem_cons.1 hmem with rfl | hmem
      · obtain rfl := Option.some.inj (hd'.symm.trans hfind)
        rw [hlist] at hlist'
        cases hlist'
      · exact ⟨name', hmem, d', hd', hlist'⟩

/-- Without positional options all words stay, and the flags are what is given. -/
theorem planAll_nil (items : List Item) : ∀ count : OptionDetails → ℕ, planAll find [] count items =
    { given := given find (items.flatMap Item.settings), kept := items.flatMap Item.words, positional := [] } := by
  induction items with
  | nil => exact fun _ => rfl
  | cons item items ih =>
    intro count
    have hitem : item.plan find [] count =
        { given := given find item.settings, kept := item.words, positional := [] } := by
      cases item <;> rfl
    simp only [planAll, hitem, ih, List.flatMap_cons, given, List.filterMap_append]

/-- **The words that stay are the last ones.** -/
theorem planAll_kept (items : List Item) : ∀ (names : List Text) (count : OptionDetails → ℕ),
    (planAll find names count items).kept <:+ items.flatMap Item.words := by
  induction items with
  | nil => exact fun _ _ => List.suffix_refl _
  | cons item items ih =>
    intro names count
    rw [planAll, List.flatMap_cons]
    cases item with
    | short _ _ _ | long _ _ _ | assigned _ _ => exact ih names _
    | word text =>
      cases htaker : taker find count names with
      | some r =>
        obtain ⟨d, names'⟩ := r
        simp only [Item.plan, htaker, List.nil_append]
        exact (ih names' _).trans (List.suffix_append _ _)
      | none =>
        simp only [Item.plan, htaker, planAll_nil]
        exact List.suffix_refl _

theorem planAll_kept_of_hasList (items : List Item) : ∀ (names : List Text) (count : OptionDetails → ℕ),
    HasList find names → (planAll find names count items).kept = [] := by
  induction items with
  | nil => exact fun _ _ _ => rfl
  | cons item items ih =>
    intro names count h
    rw [planAll]
    cases item with
    | short _ _ _ | long _ _ _ | assigned _ _ => exact ih names _ h
    | word text =>
      cases htaker : taker find count names with
      | some r =>
        obtain ⟨d, names'⟩ := r
        simp only [Item.plan, htaker, List.nil_append]
        exact ih names' _ (h.of_taker htaker)
      | none => exact absurd htaker (taker_of_hasList h)

/-- Without a list, each positional name takes one word at most. -/
theorem planAll_kept_length (items : List Item) : ∀ (names : List Text) (count : OptionDetails → ℕ),
    ¬ HasList find names →
    (items.flatMap Item.words).length ≤ (planAll find names count items).kept.length + names.length := by
  induction items with
  | nil => exact fun _ _ _ => Nat.zero_le _
  | cons item items ih =>
    intro names count h
    rw [planAll, List.flatMap_cons]
    cases item with
    | short _ _ _ | long _ _ _ | assigned _ _ => exact ih names _ h
    | word text =>
      cases htaker : taker find count names with
      | some r =>
        obtain ⟨d, names'⟩ := r
        obtain ⟨passed, name, rest, rfl, -, hfind, ⟨hlist, -⟩ | ⟨-, rfl⟩⟩ := taker_eq_some htaker
        · exact absurd ⟨name, by simp, d, hfind, hlist⟩ h
        · have hrest : ¬ HasList find names' := by
            rintro ⟨name', hmem, hd'⟩
            exact h ⟨name', by simp [hmem], hd'⟩
          have hle := ih names' (counted count [(d, text)]) hrest
          simp only [Item.plan, htaker, Item.words, List.nil_append, List.length_append, List.length_cons,
            List.length_nil]
          omega
      | none =>
        simp only [Item.plan, htaker, planAll_nil, Item.words]
        omega

end Words

/-! ### An example -/

/-- A list with a default. -/
def listWithDefault (opts : Text) (elem : Ty) (text : Text) (implicit : Option Text) : Declaration :=
  { opts, type := .vector elem, defaultValue := some text, implicitValue := implicit }

/-- A list of numbers, and a name. -/
def someDeclarations : List Declaration :=
  [listWithDefault "v,values".toList .int "7".toList none, { opts := "name".toList, type := .string }]

def valuesOption : OptionDetails := (listWithDefault "v,values".toList .int "7".toList none).details 0
def nameOption : OptionDetails := { id := 1, type := .string, defaultValue := none, implicitValue := none }

def someOptions : Options where
  options := [("name".toList, nameOption), ("v".toList, valuesOption), ("values".toList, valuesOption)]
  positional := []
  cell := fun d => ⟨d.type.zero, 0⟩
  made := 2

theorem declare_someOptions : someDeclarations.foldlM Options.add .new = .ok someOptions := rfl

def nameItem : Item := .long "name".toList false (some "a".toList)
def valueItem : Item := .short [] 'v' (some "3".toList)

theorem nameItem_ok (next : Option Text) : nameItem.Ok someOptions.find next :=
  ⟨rfl, nameOption, rfl, takesArg_of_no_implicit rfl rfl _ _⟩

theorem valueItem_ok (next : Option Text) : valueItem.Ok someOptions.find next :=
  ⟨by simp, by simp, valuesOption, rfl, takesArg_of_no_implicit rfl rfl _ _⟩

/-- `--name a b` -/
def nameLine : CommandLine := ⟨[nameItem, .word "b".toList], none⟩

theorem nameLine_ok : nameLine.Ok someOptions.find := ⟨nameItem_ok _, ⟨by simp, rfl⟩, trivial⟩

theorem parse_nameLine : ∃ o' argv' argc',
    someOptions.parse ("program".toList :: nameLine.render) = .ok (o', argv', argc') :=
  ⟨_, _, _, (parse_render nameLine_ok _).trans rfl⟩

/-- The two items in either order. -/
def nameFirst : CommandLine := ⟨[nameItem, valueItem], none⟩
def valueFirst : CommandLine := ⟨[valueItem, nameItem], none⟩

/-! ### What `parse` leaves -/

section Parse

variable {c c' : CommandLine} {o o' : Options} {program : Text} {argv' : List Text} {argc' : ℕ}

/-- **What `parse` leaves of a command line**: each option becomes what its own texts make of it, and the words that no
option takes are moved to the front of `argv`. -/
theorem parse_render_iff (h : c.Ok o.find) : o.parse (program :: c.render) = .ok (o', argv', argc') ↔
    argv' = program :: ((c.plan o).kept ++ c.render.drop (c.plan o).kept.length) ∧
    argc' = 1 + (c.plan o).kept.length ∧ o'.options = o.options ∧ o'.made = o.made ∧
    o'.positional = (c.remainingPlan o).positional ∧
    ∀ d : OptionDetails, d.final (o.nameCount d) (inputsFor (c.plan o).given d)
      (inputsFor (c.remainingPlan o).given d) (o.cell d) = .ok (o'.cell d) := by
  rw [parse_render h]
  constructor
  · intro hparse
    obtain ⟨⟨o₁, kept⟩, hrun, hparse⟩ := bind_eq_ok.1 hparse
    cases hparse
    obtain ⟨rfl, hrest⟩ := (CommandLine.run_ok_iff h).1 hrun
    exact ⟨overwrite_args .., rfl, hrest⟩
  · rintro ⟨rfl, rfl, hrest⟩
    rw [(CommandLine.run_ok_iff h).2 ⟨rfl, hrest⟩, ← overwrite_args]
    rfl

/-- **What `parse` does.**  For all options and all texts: it returns exactly for the command lines whose options can
each read their own texts, and a command line can be read in one way only; then each option is what its own texts make
of it, and the words that no option takes are moved to the front of `argv`. -/
theorem parse_iff {args : List Text} : o.parse (program :: args) = .ok (o', argv', argc') ↔
    ∃! c : CommandLine, c.Ok o.find ∧ args = c.render ∧
      argv' = program :: ((c.plan o).kept ++ args.drop (c.plan o).kept.length) ∧
      argc' = 1 + (c.plan o).kept.length ∧ o'.options = o.options ∧ o'.made = o.made ∧
      o'.positional = (c.remainingPlan o).positional ∧
      ∀ d : OptionDetails, d.final (o.nameCount d) (inputsFor (c.plan o).given d)
        (inputsFor (c.remainingPlan o).given d) (o.cell d) = .ok (o'.cell d) := by
  constructor
  · intro h
    obtain ⟨c, kept, hc, rfl, -⟩ := parse_ok_iff.1 h
    refine ⟨c, ⟨hc, rfl, (parse_render_iff hc).1 h⟩, ?_⟩
    rintro c' ⟨hc', heq, -⟩
    exact hc'.unique hc heq.symm
  · rintro ⟨c, ⟨hc, rfl, h⟩, -⟩
    exact (parse_render_iff hc).2 h

/-- The declarations are as before. -/
theorem parse_options {args : List Text} (h : o.parse (program :: args) = .ok (o', argv', argc')) :
    o'.options = o.options := by
  obtain ⟨c, kept, hc, rfl, -⟩ := parse_ok_iff.1 h
  obtain ⟨-, -, hoptions, -⟩ := (parse_render_iff hc).1 h
  exact hoptions

/-- **The words that stay in `argv`** are the last ones of the command line.  With a list among the positional options
none stays, and without one each positional name takes one word at most. -/
theorem parse_kept (h : c.Ok o.find) (hparse : o.parse (program :: c.render) = .ok (o', argv', argc')) :
    ∃ kept, argv'.take argc' = program :: kept ∧ kept <:+ c.words ∧
      (HasList o.find o.positional → kept = []) ∧
      (¬ HasList o.find o.positional → c.words.length ≤ kept.length + o.positional.length) := by
  obtain ⟨rfl, rfl, -⟩ := (parse_render_iff h).1 hparse
  refine ⟨(c.plan o).kept, ?_, planAll_kept c.items _ _, planAll_kept_of_hasList c.items _ _,
    planAll_kept_length c.items _ _⟩
  rw [Nat.add_comm, List.take_succ_cons, List.take_left]

theorem parse_kept_nameLine : ∃ o' argv' argc',
    someOptions.parse ("program".toList :: nameLine.render) = .ok (o', argv', argc') ∧
      ∃ kept, argv'.take argc' = "program".toList :: kept ∧ kept <:+ nameLine.words := by
  obtain ⟨o', argv', argc', hparse⟩ := parse_nameLine
  obtain ⟨kept, hargv, hkept, -⟩ := parse_kept nameLine_ok hparse
  exact ⟨o', argv', argc', hparse, kept, hargv, hkept⟩

/-- Without positional options the flags are what is given, and all words stay. -/
theorem CommandLine.plan_of_positional (c : CommandLine) (h : o.positional = []) :
    c.plan o = { given := given o.find (c.items.flatMap Item.settings), kept := c.words, positional := [] } ∧
    c.remainingPlan o = { given := [], kept := c.remaining.getD [], positional := [] } := by
  have hplan : c.plan o =
      { given := given o.find (c.items.flatMap Item.settings), kept := c.words, positional := [] } := by
    rw [plan, h, planAll_nil, words]
  have hwords : ∀ texts : List Text, (texts.map Item.word).flatMap Item.settings = [] ∧
      (texts.map Item.word).flatMap Item.words = texts := by
    intro texts
    induction texts with
    | nil => exact ⟨rfl, rfl⟩
    | cons text texts ih => exact ⟨ih.1, congrArg (text :: ·) ih.2⟩
  refine ⟨hplan, ?_⟩
  rw [remainingPlan, hplan, planAll_nil, (hwords _).1, (hwords _).2]
  rfl

/-- `parse` without positional options. -/
theorem exists_parse_iff (h : c.Ok o.find) (hpositional : o.positional = []) :
    (∃ argv argc, o.parse (program :: c.render) = .ok (o', argv, argc)) ↔
      o'.options = o.options ∧ o'.made = o.made ∧ o'.positional = [] ∧
      ∀ d : OptionDetails, d.final (o.nameCount d) (inputsFor (given o.find (c.items.flatMap Item.settings)) d) []
        (o.cell d) = .ok (o'.cell d) := by
  obtain ⟨hplan, hremaining⟩ := c.plan_of_positional hpositional
  simp only [parse_render_iff h, hplan, hremaining, inputsFor_nil]
  constructor
  · rintro ⟨_, _, -, -, hrest⟩
    exact hrest
  · intro hrest
    exact ⟨_, _, rfl, rfl, hrest⟩

/-- **Only the order of the texts of one option matters.**  Without positional options, two command lines that give each
option the same texts leave the same options, or are both not accepted. -/
theorem parse_reorder (h : c.Ok o.find) (h' : c'.Ok o.find) (hpositional : o.positional = [])
    (hsame : ∀ d, inputsFor (given o.find (c.items.flatMap Item.settings)) d =
      inputsFor (given o.find (c'.items.flatMap Item.settings)) d) :
    (∃ argv argc, o.parse (program :: c.render) = .ok (o', argv, argc)) ↔
      ∃ argv argc, o.parse (program :: c'.render) = .ok (o', argv, argc) := by
  rw [exists_parse_iff h hpositional, exists_parse_iff h' hpositional]
  simp only [hsame]

theorem parse_reorder_both : ∃ o' : Options,
    (∃ argv argc, someOptions.parse ("program".toList :: nameFirst.render) = .ok (o', argv, argc)) ∧
      ∃ argv argc, someOptions.parse ("program".toList :: valueFirst.render) = .ok (o', argv, argc) := by
  have hname : nameFirst.Ok someOptions.find := ⟨nameItem_ok _, valueItem_ok _, trivial⟩
  have hvalue : valueFirst.Ok someOptions.find := ⟨valueItem_ok _, nameItem_ok _, trivial⟩
  obtain ⟨o', argv, argc, hparse⟩ : ∃ o' argv argc,
      someOptions.parse ("program".toList :: nameFirst.render) = .ok (o', argv, argc) :=
    ⟨_, _, _, (parse_render hname _).trans rfl⟩
  refine ⟨o', ⟨argv, argc, hparse⟩, (parse_reorder hname hvalue rfl fun d => ?_).1 ⟨argv, argc, hparse⟩⟩
  have hfirst : given someOptions.find (nameFirst.items.flatMap Item.settings) =
      [(nameOption, "a".toList), (valuesOption, "3".toList)] := rfl
  have hsecond : given someOptions.find (valueFirst.items.flatMap Item.settings) =
      [(valuesOption, "3".toList), (nameOption, "a".toList)] := rfl
  rw [hfirst, hsecond]
  by_cases hd : nameOption = d
  · have hne : valuesOption ≠ d := hd ▸ by decide
    simp [inputsFor, hd, hne]
  · simp [inputsFor, List.filterMap_cons, hd]

/-! ### Writing a command line -/

/-- The flag of a name, with an argument. -/
def settingItem (p : Text × Text) : Item :=
  match p.1 with
  | [c] => .short [] c (some p.2)
  | name => .long name false (some p.2)

theorem settingItem_settings (p : Text × Text) : (settingItem p).settings = [p] ∧ (settingItem p).words = [] := by
  obtain ⟨name, text⟩ := p
  unfold settingItem
  split
  · next c hname =>
    obtain rfl : name = [c] := hname
    exact ⟨rfl, rfl⟩
  · exact ⟨rfl, rfl⟩

theorem settingItem_ok {p : Text × Text} {d : OptionDetails} {next : Option Text} (ho : o.Declared)
    (hfind : o.find p.1 = some d) (harg : d.type.hasArg) (himplicit : d.implicitValue = none) :
    (settingItem p).Ok o.find next := by
  have htakes := takesArg_of_no_implicit harg himplicit p.2 next
  obtain ⟨name, text⟩ := p
  rcases ho.reachable hfind with hlong | ⟨c, hname, hc⟩
  · obtain ⟨c, rest, hname, -, hrest⟩ := isLongName_cons hlong
    obtain ⟨c', rest, rfl⟩ := List.exists_cons_of_ne_nil hrest
    obtain rfl : name = c :: c' :: rest := hname
    exact ⟨hlong, d, hfind, htakes⟩
  · obtain rfl : name = [c] := hname
    exact ⟨by simpa using hc, by simp, d, hfind, htakes⟩

/-- **Whatever is written is read.**  However options have been declared: any texts can be given to the options that
take an argument and have no implicit value, in any order and any number, each behind the flag of a name; `parse` reads
exactly these, and nothing stays in `argv`. -/
theorem parse_written {decls : List Declaration} {l : List (Text × Text)}
    (ho : decls.foldlM Options.add .new = .ok o)
    (hl : ∀ p ∈ l, ∃ d, o.find p.1 = some d ∧ d.type.hasArg ∧ d.implicitValue = none) :
    o.parse (program :: l.flatMap fun p => (settingItem p).render) = .ok (o', argv', argc') ↔
      argv' = program :: (l.flatMap fun p => (settingItem p).render) ∧ argc' = 1 ∧ o'.options = o.options ∧
      o'.made = o.made ∧ o'.positional = [] ∧
      ∀ d : OptionDetails, d.final (o.nameCount d) (inputsFor (given o.find l) d) [] (o.cell d) = .ok (o'.cell d) := by
  have hitems : ∀ l : List (Text × Text),
      (∀ p ∈ l, ∃ d, o.find p.1 = some d ∧ d.type.hasArg ∧ d.implicitValue = none) →
      ItemsOk o.find (l.map settingItem) [] := by
    intro l
    induction l with
    | nil => exact fun _ => trivial
    | cons p l ih =>
      intro hl
      obtain ⟨d, hfind, harg, himplicit⟩ := hl p (by simp)
      exact ⟨settingItem_ok (Options.declared_addAll ho) hfind harg himplicit,
        ih fun q hq => hl q (List.mem_cons_of_mem _ hq)⟩
  have hline : (CommandLine.mk (l.map settingItem) none).Ok o.find := hitems l hl
  have hrender : (CommandLine.mk (l.map settingItem) none).render = l.flatMap fun p => (settingItem p).render := by
    rw [CommandLine.render, renderAll, List.flatMap_map]
    exact List.append_nil _
  have hsettings : (l.map settingItem).flatMap Item.settings = l := by
    simp only [List.flatMap_map, (settingItem_settings _).1, List.flatMap_singleton']
  have hwords : (CommandLine.mk (l.map settingItem) none).words = [] := by
    simp only [CommandLine.words, List.flatMap_map, (settingItem_settings _).2, List.flatMap_eq_nil_iff, implies_true]
  obtain ⟨hplan, hremaining⟩ := (CommandLine.mk (l.map settingItem) none).plan_of_positional
    (Options.declare_positional ho)
  rw [← hrender, parse_render_iff hline, hplan, hremaining, hwords, hsettings]
  rfl

theorem parse_written_dashes : ∃ o' argv' argc',
    someOptions.parse ["program".toList, "-v".toList, "3".toList, "--name".toList, "--values".toList] =
      .ok (o', argv', argc') ∧ argc' = 1 ∧ (o'.cell nameOption).value = ("--values".toList : Text) := by
  have hset : ∀ p ∈ [("v".toList, "3".toList), ("name".toList, "--values".toList)],
      ∃ d, someOptions.find p.1 = some d ∧ d.type.hasArg ∧ d.implicitValue = none :=
    List.forall_mem_cons.2 ⟨⟨valuesOption, rfl, rfl, rfl⟩, List.forall_mem_singleton.2 ⟨nameOption, rfl, rfl, rfl⟩⟩
  have hline : (CommandLine.mk [valueItem, settingItem ("name".toList, "--values".toList)] none).Ok someOptions.find :=
    ⟨valueItem_ok _, settingItem_ok (Options.declared_addAll declare_someOptions) rfl rfl rfl, trivial⟩
  obtain ⟨o', argv', argc', hparse⟩ : ∃ o' argv' argc', someOptions.parse
      ["program".toList, "-v".toList, "3".toList, "--name".toList, "--values".toList] = .ok (o', argv', argc') :=
    ⟨_, _, _, (parse_render hline _).trans rfl⟩
  obtain ⟨-, hargc, -, -, -, hcells⟩ := (parse_written declare_someOptions hset).1 hparse
  have hname : Except.ok { value := ("--values".toList : Text), count := 1 } = Except.ok (o'.cell nameOption) :=
    hcells nameOption
  exact ⟨o', argv', argc', hparse, hargc, (congrArg Cell.value (Except.ok.inj hname)).symm⟩

/-! ### Values -/

/-- The last value is what stays. -/
theorem foldl_join_single {type : Ty} (h : type.isContainer = false) (vs : List type.Val) : ∀ old : type.Val,
    vs.foldl type.join old = vs.getLast?.getD old := by
  have hjoin : ∀ old v : type.Val, type.join old v = v := by
    cases type with
    | vector elem => cases h
    | string => exact fun _ _ => rfl
    | int => exact fun _ _ => rfl
    | bool => exact fun _ _ => rfl
  induction vs with
  | nil => exact fun _ => rfl
  | cons v vs ih =>
    intro old
    rw [List.foldl_cons, hjoin, ih, List.getLast?_cons]
    cases vs.getLast? <;> rfl

/-- A list has all values. -/
theorem foldl_join_vector {elem : Ty} (vs : List (List elem.Val)) : ∀ old : List elem.Val,
    vs.foldl (Ty.join (.vector elem)) old = old ++ vs.flatten := by
  induction vs with
  | nil => exact fun old => (List.append_nil old).symm
  | cons v vs ih =>
    intro old
    rw [List.flatten_cons, ← List.append_assoc]
    exact ih (old ++ v)

/-- What an option that is no list ends with: the value of the last text, or of the default, or the value it had. -/
def OptionDetails.EndsWith (d : OptionDetails) (names : ℕ) (texts : List Text) (old new : Cell d.type) : Prop :=
  new.count = old.count + texts.length ∧
  match texts.getLast? with
  | some text => d.valueOf text = .ok new.value
  | none =>
    match (d.defaults names old.count).getLast? with
    | some text => parseValue d.type text d.type.zero = .ok new.value
    | none => new.value = old.value

theorem OptionDetails.final_single {d : OptionDetails} (hd : d.type.isContainer = false) {names : ℕ}
    {before behind : List Text} {old new : Cell d.type} (h : d.final names before behind old = .ok new) :
    d.EndsWith names (before ++ behind) old new := by
  obtain ⟨vs, hvs, h⟩ := bind_eq_ok.1 h
  obtain ⟨ds, hds, h⟩ := bind_eq_ok.1 h
  obtain ⟨ws, hws, h⟩ := bind_eq_ok.1 h
  obtain rfl := Except.ok.inj h
  refine ⟨by rw [List.length_append, Nat.add_assoc], ?_⟩
  simp only [foldl_join_single hd]
  rcases List.eq_nil_or_concat behind with rfl | ⟨behind, text, rfl⟩
  · obtain rfl := List.eq_nil_of_length_eq_zero (length_mapM hws)
    rw [List.append_nil, List.append_nil]
    rcases List.eq_nil_or_concat before with rfl | ⟨before, text, rfl⟩
    · obtain rfl := List.eq_nil_of_length_eq_zero (length_mapM hvs)
      simp only [List.nil_append, List.getLast?_nil, List.length_nil, Nat.add_zero] at hds ⊢
      rcases List.eq_nil_or_concat (d.defaults names old.count) with hnone | ⟨l, text, hsome⟩
      · rw [hnone] at hds ⊢
        obtain rfl := List.eq_nil_of_length_eq_zero (length_mapM hds)
        rfl
      · rw [hsome, List.concat_eq_append] at hds ⊢
        obtain ⟨ds', v, -, hv, rfl⟩ := mapM_concat hds
        simp only [List.getLast?_concat, Option.getD_some]
        exact hv
    · have hnone : d.defaults names (old.count + (before.concat text).length) = [] := by
        rw [defaults, if_neg (by rw [List.length_concat]; omega)]
      rw [hnone] at hds
      obtain rfl := List.eq_nil_of_length_eq_zero (length_mapM hds)
      rw [List.concat_eq_append] at hvs ⊢
      obtain ⟨vs', v, -, hv, rfl⟩ := mapM_concat hvs
      simp only [List.append_nil, List.getLast?_concat, Option.getD_some]
      exact hv
  · rw [List.concat_eq_append] at hws ⊢
    obtain ⟨ws', w, -, hw, rfl⟩ := mapM_concat hws
    simp only [← List.append_assoc, List.getLast?_concat, Option.getD_some]
    exact hw

/-- An option without a default that is given nothing behind the `--`. -/
theorem OptionDetails.final_of_no_default {d : OptionDetails} (hd : d.type.isContainer = false)
    (hdefault : d.defaultValue = none) (names : ℕ) (texts : List Text) (old : Cell d.type) :
    d.final names texts [] old = (do
      let vs ← texts.mapM d.valueOf
      return { value := vs.getLast?.getD old.value, count := old.count + texts.length }) := by
  have hnone : ∀ count, d.defaults names count = [] := by simp [defaults, hdefault]
  rw [final]
  cases texts.mapM d.valueOf with
  | error e => rfl
  | ok vs =>
    simp only [ok_bind, pure_eq_ok, hnone, List.mapM_nil, List.append_nil, foldl_join_single hd]
    rfl

/-- **The last text decides.**  After `parse` an option that is no list has the value of the last text it is given; when
it is given none and has never been set, that of its default; and otherwise the value it had. -/
theorem parse_last {d : OptionDetails} (h : c.Ok o.find)
    (hparse : o.parse (program :: c.render) = .ok (o', argv', argc')) (hd : d.type.isContainer = false) :
    d.EndsWith (o.nameCount d) (inputsFor (c.plan o).given d ++ inputsFor (c.remainingPlan o).given d) (o.cell d)
      (o'.cell d) := by
  obtain ⟨-, -, -, -, -, hcells⟩ := (parse_render_iff h).1 hparse
  exact OptionDetails.final_single hd (hcells d)

theorem parse_last_nameLine : ∃ o' argv' argc',
    someOptions.parse ("program".toList :: nameLine.render) = .ok (o', argv', argc') ∧
      (o'.cell nameOption).value = ("a".toList : Text) := by
  obtain ⟨o', argv', argc', hparse⟩ := parse_nameLine
  obtain ⟨-, hvalue⟩ := parse_last (d := nameOption) nameLine_ok hparse rfl
  exact ⟨o', argv', argc', hparse, (Except.ok.inj hvalue).symm⟩

/-! ### The default of a list -/

theorem countP_entries {decls : List Declaration} {decl : Declaration} : ∀ {i : ℕ} (id : ℕ), decls[i]? = some decl →
    (entries id decls).countP (fun p => p.2 = decl.details (id + i)) = decl.names.length := by
  induction decls with
  | nil =>
    intro i id h
    cases h
  | cons decl' decls ih =>
    intro i id h
    rw [entries, List.countP_append]
    cases i with
    | zero =>
      obtain rfl := Option.some.inj h
      have hfirst : (decl'.names.map fun name => (name, decl'.details id)).countP
          (fun p => p.2 = decl'.details (id + 0)) = decl'.names.length := by
        rw [List.countP_eq_length.2, List.length_map]
        intro p hp
        obtain ⟨name, -, rfl⟩ := List.mem_map.1 hp
        simp
      have hrest : (entries (id + 1) decls).countP (fun p => p.2 = decl'.details (id + 0)) = 0 := by
        rw [List.countP_eq_zero]
        rintro ⟨name, d⟩ hp
        obtain ⟨j, decl'', -, -, rfl⟩ := mem_entries.1 hp
        simp only [decide_eq_true_eq]
        intro heq
        have hid : id + 1 + j = id + 0 := congrArg OptionDetails.id heq
        omega
      rw [hfirst, hrest, Nat.add_zero]
    | succ i =>
      have hfirst : (decl'.names.map fun name => (name, decl'.details id)).countP
          (fun p => p.2 = decl.details (id + (i + 1))) = 0 := by
        rw [List.countP_eq_zero]
        intro p hp
        obtain ⟨name, -, rfl⟩ := List.mem_map.1 hp
        simp only [decide_eq_true_eq]
        intro heq
        have hid : id = id + (i + 1) := congrArg OptionDetails.id heq
        omega
      have hrest := ih (id + 1) h
      rw [Nat.add_assoc, Nat.add_comm 1] at hrest
      rw [hfirst, hrest, Nat.zero_add]

/-- How many names an option has. -/
theorem nameCount_details {decls : List Declaration} {decl : Declaration} {i : ℕ}
    (ho : decls.foldlM Options.add .new = .ok o) (hi : decls[i]? = some decl) :
    o.nameCount (decl.details i) = decl.names.length := by
  have hentries : entries Options.new.made decls ++ Options.new.options = entries 0 decls := List.append_nil _
  have hcount := countP_entries 0 hi
  rw [Nat.zero_add] at hcount
  rw [Options.nameCount, (Options.addAll_ok ho).2.countP_eq, hentries, hcount]

/-- A list gets one more entry. -/
theorem parseValue_vector {elem : Ty} {text : Text} {old new : List elem.Val}
    (h : parseValue (.vector elem) text old = .ok new) :
    ∃ v, parseValue elem text elem.zero = .ok v ∧ new = old ++ [v] := by
  obtain ⟨v, hv, h⟩ := bind_eq_ok.1 h
  exact ⟨v, hv, (Except.ok.inj h).symm⟩

/-- **The default of a list is read once for each of its names**: a list with a short and a long name that is not on the
command line has its default twice. -/
theorem parse_default_list {decls : List Declaration} {elem : Ty} {text opts : Text} {implicit : Option Text} {i : ℕ}
    (ho : decls.foldlM Options.add .new = .ok o) (hi : decls[i]? = some (listWithDefault opts elem text implicit))
    (h : c.Ok o.find) (hparse : o.parse (program :: c.render) = .ok (o', argv', argc'))
    (hgiven : inputsFor (given o.find (c.items.flatMap Item.settings))
      ((listWithDefault opts elem text implicit).details i) = []) :
    ∃ v : elem.Val, parseValue elem text elem.zero = .ok v ∧
      o'.cell ((listWithDefault opts elem text implicit).details i) =
        { value := List.replicate (listWithDefault opts elem text implicit).names.length v, count := 0 } := by
  obtain ⟨-, -, -, -, -, hcells⟩ := (parse_render_iff h).1 hparse
  obtain ⟨hplan, hremaining⟩ := c.plan_of_positional (Options.declare_positional ho)
  have hfinal := hcells ((listWithDefault opts elem text implicit).details i)
  rw [hplan, hremaining, hgiven, nameCount_details ho hi, (Options.declared_addAll ho).unset] at hfinal
  obtain ⟨vs, hvs, hfinal⟩ := bind_eq_ok.1 hfinal
  obtain ⟨ds, hds, hfinal⟩ := bind_eq_ok.1 hfinal
  obtain ⟨ws, hws, hfinal⟩ := bind_eq_ok.1 hfinal
  obtain rfl := List.eq_nil_of_length_eq_zero (length_mapM hvs)
  obtain rfl := List.eq_nil_of_length_eq_zero (length_mapM hws)
  -- it has a name, so the default has been read
  have hname := Declaration.names_ne_nil ((Options.addAll_ok ho).1 _ (List.mem_of_getElem? hi))
  obtain ⟨new, hnew, rfl⟩ := mapM_replicate (mt List.length_eq_zero_iff.1 hname) hds
  obtain ⟨v, hv, rfl⟩ := parseValue_vector hnew
  refine ⟨v, hv, (Except.ok.inj hfinal).symm.trans ?_⟩
  simp only [List.nil_append, List.append_nil]
  have hvalue := foldl_join_vector (List.replicate (listWithDefault opts elem text implicit).names.length [v]) []
  rw [List.nil_append, List.flatten_replicate_singleton] at hvalue
  exact congrArg (fun value => ({ value, count := 0 } : Cell (.vector elem))) hvalue

theorem parse_default_list_nameLine : ∃ o' argv' argc',
    someOptions.parse ("program".toList :: nameLine.render) = .ok (o', argv', argc') ∧
      o'.cell valuesOption = { value := ([7, 7] : List ℤ), count := 0 } := by
  obtain ⟨o', argv', argc', hparse⟩ := parse_nameLine
  obtain ⟨v, hv, hcell⟩ := parse_default_list (i := 0) declare_someOptions rfl nameLine_ok hparse rfl
  have hseven : parseValue .int "7".toList Ty.int.zero = .ok (7 : ℤ) := rfl
  obtain rfl : (7 : ℤ) = v := Except.ok.inj (hseven.symm.trans hv)
  exact ⟨o', argv', argc', hparse, hcell⟩

end Parse

end Shadowc.Cxxopts
