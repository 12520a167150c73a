import Shadowc.Cxxopts.Parse

/-!
# The command lines that `parse` accepts

A command line is a list of items: flags with their arguments, and other texts; it may end in `--` and texts behind it.
Which text is the argument of which flag depends on the options and on the text that follows (`TakesArg`), so whether
an item can stand at a place is a matter of what follows it there (`Item.Ok`).

`parse` reads a command line as what it is, item by item (`parse_render`).  Texts that are no command line are one up
to a malformed flag (`Malformed`), and there `parse` throws (`parse_malformed`).  There is no third case
(`line_or_malformed`), so `parse_ok_iff` says what is accepted, and `parse_error_iff` what is thrown.  A command line
can be read in one way only (`CommandLine.Ok.unique`).
-/

namespace Shadowc.Cxxopts

open Lib Throwing

/-- A text, or a flag and its argument. -/
inductive Item where
  | word (text : Text)
  /-- `-abc`, or `-abc arg`; `last` is the last letter. -/
  | short (names : Text) (last : Char) (arg : Option Text)
  /-- `--name`, or `--name arg`; with `sign` an equals sign follows the name. -/
  | long (name : Text) (sign : Bool) (arg : Option Text)
  /-- `--name=value` -/
  | assigned (name value : Text)
  deriving DecidableEq, Repr

namespace Item

/-- The texts of an item. -/
def render : Item → List Text
  | word text => [text]
  | short names last arg => ('-' :: (names ++ [last])) :: arg.toList
  | long name sign arg => ('-' :: '-' :: (name ++ if sign then ['='] else [])) :: arg.toList
  | assigned name value => ['-' :: '-' :: (name ++ '=' :: value)]

/-- The text that an item begins with. -/
def first : Item → Text
  | word text => text
  | short names last _ => '-' :: (names ++ [last])
  | long name sign _ => '-' :: '-' :: (name ++ if sign then ['='] else [])
  | assigned name value => '-' :: '-' :: (name ++ '=' :: value)

/-- The text behind it. -/
def arg : Item → Option Text
  | short _ _ arg | long _ _ arg => arg
  | word _ | assigned _ _ => none

/-- What `parse` finds the first text to be. -/
def flag : Item → Option Flag
  | word _ => none
  | short names last _ => some (.short (names ++ [last]))
  | long name _ _ => some (.long name [])
  | assigned name value => some (.long name value)

theorem render_eq (item : Item) : item.render = item.first :: item.arg.toList := by
  cases item <;> rfl

/-- The options that an item names, with what each of them is given. -/
def settings : Item → List (Text × Text)
  | word _ => []
  | short names last arg => names.map (fun c => ([c], [])) ++ [([last], arg.getD [])]
  | long name _ arg => [(name, arg.getD [])]
  | assigned name value => [(name, value)]

end Item

/-- An option takes the argument, or none, when `next` is the text behind it: an option with an implicit value takes no
text that begins with a dash. -/
def TakesArg (d : OptionDetails) (arg next : Option Text) : Prop :=
  match arg with
  | some a => d.type.hasArg ∧ ¬ (a.head? = some '-' ∧ d.hasImplicit)
  | none => d.type.hasArg = false ∨ d.hasImplicit ∧ ∀ a ∈ next, a.head? = some '-'

/-- An option that has no implicit value takes any text. -/
theorem takesArg_of_no_implicit {d : OptionDetails} (harg : d.type.hasArg) (himplicit : d.implicitValue = none)
    (text : Text) (next : Option Text) : TakesArg d (some text) next :=
  ⟨harg, fun h => by simp [OptionDetails.hasImplicit, himplicit] at h⟩

section Grammar

variable (find : Text → Option OptionDetails)

/-- A letter that may stand before another one. -/
def Bundled (c : Char) : Prop := ∃ d, find [c] = some d ∧ (d.type.hasArg = false ∨ d.hasImplicit)

/-- The item can stand where `next` follows it. -/
def Item.Ok (next : Option Text) : Item → Prop
  | word text => text ≠ ['-', '-'] ∧ matchOption text = none
  | short names last arg => (∀ c ∈ names ++ [last], c.isAlphanum) ∧ (∀ c ∈ names, Bundled find c) ∧
      ∃ d, find [last] = some d ∧ TakesArg d arg next
  | long name _ arg => isLongName name ∧ ∃ d, find name = some d ∧ TakesArg d arg next
  | assigned name value => isLongName name ∧ value ≠ [] ∧ value.all isDot ∧ ∃ d, find name = some d ∧ d.type.hasArg

def renderAll (items : List Item) : List Text := items.flatMap Item.render

/-- The items can stand one after the other, and then `tail`. -/
def ItemsOk : List Item → List Text → Prop
  | [], _ => True
  | item :: items, tail => item.Ok find (renderAll items ++ tail).head? ∧ ItemsOk items tail

/-- The first text is a flag that cannot be read; `settings` are read before that is found out. -/
inductive Malformed : List Text → List (Text × Text) → OptionException → Prop
  | unknownLetter {names more : Text} {c : Char} {rest : List Text} : (∀ c' ∈ names ++ c :: more, c'.isAlphanum) →
      (∀ c' ∈ names, Bundled find c') → find [c] = none →
      Malformed (('-' :: (names ++ c :: more)) :: rest) (names.map fun c' => ([c'], [])) (.optionNotExists [c])
  | notLast {names more : Text} {c : Char} {rest : List Text} {d : OptionDetails} :
      (∀ c' ∈ names ++ c :: more, c'.isAlphanum) → (∀ c' ∈ names, Bundled find c') → find [c] = some d →
      d.type.hasArg → d.hasImplicit = false → more ≠ [] →
      Malformed (('-' :: (names ++ c :: more)) :: rest) (names.map fun c' => ([c'], [])) (.optionRequiresArgument [c])
  | nothingLeft {names : Text} {c : Char} {d : OptionDetails} : (∀ c' ∈ names ++ [c], c'.isAlphanum) →
      (∀ c' ∈ names, Bundled find c') → find [c] = some d → d.type.hasArg → d.hasImplicit = false →
      Malformed ['-' :: (names ++ [c])] (names.map fun c' => ([c'], [])) (.missingArgument [c])
  | unknownName {text name value : Text} {rest : List Text} : matchOption text = some (.long name value) →
      find name = none → Malformed (text :: rest) [] (.optionNotExists name)
  | noArgument {text name value : Text} {rest : List Text} {d : OptionDetails} :
      matchOption text = some (.long name value) → value ≠ [] → find name = some d → d.type.hasArg = false →
      Malformed (text :: rest) [] (.optionNotHasArgument name value)
  | missing {text name : Text} {d : OptionDetails} : matchOption text = some (.long name []) → find name = some d →
      d.type.hasArg → d.hasImplicit = false → Malformed [text] [] (.missingArgument name)

end Grammar

/-- A whole command line. -/
structure CommandLine where
  items : List Item
  /-- The texts behind `--`. -/
  remaining : Option (List Text)

namespace CommandLine

def tail (c : CommandLine) : List Text :=
  match c.remaining with
  | none => []
  | some rest => ['-', '-'] :: rest

def render (c : CommandLine) : List Text := renderAll c.items ++ c.tail

def Ok (c : CommandLine) (find : Text → Option OptionDetails) : Prop := ItemsOk find c.items c.tail

end CommandLine

/-! ### What a command line does -/

namespace Options

/-- Options are set, one after the other. -/
def set (o : Options) (settings : List (Text × Text)) : Except OptionException Options :=
  settings.foldlM (fun o p => o.addToOption p.1 p.2) o

end Options

/-- The options after an item, and what is kept of it. -/
def Item.apply (o : Options) : Item → Except OptionException (Options × List Text)
  | word text => do
    let (o, taken) ← o.consumePositional text
    return (o, if taken then [] else [text])
  | item => do
    let o ← o.set item.settings
    return (o, [])

def applyAll (o : Options) : List Item → Except OptionException (Options × List Text)
  | [] => return (o, [])
  | item :: items => do
    let (o, kept) ← item.apply o
    let (o, kept') ← applyAll o items
    return (o, kept ++ kept')

/-- The items in order, then the defaults, then the texts behind `--`. -/
def CommandLine.run (c : CommandLine) (o : Options) : Except OptionException (Options × List Text) := do
  let (o, kept) ← applyAll o c.items
  let o ← o.setDefaults
  let o ← match c.remaining with
    | some texts => o.consumeRemaining texts
    | none => pure o
  return (o, kept)

/-! ### The declarations stay -/

namespace Options

variable {o o' : Options} {d : OptionDetails} {name text : Text}

theorem parseOption_find (h : o.parseOption d text = .ok o') : o'.find = o.find := by
  obtain ⟨value, -, h⟩ := bind_eq_ok.1 h
  cases h
  rfl

theorem addToOption_find (h : o.addToOption name text = .ok o') : o'.find = o.find := by
  unfold addToOption at h
  split at h
  · cases h
  · exact parseOption_find h

theorem set_find {settings : List (Text × Text)} (h : o.set settings = .ok o') : o'.find = o.find :=
  foldlM_induction (P := fun o₁ => o₁.find = o.find) (fun _ _ _ _ hs h => (addToOption_find h).trans hs) rfl h

theorem consumeFrom_find {names : List Text} {taken : Bool} (h : o.consumeFrom text names = .ok (o', taken)) :
    o'.find = o.find := by
  induction names with
  | nil =>
    cases h
    rfl
  | cons name names ih =>
    rw [consumeFrom] at h
    split at h
    · split at h
      · split at h
        · obtain ⟨o₁, h₁, h⟩ := bind_eq_ok.1 h
          have hfind := addToOption_find h₁
          cases h
          exact hfind
        · exact ih h
      · obtain ⟨o₁, h₁, h⟩ := bind_eq_ok.1 h
        have hfind := addToOption_find h₁
        cases h
        exact hfind
    · exact ih h

theorem set_nil : o.set [] = .ok o := rfl

theorem set_cons (p : Text × Text) (settings : List (Text × Text)) :
    o.set (p :: settings) = (do
      let o ← o.addToOption p.1 p.2
      o.set settings) := by
  rw [set, List.foldlM_cons]
  rfl

theorem addToOption_of_find (h : o.find name = some d) : o.addToOption name text = o.parseOption d text := by
  rw [addToOption, h]

end Options

theorem Item.apply_find {o o' : Options} {item : Item} {kept : List Text} (h : item.apply o = .ok (o', kept)) :
    o'.find = o.find := by
  cases item with
  | word text =>
    obtain ⟨⟨o₁, taken⟩, h₁, h⟩ := bind_eq_ok.1 h
    cases h
    exact Options.consumeFrom_find h₁
  | short names last arg | long name sign arg | assigned name value =>
    obtain ⟨o₁, h₁, h⟩ := bind_eq_ok.1 h
    cases h
    exact Options.set_find h₁

theorem applyAll_find {items : List Item} : ∀ {o o' : Options} {kept : List Text}, applyAll o items = .ok (o', kept) →
    o'.find = o.find := by
  induction items with
  | nil =>
    intro o o' kept h
    cases h
    rfl
  | cons item items ih =>
    intro o o' kept h
    obtain ⟨⟨o₁, kept₁⟩, hitem, h⟩ := bind_eq_ok.1 h
    obtain ⟨⟨o₂, kept₂⟩, hrest, h⟩ := bind_eq_ok.1 h
    cases h
    exact (ih hrest).trans (Item.apply_find hitem)

/-! ### One item -/

namespace Options

variable {o : Options} {d : OptionDetails}

/-- What `parse` does for an option at the end of a flag. -/
theorem argument_eq (name : Text) {arg : Option Text} {rest : List Text} (h : TakesArg d arg rest.head?) :
    (if d.type.hasArg = false then do
      let o ← o.parseOption d []
      return (o, 0)
    else o.checkedParseArg d name (arg.toList ++ rest).head?) = (do
      let o ← o.parseOption d (arg.getD [])
      return (o, arg.toList.length)) := by
  cases arg with
  | some a =>
    obtain ⟨harg, hdash⟩ := h
    rw [if_neg (by simp [harg])]
    simp only [checkedParseArg, Option.toList_some, List.singleton_append, List.head?_cons, if_neg hdash]
    rfl
  | none =>
    by_cases harg : d.type.hasArg = false
    · rw [if_pos harg]
      rfl
    · obtain ⟨himplicit, hnext⟩ := h.resolve_left harg
      rw [if_neg harg]
      simp only [Option.toList_none, List.nil_append, checkedParseArg]
      cases hhead : rest.head? with
      | none =>
        simp only [if_pos himplicit]
        rfl
      | some a =>
        simp only [if_pos (And.intro (hnext a hhead) himplicit)]
        rfl

theorem parseShort_eq {names : Text} {last : Char} {arg : Option Text} {rest : List Text}
    (hnames : ∀ c ∈ names, Bundled o.find c) (hlast : o.find [last] = some d) (harg : TakesArg d arg rest.head?) :
    o.parseShort (arg.toList ++ rest).head? (names ++ [last]) = (do
      let o ← o.set (Item.short names last arg).settings
      return (o, arg.toList.length)) := by
  induction names generalizing o with
  | nil =>
    have hempty : ∀ o' : Options, o'.parseShort (arg.toList ++ rest).head? [] = .ok (o', 0) := fun _ => rfl
    have h := argument_eq (o := o) [last] harg
    simp only [Item.settings, List.map_nil, List.nil_append, set_cons, addToOption_of_find hlast]
    rw [parseShort, hlast]
    simp only [hempty, if_true]
    rw [bind_assoc]
    exact h
  | cons c names ih =>
    obtain ⟨d', hfind, hbundled⟩ := hnames c (by simp)
    have hmore : names ++ [last] ≠ [] := by simp
    have hturn : o.parseShort (arg.toList ++ rest).head? (c :: names ++ [last]) = (do
        let o ← o.parseOption d' []
        o.parseShort (arg.toList ++ rest).head? (names ++ [last])) := by
      rw [List.cons_append, parseShort, hfind]
      by_cases hdarg : d'.type.hasArg = false
      · exact if_pos hdarg
      · exact (if_neg hdarg).trans ((if_neg hmore).trans (if_pos (hbundled.resolve_left hdarg)))
    rw [hturn]
    have hset : o.set (Item.short (c :: names) last arg).settings = (do
        let o ← o.parseOption d' []
        o.set (Item.short names last arg).settings) := by
      simp only [Item.settings, List.map_cons, List.cons_append, set_cons, addToOption_of_find hfind]
    rw [hset, bind_assoc]
    cases h₁ : o.parseOption d' [] with
    | error e => rfl
    | ok o₁ =>
      have hfind₁ := parseOption_find h₁
      exact ih (fun c' hc' => hfind₁ ▸ hnames c' (List.mem_cons_of_mem _ hc')) (hfind₁ ▸ hlast)

end Options

/-- An item begins with its flag. -/
theorem Item.Ok.first {find : Text → Option OptionDetails} {next : Option Text} {item : Item} (h : item.Ok find next) :
    item.first ≠ ['-', '-'] ∧ matchOption item.first = item.flag := by
  cases item with
  | word text => exact h
  | short names last arg =>
    obtain ⟨halnum, -⟩ := h
    refine ⟨fun heq => ?_, matchOption_short (by simp) halnum⟩
    have hdash := ne_dash_of_isAlphanum (halnum last (by simp))
    have hmem : last ∈ names ++ [last] := by simp
    rw [(List.cons.inj heq).2, List.mem_singleton] at hmem
    exact hdash hmem
  | long name sign arg =>
    obtain ⟨hname, -⟩ := h
    refine ⟨fun heq => ?_, ?_⟩
    · obtain ⟨c, rest, rfl, -⟩ := isLongName_cons hname
      simp [Item.first] at heq
    · cases sign with
      | true => exact matchOption_assigned hname rfl
      | false => simpa [Item.first, Item.flag] using matchOption_long hname
  | assigned name value =>
    obtain ⟨hname, -, hdot, -⟩ := h
    refine ⟨fun heq => ?_, matchOption_assigned hname hdot⟩
    obtain ⟨c, rest, rfl, -⟩ := isLongName_cons hname
    simp [Item.first] at heq

/-- **The scan reads an item as what it is.** -/
theorem scan_item {o : Options} {item : Item} {rest : List Text} (h : item.Ok o.find rest.head?) :
    o.scan (item.render ++ rest) = (do
      let (o, kept) ← item.apply o
      let s ← o.scan rest
      return { s with kept := kept ++ s.kept }) := by
  -- a flag that `parse_flag` reads, with as many texts behind it as it takes
  have hflag : ∀ (text : Text) (flag : Flag) (arg : Option Text) (settings : List (Text × Text)),
      text ≠ ['-', '-'] → matchOption text = some flag →
      o.parseFlag (arg.toList ++ rest).head? flag = (do
        let o ← o.set settings
        return (o, arg.toList.length)) →
      o.scan (text :: arg.toList ++ rest) = (do
        let (o, kept) ← (do
          let o ← o.set settings
          return (o, []))
        let s ← o.scan rest
        return { s with kept := kept ++ s.kept }) := by
    intro text flag arg settings hdash hmatch hparse
    rw [List.cons_append, Options.scan, if_neg hdash, hmatch]
    simp only [hparse]
    cases o.set settings with
    | error e => rfl
    | ok o₁ =>
      simp only [ok_bind, pure_eq_ok, List.drop_left, List.nil_append]
      cases o₁.scan rest <;> rfl
  obtain ⟨hdash, hmatch⟩ := h.first
  cases item with
  | word text =>
    obtain ⟨hdash, hmatch⟩ := h
    rw [Item.render, List.singleton_append, Options.scan, if_neg hdash, hmatch]
    simp only [Item.apply]
    cases o.consumePositional text with
    | error e => rfl
    | ok r =>
      obtain ⟨o₁, taken⟩ := r
      simp only [ok_bind, pure_eq_ok]
      cases o₁.scan rest <;> cases taken <;> rfl
  | short names last arg =>
    obtain ⟨-, hbundled, d, hfind, harg⟩ := h
    exact hflag _ _ arg _ hdash hmatch (Options.parseShort_eq hbundled hfind harg)
  | long name sign arg =>
    obtain ⟨-, d, hfind, harg⟩ := h
    refine hflag _ _ arg _ hdash hmatch ?_
    have h := Options.argument_eq (o := o) name harg
    simp only [Options.parseFlag, Options.parseLong, hfind, Item.settings, Options.set_cons,
      Options.addToOption_of_find hfind, Options.set_nil, ne_eq, not_true_eq_false, if_false, bind_assoc, ok_bind]
    rw [← h]
    cases d.type.hasArg <;> rfl
  | assigned name value =>
    obtain ⟨-, hvalue, -, d, hfind, harg⟩ := h
    refine hflag _ _ none _ hdash hmatch ?_
    simp only [Options.parseFlag, Options.parseLong, hfind, Item.settings, Options.set_cons,
      Options.addToOption_of_find hfind, ne_eq, hvalue, not_false_eq_true, if_true, harg, Bool.true_eq_false,
      if_false, bind_assoc]
    rfl

/-! ### Many items -/

theorem scan_items {items : List Item} {tail : List Text} : ∀ {o : Options}, ItemsOk o.find items tail →
    o.scan (renderAll items ++ tail) = (do
      let (o, kept) ← applyAll o items
      let s ← o.scan tail
      return { s with kept := kept ++ s.kept }) := by
  induction items with
  | nil =>
    intro o _
    simp only [renderAll, List.flatMap_nil, List.nil_append, applyAll, pure_eq_ok, ok_bind]
    cases o.scan tail <;> rfl
  | cons item items ih =>
    intro o h
    obtain ⟨hitem, hitems⟩ := h
    rw [renderAll, List.flatMap_cons, List.append_assoc, ← renderAll, scan_item hitem, applyAll]
    cases happly : item.apply o with
    | error e => rfl
    | ok r =>
      obtain ⟨o₁, kept⟩ := r
      simp only [ok_bind]
      rw [ih (Item.apply_find happly ▸ hitems)]
      cases applyAll o₁ items with
      | error e => rfl
      | ok r =>
        obtain ⟨o₂, kept'⟩ := r
        simp only [ok_bind, pure_eq_ok]
        cases o₂.scan tail with
        | error e => rfl
        | ok s => simp only [ok_bind, List.append_assoc]

theorem scan_tail (o : Options) (c : CommandLine) :
    o.scan c.tail = .ok { options := o, kept := [], remaining := c.remaining } := by
  unfold CommandLine.tail
  cases c.remaining with
  | none =>
    rw [Options.scan]
    rfl
  | some rest =>
    rw [Options.scan, if_pos rfl]
    rfl

/-- **`parse` reads a command line as what it is.** -/
theorem parse_render {o : Options} {c : CommandLine} (h : c.Ok o.find) (program : Text) :
    o.parse (program :: c.render) = (do
      let (o, kept) ← c.run o
      return (o, overwrite (program :: c.render) 1 kept, 1 + kept.length)) := by
  rw [Options.parse_eq_scan, CommandLine.render, scan_items h, CommandLine.run]
  cases applyAll o c.items with
  | error e => rfl
  | ok r =>
    obtain ⟨o₁, kept⟩ := r
    simp only [ok_bind, scan_tail, pure_eq_ok, List.append_nil]
    cases o₁.setDefaults with
    | error e => rfl
    | ok o₂ =>
      simp only [ok_bind]
      cases c.remaining with
      | none => rfl
      | some texts =>
        simp only
        cases o₂.consumeRemaining texts <;> rfl

/-! ### Malformed flags -/

namespace Options

variable {o : Options}

/-- The letters before the one that is malformed. -/
theorem parseShort_bundled {next : Option Text} {names more : Text} (hnames : ∀ c ∈ names, Bundled o.find c)
    (hmore : more ≠ []) {e : OptionException}
    (hbad : ∀ o' : Options, o'.find = o.find → o'.parseShort next more = .error e) :
    o.parseShort next (names ++ more) = (do
      let _ ← o.set (names.map fun c => ([c], []))
      .error e) := by
  induction names generalizing o with
  | nil => exact hbad o rfl
  | cons c names ih =>
    obtain ⟨d, hfind, hbundled⟩ := hnames c (by simp)
    have hrest : names ++ more ≠ [] := by simp [hmore]
    have hturn : o.parseShort next (c :: names ++ more) = (do
        let o ← o.parseOption d []
        o.parseShort next (names ++ more)) := by
      rw [List.cons_append, parseShort, hfind]
      simp only
      by_cases hdarg : d.type.hasArg = false
      · exact if_pos hdarg
      · exact (if_neg hdarg).trans ((if_neg hrest).trans (if_pos (hbundled.resolve_left hdarg)))
    rw [hturn, List.map_cons, set_cons, addToOption_of_find hfind, bind_assoc]
    cases h₁ : o.parseOption d [] with
    | error e => rfl
    | ok o₁ =>
      have hfind₁ := parseOption_find h₁
      exact ih (fun c' hc' => hfind₁ ▸ hnames c' (List.mem_cons_of_mem _ hc')) fun o' ho' =>
        hbad o' (ho'.trans hfind₁)

/-- **At a malformed flag the scan throws**, after the letters before it. -/
theorem scan_malformed {args : List Text} {settings : List (Text × Text)} {e : OptionException}
    (h : Malformed o.find args settings e) : o.scan args = (do
      let _ ← o.set settings
      .error e) := by
  have hflag : ∀ (text : Text) (rest : List Text) (flag : Flag), text ≠ ['-', '-'] → matchOption text = some flag →
      o.parseFlag rest.head? flag = (do
        let _ ← o.set settings
        .error e) →
      o.scan (text :: rest) = (do
        let _ ← o.set settings
        .error e) := by
    intro text rest flag hdash hmatch hparse
    rw [scan, if_neg hdash, hmatch]
    simp only [hparse]
    cases o.set settings <;> rfl
  have hshort : ∀ {names more : Text} {c : Char}, (∀ c' ∈ names ++ c :: more, c'.isAlphanum) →
      '-' :: (names ++ c :: more) ≠ ['-', '-'] := by
    intro names more c halnum heq
    have hmem : c ∈ names ++ c :: more := by simp
    have hdash := ne_dash_of_isAlphanum (halnum c hmem)
    rw [(List.cons.inj heq).2, List.mem_singleton] at hmem
    exact hdash hmem
  have hlong : ∀ {text name value : Text}, matchOption text = some (.long name value) → text ≠ ['-', '-'] := by
    rintro text name value hmatch rfl
    exact absurd hmatch (by simp [matchOption, isLongName])
  cases h with
  | @unknownLetter names more c rest halnum hbundled hnone =>
    refine hflag _ _ _ (hshort halnum) (matchOption_short (by simp) halnum)
      (parseShort_bundled hbundled (by simp) fun o' ho' => ?_)
    rw [parseShort, ho', hnone]
  | @notLast names more c rest d halnum hbundled hfind harg himplicit hmore =>
    refine hflag _ _ _ (hshort halnum) (matchOption_short (by simp) halnum)
      (parseShort_bundled hbundled (by simp) fun o' ho' => ?_)
    rw [parseShort, ho', hfind]
    simp only [harg, Bool.true_eq_false, if_false, if_neg hmore, himplicit, Bool.false_eq_true]
  | @nothingLeft names c d halnum hbundled hfind harg himplicit =>
    refine hflag _ _ _ (hshort halnum) (matchOption_short (by simp) halnum)
      (parseShort_bundled hbundled (by simp) fun o' ho' => ?_)
    rw [parseShort, ho', hfind]
    simp only [harg, Bool.true_eq_false, if_false, if_true, checkedParseArg, List.head?_nil, himplicit,
      Bool.false_eq_true]
  | @unknownName text name value rest hmatch hnone =>
    refine hflag _ _ _ (hlong hmatch) hmatch ?_
    simp only [parseFlag, parseLong, hnone]
    rfl
  | @noArgument text name value rest d hmatch hvalue hfind harg =>
    refine hflag _ _ _ (hlong hmatch) hmatch ?_
    simp only [parseFlag, parseLong, hfind, ne_eq, hvalue, not_false_eq_true, if_true, harg]
    rfl
  | @missing text name d hmatch hfind harg himplicit =>
    refine hflag _ _ _ (hlong hmatch) hmatch ?_
    simp only [parseFlag, parseLong, hfind, ne_eq, not_true_eq_false, if_false, harg, if_true, checkedParseArg,
      List.head?_nil, himplicit, Bool.false_eq_true]
    rfl

end Options

theorem parse_malformed {o : Options} {items : List Item} {rest : List Text} {settings : List (Text × Text)}
    {e : OptionException} (h : ItemsOk o.find items rest) (hbad : Malformed o.find rest settings e) (program : Text) :
    o.parse (program :: (renderAll items ++ rest)) = (do
      let (o, _) ← applyAll o items
      let _ ← o.set settings
      .error e) := by
  rw [Options.parse_eq_scan, scan_items h]
  cases happly : applyAll o items with
  | error e => rfl
  | ok r =>
    obtain ⟨o₁, kept⟩ := r
    have hfind := applyAll_find happly
    simp only [ok_bind, Options.scan_malformed (hfind ▸ hbad)]
    cases o₁.set settings <;> rfl

/-! ### There is no third case -/

section Split

variable {find : Text → Option OptionDetails}

/-- The letters of a flag: all but the last can stand where they stand, or one of them is not an option or takes an
argument that it does not have. -/
theorem letters_split {names : Text} (hne : names ≠ []) :
    (∃ init last d, names = init ++ [last] ∧ (∀ c ∈ init, Bundled find c) ∧ find [last] = some d) ∨
    ∃ init c more, names = init ++ c :: more ∧ (∀ c' ∈ init, Bundled find c') ∧
      (find [c] = none ∨ ∃ d, find [c] = some d ∧ d.type.hasArg ∧ d.hasImplicit = false ∧ more ≠ []) := by
  induction names with
  | nil => exact absurd rfl hne
  | cons c names ih =>
    cases hfind : find [c] with
    | none => exact .inr ⟨[], c, names, rfl, by simp, .inl hfind⟩
    | some d =>
      by_cases hlast : names = []
      · subst hlast
        exact .inl ⟨[], c, d, rfl, by simp, hfind⟩
      · by_cases hbundled : d.type.hasArg = false ∨ d.hasImplicit
        · have hc : ∀ {init : Text}, (∀ c' ∈ init, Bundled find c') → ∀ c' ∈ c :: init, Bundled find c' := by
            intro init hinit c' hc'
            rcases List.mem_cons.1 hc' with rfl | hc'
            · exact ⟨d, hfind, hbundled⟩
            · exact hinit c' hc'
          rcases ih hlast with ⟨init, last, d', rfl, hinit, hfind'⟩ | ⟨init, c', more, rfl, hinit, hbad⟩
          · exact .inl ⟨c :: init, last, d', rfl, hc hinit, hfind'⟩
          · exact .inr ⟨c :: init, c', more, rfl, hc hinit, hbad⟩
        · obtain ⟨harg, himplicit⟩ := not_or.1 hbundled
          exact .inr ⟨[], c, names, rfl, by simp, .inr ⟨d, hfind, by simpa using harg, by simpa using himplicit, hlast⟩⟩

/-- The option at the end of a flag has its argument, or it needs one and nothing is left. -/
theorem argument_split (d : OptionDetails) (rest : List Text) :
    (∃ arg rest', TakesArg d arg rest'.head? ∧ rest = arg.toList ++ rest') ∨
    rest = [] ∧ d.type.hasArg ∧ d.hasImplicit = false := by
  by_cases harg : d.type.hasArg = false
  · exact .inl ⟨none, rest, .inl harg, rfl⟩
  have harg : d.type.hasArg = true := by simpa using harg
  cases rest with
  | nil =>
    cases himplicit : d.hasImplicit with
    | true => exact .inl ⟨none, [], .inr ⟨himplicit, by simp⟩, rfl⟩
    | false => exact .inr ⟨rfl, harg, rfl⟩
  | cons a rest =>
    by_cases hdash : a.head? = some '-' ∧ d.hasImplicit
    · exact .inl ⟨none, a :: rest, .inr ⟨hdash.2, by simp [hdash.1]⟩, rfl⟩
    · exact .inl ⟨some a, rest, ⟨harg, hdash⟩, rfl⟩

/-- The first text belongs to an item, or it is malformed. -/
theorem item_or_malformed (find : Text → Option OptionDetails) {text : Text} (rest : List Text)
    (hdash : text ≠ ['-', '-']) :
    (∃ (item : Item) (rest' : List Text), item.Ok find rest'.head? ∧ text :: rest = item.render ++ rest') ∨
    ∃ settings e, Malformed find (text :: rest) settings e := by
  cases hmatch : matchOption text with
  | none => exact .inl ⟨.word text, rest, ⟨hdash, hmatch⟩, rfl⟩
  | some flag =>
    rcases matchOption_cases hmatch with ⟨names, rfl, hne, halnum, rfl⟩ | ⟨name, value, rfl, hname, htext⟩
    · rcases letters_split hne with ⟨init, last, d, rfl, hinit, hfind⟩ | ⟨init, c, more, rfl, hinit, hbad⟩
      · rcases argument_split d rest with ⟨arg, rest', harg, rfl⟩ | ⟨rfl, harg, himplicit⟩
        · exact .inl ⟨.short init last arg, rest', ⟨halnum, hinit, d, hfind, harg⟩, rfl⟩
        · exact .inr ⟨_, _, .nothingLeft halnum hinit hfind harg himplicit⟩
      · rcases hbad with hnone | ⟨d, hfind, harg, himplicit, hmore⟩
        · exact .inr ⟨_, _, .unknownLetter halnum hinit hnone⟩
        · exact .inr ⟨_, _, .notLast halnum hinit hfind harg himplicit hmore⟩
    · cases hfind : find name with
      | none => exact .inr ⟨_, _, .unknownName hmatch hfind⟩
      | some d =>
        by_cases hvalue : value = []
        · subst hvalue
          obtain ⟨sign, rfl⟩ : ∃ sign : Bool, text = '-' :: '-' :: (name ++ if sign then ['='] else []) := by
            rcases htext with ⟨-, rfl⟩ | ⟨-, rfl⟩
            · exact ⟨false, by simp⟩
            · exact ⟨true, rfl⟩
          rcases argument_split d rest with ⟨arg, rest', harg, rfl⟩ | ⟨rfl, harg, himplicit⟩
          · exact .inl ⟨.long name sign arg, rest', ⟨hname, d, hfind, harg⟩, rfl⟩
          · exact .inr ⟨_, _, .missing hmatch hfind harg himplicit⟩
        · obtain ⟨hdot, rfl⟩ := htext.resolve_left fun h => hvalue h.1
          cases harg : d.type.hasArg with
          | false => exact .inr ⟨_, _, .noArgument hmatch hvalue hfind harg⟩
          | true => exact .inl ⟨.assigned name value, rest, ⟨hname, hvalue, hdot, d, hfind, harg⟩, rfl⟩

theorem Item.render_ne_nil (item : Item) : item.render ≠ [] := by
  cases item <;> simp [Item.render]

/-- **Any texts are a command line, or one up to a malformed flag.** -/
theorem line_or_malformed (find : Text → Option OptionDetails) (args : List Text) :
    (∃ c : CommandLine, c.Ok find ∧ args = c.render) ∨
    ∃ items rest settings e, ItemsOk find items rest ∧ Malformed find rest settings e ∧
      args = renderAll items ++ rest := by
  induction hn : args.length using Nat.strongRecOn generalizing args with
  | ind n ih =>
    cases args with
    | nil => exact .inl ⟨⟨[], none⟩, trivial, rfl⟩
    | cons text rest =>
      by_cases hdash : text = ['-', '-']
      · exact .inl ⟨⟨[], some rest⟩, trivial, by rw [hdash]; rfl⟩
      rcases item_or_malformed find rest hdash with ⟨item, rest', hitem, heq⟩ | ⟨settings, e, hbad⟩
      · have hlt : rest'.length < n := by
          have hpos := List.length_pos_of_ne_nil item.render_ne_nil
          rw [← hn, heq, List.length_append]
          omega
        rw [heq]
        rcases ih _ hlt rest' rfl with ⟨c, hc, rfl⟩ | ⟨items, rest'', settings, e, hitems, hbad, rfl⟩
        · refine .inl ⟨⟨item :: c.items, c.remaining⟩, ⟨hitem, hc⟩, ?_⟩
          simp only [CommandLine.render, renderAll, List.flatMap_cons, List.append_assoc]
          rfl
        · refine .inr ⟨item :: items, rest'', settings, e, ⟨hitem, hitems⟩, hbad, ?_⟩
          simp only [renderAll, List.flatMap_cons, List.append_assoc]
      · exact .inr ⟨[], _, settings, e, trivial, hbad, rfl⟩

end Split

/-! ### One way to read it -/

section Unique

variable {find : Text → Option OptionDetails}

/-- Whether an option takes an argument is a matter of the texts. -/
theorem TakesArg.unique {d : OptionDetails} {arg arg' : Option Text} {rest rest' : List Text}
    (h : TakesArg d arg rest.head?) (h' : TakesArg d arg' rest'.head?)
    (heq : arg.toList ++ rest = arg'.toList ++ rest') : arg = arg' ∧ rest = rest' := by
  have hne : ∀ {a : Text} {rest : List Text}, TakesArg d (some a) rest.head? → ¬ TakesArg d none (some a) := by
    rintro a rest ⟨harg, hdash⟩ (hnone | ⟨himplicit, hnext⟩)
    · rw [harg] at hnone
      cases hnone
    · exact hdash ⟨hnext a rfl, himplicit⟩
  cases arg with
  | none =>
    cases arg' with
    | none => exact ⟨rfl, heq⟩
    | some a =>
      obtain rfl : rest = a :: rest' := heq
      exact absurd h (hne h')
  | some a =>
    cases arg' with
    | none =>
      obtain rfl : a :: rest = rest' := heq
      exact absurd h' (hne h)
    | some a' =>
      obtain ⟨rfl, rfl⟩ := List.cons.inj heq
      exact ⟨rfl, rfl⟩

theorem Item.Ok.unique {item item' : Item} {rest rest' : List Text} (h : item.Ok find rest.head?)
    (h' : item'.Ok find rest'.head?) (heq : item.render ++ rest = item'.render ++ rest') :
    item = item' ∧ rest = rest' := by
  rw [Item.render_eq, Item.render_eq, List.cons_append, List.cons_append] at heq
  obtain ⟨hfirst, hmore⟩ := List.cons.inj heq
  have hflag : item.flag = item'.flag := by rw [← h.first.2, ← h'.first.2, hfirst]
  cases item with
  | word text =>
    cases item' with
    | word text' =>
      obtain rfl : text = text' := hfirst
      exact ⟨rfl, hmore⟩
    | short _ _ _ | long _ _ _ | assigned _ _ => cases hflag
  | short names last arg =>
    cases item' with
    | word _ | long _ _ _ | assigned _ _ => cases hflag
    | short names' last' arg' =>
      obtain ⟨rfl, hlast⟩ := List.append_inj' (Flag.short.inj (Option.some.inj hflag)) rfl
      obtain rfl := List.singleton_inj.1 hlast
      obtain ⟨-, -, d, hfind, harg⟩ := h
      obtain ⟨-, -, d', hfind', harg'⟩ := h'
      obtain rfl := Option.some.inj (hfind.symm.trans hfind')
      obtain ⟨rfl, rfl⟩ := harg.unique harg' hmore
      exact ⟨rfl, rfl⟩
  | long name sign arg =>
    cases item' with
    | word _ | short _ _ _ => cases hflag
    | assigned name' value' =>
      obtain ⟨-, hvalue⟩ := Flag.long.inj (Option.some.inj hflag)
      exact absurd hvalue.symm h'.2.1
    | long name' sign' arg' =>
      obtain ⟨rfl, -⟩ := Flag.long.inj (Option.some.inj hflag)
      obtain ⟨-, d, hfind, harg⟩ := h
      obtain ⟨-, d', hfind', harg'⟩ := h'
      obtain rfl := Option.some.inj (hfind.symm.trans hfind')
      obtain ⟨rfl, rfl⟩ := harg.unique harg' hmore
      have hsign : sign = sign' := by
        cases sign <;> cases sign' <;> simp [Item.first] at hfirst ⊢
      exact ⟨by rw [hsign], rfl⟩
  | assigned name value =>
    cases item' with
    | word _ | short _ _ _ => cases hflag
    | long name' sign' arg' =>
      obtain ⟨-, hvalue⟩ := Flag.long.inj (Option.some.inj hflag)
      exact absurd hvalue h.2.1
    | assigned name' value' =>
      obtain ⟨rfl, rfl⟩ := Flag.long.inj (Option.some.inj hflag)
      exact ⟨rfl, hmore⟩

/-- A command line goes on with an item, or with its tail. -/
theorem tail_ne_item {c : CommandLine} {item : Item} {next : Option Text} {texts : List Text}
    (h : item.Ok find next) : c.tail ≠ item.render ++ texts := by
  intro heq
  rw [Item.render_eq, List.cons_append] at heq
  unfold CommandLine.tail at heq
  split at heq
  · cases heq
  · exact h.first.1 (List.cons.inj heq).1.symm

/-- **A command line can be read in one way only.** -/
theorem CommandLine.Ok.unique {c c' : CommandLine} (h : c.Ok find) (h' : c'.Ok find) (heq : c.render = c'.render) :
    c = c' := by
  have hitems : ∀ {items items' : List Item}, ItemsOk find items c.tail → ItemsOk find items' c'.tail →
      renderAll items ++ c.tail = renderAll items' ++ c'.tail → items = items' ∧ c.tail = c'.tail := by
    intro items
    induction items with
    | nil =>
      intro items' h h' heq
      cases items' with
      | nil => exact ⟨rfl, heq⟩
      | cons item' items' =>
        rw [renderAll, renderAll, List.flatMap_nil, List.nil_append, List.flatMap_cons, List.append_assoc] at heq
        exact absurd heq (tail_ne_item h'.1)
    | cons item items ih =>
      intro items' h h' heq
      cases items' with
      | nil =>
        rw [renderAll, renderAll, List.flatMap_nil, List.nil_append, List.flatMap_cons, List.append_assoc] at heq
        exact absurd heq.symm (tail_ne_item h.1)
      | cons item' items' =>
        rw [renderAll, renderAll, List.flatMap_cons, List.flatMap_cons, List.append_assoc, List.append_assoc] at heq
        obtain ⟨rfl, hrest⟩ := h.1.unique h'.1 heq
        obtain ⟨rfl, htail⟩ := ih h.2 h'.2 hrest
        exact ⟨rfl, htail⟩
  obtain ⟨heq, htail⟩ := hitems h h' heq
  obtain ⟨items, remaining⟩ := c
  obtain ⟨items', remaining'⟩ := c'
  obtain rfl : items = items' := heq
  cases remaining with
  | none =>
    cases remaining' with
    | none => rfl
    | some rest' => cases htail
  | some rest =>
    cases remaining' with
    | none => cases htail
    | some rest' =>
      obtain rfl := (List.cons.inj htail).2
      rfl

end Unique

/-! ### What is accepted, and what is thrown -/

section Parse

variable {o o' : Options} {program : Text} {args argv' : List Text} {argc' : ℕ} {e : OptionException}

/-- Writing behind the name of the program. -/
theorem overwrite_args (program : Text) (args kept : List Text) :
    overwrite (program :: args) 1 kept = program :: (kept ++ args.drop kept.length) := by
  rw [overwrite, Nat.add_comm, List.drop_succ_cons]
  rfl

/-- **What is accepted.**  For all options and all texts: `parse` returns exactly for the command lines whose values can
be read, and then it leaves the options as the items, the defaults and the texts behind `--` make them, one after the
other, and in `argv` the name of the program and what no option takes, with their number in `argc`. -/
theorem parse_ok_iff : o.parse (program :: args) = .ok (o', argv', argc') ↔
    ∃ (c : CommandLine) (kept : List Text), c.Ok o.find ∧ args = c.render ∧ c.run o = .ok (o', kept) ∧
      argv' = program :: (kept ++ args.drop kept.length) ∧ argc' = 1 + kept.length := by
  constructor
  · intro h
    rcases line_or_malformed o.find args with ⟨c, hc, rfl⟩ | ⟨items, rest, settings, e, hitems, hbad, rfl⟩
    · rw [parse_render hc] at h
      obtain ⟨⟨o₁, kept⟩, hrun, h⟩ := bind_eq_ok.1 h
      cases h
      exact ⟨c, kept, hc, rfl, hrun, overwrite_args .., rfl⟩
    · rw [parse_malformed hitems hbad] at h
      obtain ⟨⟨o₁, kept⟩, -, h⟩ := bind_eq_ok.1 h
      obtain ⟨o₂, -, h⟩ := bind_eq_ok.1 h
      cases h
  · rintro ⟨c, kept, hc, rfl, hrun, rfl, rfl⟩
    rw [parse_render hc, hrun, ← overwrite_args]
    rfl

/-- **What is thrown.**  For all options and all texts: `parse` throws what reading a value of a command line throws,
or, after the items before a malformed flag and the letters before the place where it is malformed, what the flag is:
not an option, without its argument, or with one that it does not take. -/
theorem parse_error_iff : o.parse (program :: args) = .error e ↔
    (∃ c : CommandLine, c.Ok o.find ∧ args = c.render ∧ c.run o = .error e) ∨
    ∃ items rest settings e', ItemsOk o.find items rest ∧ Malformed o.find rest settings e' ∧
      args = renderAll items ++ rest ∧
      (applyAll o items = .error e ∨ ∃ o₁ kept, applyAll o items = .ok (o₁, kept) ∧
        (o₁.set settings = .error e ∨ (∃ o₂, o₁.set settings = .ok o₂) ∧ e' = e)) := by
  constructor
  · intro h
    rcases line_or_malformed o.find args with ⟨c, hc, rfl⟩ | ⟨items, rest, settings, e', hitems, hbad, rfl⟩
    · rw [parse_render hc] at h
      rcases bind_eq_error.1 h with hrun | ⟨r, -, h⟩
      · exact .inl ⟨c, hc, rfl, hrun⟩
      · cases h
    · refine .inr ⟨items, rest, settings, e', hitems, hbad, rfl, ?_⟩
      rw [parse_malformed hitems hbad] at h
      rcases bind_eq_error.1 h with happly | ⟨⟨o₁, kept⟩, happly, h⟩
      · exact .inl happly
      · refine .inr ⟨o₁, kept, happly, ?_⟩
        rcases bind_eq_error.1 h with hset | ⟨o₂, hset, h⟩
        · exact .inl hset
        · exact .inr ⟨⟨o₂, hset⟩, Except.error.inj h⟩
  · rintro (⟨c, hc, rfl, hrun⟩ | ⟨items, rest, settings, e', hitems, hbad, rfl, h⟩)
    · rw [parse_render hc, hrun]
      rfl
    · rw [parse_malformed hitems hbad]
      rcases h with happly | ⟨o₁, kept, happly, hset | ⟨⟨o₂, hset⟩, rfl⟩⟩
      · rw [happly]
        rfl
      · rw [happly]
        simp only [ok_bind, hset]
        rfl
      · rw [happly]
        simp only [ok_bind, hset]

end Parse

end Shadowc.Cxxopts
