import Shadowc.Cxxopts.Grammar
import Shadowc.Lib.Cells

/-!
# What a command line does to the options

Which option is given which text does not depend on what the texts say: `planAll` hands them out, and knows of the
options only how often each has been set.  `parse` reads a command line as its plan says (`applyAll_eq`, `run_eq`), and
each option reads its own texts (`parse_render_iff`).
-/

namespace Shadowc.Cxxopts

open Lib Throwing Cells

/-! ### Who is given what -/

/-- The positional option that takes the next text, and the names that are left; `count` is how often an option has been
set. -/
def taker (find : Text → Option OptionDetails) (count : OptionDetails → ℕ) :
    List Text → Option (OptionDetails × List Text)
  | [] => none
  | name :: rest =>
    match find name with
    | some d =>
      if d.type.isContainer then some (d, name :: rest)
      else if count d = 0 then some (d, rest)
      else taker find count rest
    | none => taker find count rest

/-- What the options are given, which texts no option takes, and the positional names that are left. -/
structure Plan where
  given : List (OptionDetails × Text)
  kept : List Text
  positional : List Text

/-- How often the options have been set when they have been given more. -/
def counted (count : OptionDetails → ℕ) (given : List (OptionDetails × Text)) : OptionDetails → ℕ :=
  fun d => count d + (inputsFor given d).length

section Plan

variable (find : Text → Option OptionDetails)

/-- Settings of options that are there. -/
def given (settings : List (Text × Text)) : List (OptionDetails × Text) :=
  settings.filterMap fun p => (find p.1).map fun d => (d, p.2)

/-- What becomes of the texts of an item. -/
def Item.plan (positional : List Text) (count : OptionDetails → ℕ) : Item → Plan
  | word text =>
    match taker find count positional with
    | some (d, names) => { given := [(d, text)], kept := [], positional := names }
    | none => { given := [], kept := [text], positional := [] }
  | item => { given := given find item.settings, kept := [], positional }

/-- The items hand out their texts one after the other. -/
def planAll (positional : List Text) (count : OptionDetails → ℕ) : List Item → Plan
  | [] => { given := [], kept := [], positional }
  | item :: items =>
    let p := item.plan find positional count
    let q := planAll p.positional (counted count p.given) items
    { given := p.given ++ q.given, kept := p.kept ++ q.kept, positional := q.positional }

end Plan

/-! ### Cells -/

namespace OptionDetails

/-- `OptionDetails::parse` -/
def read (d : OptionDetails) (cell : Cell d.type) (text : Text) : Except OptionException (Cell d.type) := do
  let value ← parseValue d.type (d.textFor text) cell.value
  return { value, count := cell.count + 1 }

/-- What one turn of the loop over `m_options` does. -/
def readDefault (d : OptionDetails) (cell : Cell d.type) (_ : Unit) : Except OptionException (Cell d.type) :=
  match d.defaultValue with
  | some text => if cell.count = 0 then do
      let value ← parseValue d.type text cell.value
      return { value, count := cell.count }
    else .ok cell
  | none => .ok cell

theorem read_count {d : OptionDetails} {cell cell' : Cell d.type} {text : Text} (h : d.read cell text = .ok cell') :
    cell'.count = cell.count + 1 := by
  obtain ⟨value, -, h⟩ := bind_eq_ok.1 h
  cases h
  rfl

theorem reads_count {d : OptionDetails} {texts : List Text} : ∀ {cell cell' : Cell d.type},
    texts.foldlM d.read cell = .ok cell' → cell'.count = cell.count + texts.length := by
  induction texts with
  | nil =>
    intro cell cell' h
    cases h
    rfl
  | cons text texts ih =>
    intro cell cell' h
    rw [List.foldlM_cons] at h
    obtain ⟨cell₁, h₁, h⟩ := bind_eq_ok.1 h
    rw [ih h, read_count h₁, List.length_cons]
    omega

end OptionDetails

namespace Options

variable {o : Options} {d : OptionDetails} {text : Text}

/-- How often each option has been set. -/
def counts (o : Options) : OptionDetails → ℕ := fun d => (o.cell d).count

theorem counts_writes {given : List (OptionDetails × Text)} {cell : (d : OptionDetails) → Cell d.type}
    (h : writes OptionDetails.read o.cell given = .ok cell) :
    (fun d => (cell d).count) = counted o.counts given :=
  funext fun d => OptionDetails.reads_count ((writes_eq_ok_iff _).1 h d)

/-- One option is given one text. -/
theorem parseOption_eq : o.parseOption d text = (do
    let cell ← writes OptionDetails.read o.cell [(d, text)]
    return { o with cell }) := by
  rw [parseOption, writes, List.foldlM_cons, OptionDetails.read]
  cases parseValue d.type (d.textFor text) (o.cell d).value <;> rfl

theorem consumeFrom_eq {names : List Text} : o.consumeFrom text names =
    match taker o.find o.counts names with
    | some (d, names') => (do
      let cell ← writes OptionDetails.read o.cell [(d, text)]
      return ({ o with cell, positional := names' }, true))
    | none => .ok ({ o with positional := [] }, false) := by
  induction names with
  | nil => rfl
  | cons name names ih =>
    rw [consumeFrom, taker]
    cases hfind : o.find name with
    | none => exact ih
    | some d =>
      have hadd : o.addToOption name text = o.parseOption d text := addToOption_of_find hfind
      by_cases hcontainer : d.type.isContainer = false
      · by_cases hcount : (o.cell d).count = 0
        · have hcounts : o.counts d = 0 := hcount
          simp only [hcontainer, hcount, hcounts, if_true, Bool.false_eq_true, if_false, hadd, parseOption_eq]
          cases writes OptionDetails.read o.cell [(d, text)] <;> rfl
        · have hcounts : o.counts d ≠ 0 := hcount
          simp only [hcontainer, hcount, hcounts, if_true, Bool.false_eq_true, if_false]
          exact ih
      · have hcontainer' : d.type.isContainer = true := by simpa using hcontainer
        simp only [hcontainer', Bool.true_eq_false, if_true, if_false, hadd, parseOption_eq]
        cases writes OptionDetails.read o.cell [(d, text)] <;> rfl

/-- Options that are there are set. -/
theorem set_eq {settings : List (Text × Text)} (h : ∀ p ∈ settings, (o.find p.1).isSome) : o.set settings = (do
    let cell ← writes OptionDetails.read o.cell (given o.find settings)
    return { o with cell }) := by
  induction settings generalizing o with
  | nil => rfl
  | cons p settings ih =>
    obtain ⟨d, hd⟩ := Option.isSome_iff_exists.1 (h p (by simp))
    have hgiven : given o.find (p :: settings) = [(d, p.2)] ++ given o.find settings := by
      simp [given, hd]
    rw [set_cons, addToOption_of_find hd, hgiven, writes_append, parseOption_eq]
    cases writes OptionDetails.read o.cell [(d, p.2)] with
    | error e => rfl
    | ok cell => exact ih (o := { o with cell }) fun q hq => h q (List.mem_cons_of_mem _ hq)

end Options

/-! ### The plan is what happens -/

/-- The options that an item names are there. -/
theorem Item.Ok.isSome {find : Text → Option OptionDetails} {next : Option Text} {item : Item} (h : item.Ok find next) :
    ∀ p ∈ item.settings, (find p.1).isSome := by
  intro p hp
  cases item with
  | word text => cases hp
  | short names last arg =>
    obtain ⟨-, hbundled, d, hlast, -⟩ := h
    rcases List.mem_append.1 hp with hp | hp
    · obtain ⟨c, hc, rfl⟩ := List.mem_map.1 hp
      obtain ⟨d', hd', -⟩ := hbundled c hc
      exact Option.isSome_iff_exists.2 ⟨d', hd'⟩
    · obtain rfl := List.mem_singleton.1 hp
      exact Option.isSome_iff_exists.2 ⟨d, hlast⟩
  | long name sign arg =>
    obtain ⟨-, d, hfind, -⟩ := h
    obtain rfl := List.mem_singleton.1 hp
    exact Option.isSome_iff_exists.2 ⟨d, hfind⟩
  | assigned name value =>
    obtain ⟨-, -, -, d, hfind, -⟩ := h
    obtain rfl := List.mem_singleton.1 hp
    exact Option.isSome_iff_exists.2 ⟨d, hfind⟩

theorem consumePositional_eq (o : Options) (text : Text) :
    (do
      let (o, taken) ← o.consumePositional text
      return (o, if taken then [] else [text])) = (do
      let p := (Item.word text).plan o.find o.positional o.counts
      let cell ← writes OptionDetails.read o.cell p.given
      return ({ o with cell, positional := p.positional }, p.kept)) := by
  rw [Options.consumePositional, Options.consumeFrom_eq, Item.plan]
  cases taker o.find o.counts o.positional with
  | none => rfl
  | some r =>
    obtain ⟨d, names⟩ := r
    simp only
    cases writes OptionDetails.read o.cell [(d, text)] <;> rfl

theorem ItemsOk.isSome {find : Text → Option OptionDetails} {items : List Item} {tail : List Text}
    (h : ItemsOk find items tail) : ∀ item ∈ items, ∀ p ∈ item.settings, (find p.1).isSome := by
  induction items with
  | nil => simp
  | cons item items ih =>
    intro item' hitem'
    rcases List.mem_cons.1 hitem' with rfl | hitem'
    · exact h.1.isSome
    · exact ih h.2 item' hitem'

theorem Item.apply_eq {o : Options} {item : Item} (h : ∀ p ∈ item.settings, (o.find p.1).isSome) :
    item.apply o = (do
      let p := item.plan o.find o.positional o.counts
      let cell ← writes OptionDetails.read o.cell p.given
      return ({ o with cell, positional := p.positional }, p.kept)) := by
  have hset := Options.set_eq h
  cases item with
  | word text => exact consumePositional_eq o text
  | short names last arg | long name sign arg | assigned name value =>
    simp only [Item.apply, hset, Item.plan]
    cases writes OptionDetails.read o.cell (given o.find _) <;> rfl

/-- **Items do what their plan says.** -/
theorem applyAll_eq {items : List Item} : ∀ {o : Options},
    (∀ item ∈ items, ∀ p ∈ item.settings, (o.find p.1).isSome) →
    applyAll o items = (do
      let p := planAll o.find o.positional o.counts items
      let cell ← writes OptionDetails.read o.cell p.given
      return ({ o with cell, positional := p.positional }, p.kept)) := by
  induction items with
  | nil =>
    intro o _
    rfl
  | cons item items ih =>
    intro o h
    have hitem := h item (by simp)
    have hitems : ∀ item ∈ items, ∀ p ∈ item.settings, (o.find p.1).isSome := fun item' hitem' =>
      h item' (List.mem_cons_of_mem _ hitem')
    rw [applyAll, Item.apply_eq hitem, planAll]
    simp only [writes_append]
    cases hcell : writes OptionDetails.read o.cell (item.plan o.find o.positional o.counts).given with
    | error e => rfl
    | ok cell =>
      have hrest : applyAll { o with cell, positional := (item.plan o.find o.positional o.counts).positional } items =
          (do
            let q := planAll o.find (item.plan o.find o.positional o.counts).positional
              (counted o.counts (item.plan o.find o.positional o.counts).given) items
            let cell ← writes OptionDetails.read cell q.given
            return ({ o with cell, positional := q.positional }, q.kept)) := by
        rw [← Options.counts_writes hcell]
        exact ih hitems
      simp only [ok_bind, pure_eq_ok, hrest]
      cases writes OptionDetails.read cell _ <;> rfl

namespace Options

variable {o : Options}

/-- Each option reads its default once for each of its names. -/
theorem setDefaults_eq (o : Options) : o.setDefaults = (do
    let cell ← writes OptionDetails.readDefault o.cell (o.options.map fun p => (p.2, ()))
    return { o with cell }) := by
  have hall : ∀ (l : List (Text × OptionDetails)) (o : Options), l.foldlM (fun o p =>
      match p.2.defaultValue with
      | some text => if (o.cell p.2).count = 0 then o.parseDefault p.2 text else .ok o
      | none => .ok o) o = (do
        let cell ← writes OptionDetails.readDefault o.cell (l.map fun p => (p.2, ()))
        return { o with cell }) := by
    intro l
    induction l with
    | nil => exact fun _ => rfl
    | cons p l ih =>
      intro o
      rw [List.foldlM_cons, List.map_cons, ← List.singleton_append, writes_append]
      have hone : (match p.2.defaultValue with
          | some text => if (o.cell p.2).count = 0 then o.parseDefault p.2 text else .ok o
          | none => .ok o) = (do
            let cell ← writes OptionDetails.readDefault o.cell [(p.2, ())]
            return { o with cell }) := by
        rw [writes, List.foldlM_cons, OptionDetails.readDefault]
        cases p.2.defaultValue with
        | none => simp
        | some text =>
          by_cases hcount : (o.cell p.2).count = 0
          · simp only [hcount, if_true, parseDefault]
            cases parseValue p.2.type text (o.cell p.2).value <;> rfl
          · simp [hcount]
      rw [hone]
      cases writes OptionDetails.readDefault o.cell [(p.2, ())] with
      | error e => rfl
      | ok cell => exact ih { o with cell }
  exact hall o.options o

theorem consumeRemaining_eq_applyAll (texts : List Text) : ∀ o : Options, o.consumeRemaining texts = (do
    let (o, _) ← applyAll o (texts.map .word)
    return o) := by
  induction texts with
  | nil => exact fun _ => rfl
  | cons text texts ih =>
    intro o
    rw [consumeRemaining, List.foldlM_cons, List.map_cons, applyAll, Item.apply]
    cases o.consumePositional text with
    | error e => rfl
    | ok r =>
      obtain ⟨o₁, taken⟩ := r
      have hrest := ih o₁
      rw [consumeRemaining] at hrest
      simp only [ok_bind, pure_eq_ok] at hrest ⊢
      rw [hrest]
      cases applyAll o₁ (texts.map .word) <;> rfl

theorem consumeRemaining_eq (o : Options) (texts : List Text) : o.consumeRemaining texts = (do
    let p := planAll o.find o.positional o.counts (texts.map .word)
    let cell ← writes OptionDetails.read o.cell p.given
    return { o with cell, positional := p.positional }) := by
  have hwords : ∀ item ∈ texts.map Item.word, ∀ p ∈ item.settings, (o.find p.1).isSome := by
    intro item hitem
    obtain ⟨text, -, rfl⟩ := List.mem_map.1 hitem
    simp [Item.settings]
  rw [consumeRemaining_eq_applyAll, applyAll_eq hwords]
  dsimp only
  cases writes OptionDetails.read o.cell (planAll o.find o.positional o.counts (texts.map .word)).given <;> rfl

end Options

/-! ### A whole command line -/

namespace CommandLine

/-- What the options are given before the `--`. -/
def plan (c : CommandLine) (o : Options) : Plan := planAll o.find o.positional o.counts c.items

/-- What they are given behind it, after the defaults. -/
def remainingPlan (c : CommandLine) (o : Options) : Plan :=
  planAll o.find (c.plan o).positional (counted o.counts (c.plan o).given) ((c.remaining.getD []).map .word)

end CommandLine

theorem OptionDetails.readDefault_count {d : OptionDetails} {cell cell' : Cell d.type} {u : Unit}
    (h : d.readDefault cell u = .ok cell') : cell'.count = cell.count := by
  unfold readDefault at h
  split at h
  · split at h
    · obtain ⟨value, -, h⟩ := bind_eq_ok.1 h
      cases h
      rfl
    · cases h
      rfl
  · cases h
    rfl

theorem Options.counts_writes_default {l : List (OptionDetails × Unit)} {cell cell' : (d : OptionDetails) → Cell d.type}
    (h : writes OptionDetails.readDefault cell l = .ok cell') : (fun d => (cell' d).count) = fun d => (cell d).count :=
  funext fun d => foldlM_induction (P := fun c : Cell d.type => c.count = (cell d).count)
    (fun _ _ _ _ hs h => (OptionDetails.readDefault_count h).trans hs) rfl ((writes_eq_ok_iff _).1 h d)

/-- **What a command line comes to**: each option reads the texts that it is given, its default once for each of its
names, and what it is given behind the `--`. -/
theorem CommandLine.run_eq {c : CommandLine} {o : Options} (h : c.Ok o.find) : c.run o = (do
    let cell ← writes OptionDetails.read o.cell (c.plan o).given
    let cell ← writes OptionDetails.readDefault cell (o.options.map fun p => (p.2, ()))
    let cell ← writes OptionDetails.read cell (c.remainingPlan o).given
    return ({ o with cell, positional := (c.remainingPlan o).positional }, (c.plan o).kept)) := by
  rw [run, applyAll_eq h.isSome]
  dsimp only
  rw [← plan]
  cases hcell : writes OptionDetails.read o.cell (c.plan o).given with
  | error e => rfl
  | ok cell =>
    simp only [ok_bind, pure_eq_ok, Options.setDefaults_eq]
    cases hdefault : writes OptionDetails.readDefault cell (o.options.map fun p => (p.2, ())) with
    | error e => rfl
    | ok cell' =>
      simp only [ok_bind]
      have hcounts := (Options.counts_writes_default hdefault).trans (Options.counts_writes hcell)
      cases hrem : c.remaining with
      | none =>
        simp only [remainingPlan, hrem, Option.getD_none, List.map_nil, planAll, writes_nil, ok_bind]
      | some texts =>
        have hplan : planAll o.find (c.plan o).positional (fun d => (cell' d).count) (texts.map .word) =
            c.remainingPlan o := by
          rw [hcounts, remainingPlan, hrem]
          rfl
        have hrest : Options.consumeRemaining { o with cell := cell', positional := (c.plan o).positional } texts = (do
            let cell ← writes OptionDetails.read cell' (c.remainingPlan o).given
            return { o with cell, positional := (c.remainingPlan o).positional }) := by
          rw [← hplan]
          exact Options.consumeRemaining_eq _ texts
        simp only [hrest]
        cases writes OptionDetails.read cell' (c.remainingPlan o).given <;> rfl

/-! ### What an option becomes -/

/-- A value that has been read, and what was there: a list grows, anything else is replaced. -/
def Ty.join : (type : Ty) → type.Val → type.Val → type.Val
  | vector elem => fun (old new : List elem.Val) => (old ++ new : List elem.Val)
  | string | int | bool => fun _ new => new

theorem parseValue_eq_join (type : Ty) (text : Text) (old : type.Val) : parseValue type text old = (do
    let v ← parseValue type text type.zero
    return type.join old v) := by
  cases type with
  | vector elem =>
    simp only [parseValue]
    cases parseValue elem text elem.zero <;> rfl
  | string => rfl
  | bool => rfl
  | int =>
    simp only [parseValue]
    cases parseInt text <;> rfl

namespace OptionDetails

/-- What a text says that the option is given. -/
def valueOf (d : OptionDetails) (text : Text) : Except OptionException d.type.Val :=
  parseValue d.type (d.textFor text) d.type.zero

/-- The default, once for each name, of an option that has not been set. -/
def defaults (d : OptionDetails) (names count : ℕ) : List Text :=
  if count = 0 then d.defaultValue.elim [] (List.replicate names) else []

/-- What becomes of an option: it reads what it is given before the `--`, its default, and what it is given behind. -/
def final (d : OptionDetails) (names : ℕ) (before behind : List Text) (old : Cell d.type) :
    Except OptionException (Cell d.type) := do
  let vs ← before.mapM d.valueOf
  let ds ← (d.defaults names (old.count + before.length)).mapM fun text => parseValue d.type text d.type.zero
  let ws ← behind.mapM d.valueOf
  return { value := (vs ++ ds ++ ws).foldl d.type.join old.value, count := old.count + before.length + behind.length }

theorem read_eq (d : OptionDetails) (cell : Cell d.type) (text : Text) : d.read cell text = (do
    let v ← d.valueOf text
    return ({ value := d.type.join cell.value v, count := cell.count + 1 } : Cell d.type)) := by
  rw [read, parseValue_eq_join, valueOf]
  cases parseValue d.type (d.textFor text) d.type.zero <;> rfl

theorem foldl_join {d : OptionDetails} (vs : List d.type.Val) : ∀ cell : Cell d.type,
    vs.foldl (fun c v => ({ value := d.type.join c.value v, count := c.count + 1 } : Cell d.type)) cell =
      { value := vs.foldl d.type.join cell.value, count := cell.count + vs.length } := by
  induction vs with
  | nil => exact fun _ => rfl
  | cons v vs ih =>
    intro cell
    rw [List.foldl_cons, ih, List.foldl_cons, List.length_cons]
    simp only [Nat.add_assoc, Nat.add_comm 1]

/-- All texts are read, and then joined. -/
theorem reads_eq {d : OptionDetails} (texts : List Text) (cell : Cell d.type) : texts.foldlM d.read cell = (do
    let vs ← texts.mapM d.valueOf
    return { value := vs.foldl d.type.join cell.value, count := cell.count + texts.length }) := by
  rw [funext fun c => funext fun text => d.read_eq c text, foldlM_join]
  cases hvs : texts.mapM d.valueOf with
  | error e => rfl
  | ok vs => simp only [ok_bind, pure_eq_ok, foldl_join, length_mapM hvs]

theorem readDefaults_eq {d : OptionDetails} (names : ℕ) (cell : Cell d.type) :
    (List.replicate names ()).foldlM d.readDefault cell = (do
      let ds ← (d.defaults names cell.count).mapM fun text => parseValue d.type text d.type.zero
      return { cell with value := ds.foldl d.type.join cell.value }) := by
  induction names generalizing cell with
  | zero =>
    have hnone : d.defaults 0 cell.count = [] := by
      unfold defaults
      cases d.defaultValue <;> simp
    rw [hnone]
    rfl
  | succ names ih =>
    rw [List.replicate_succ, List.foldlM_cons]
    cases hdefault : d.defaultValue with
    | none =>
      have hnone : ∀ n, d.defaults n cell.count = [] := by simp [defaults, hdefault]
      have hstep : d.readDefault cell () = .ok cell := by rw [readDefault, hdefault]
      rw [hstep, ok_bind, ih, hnone, hnone]
    | some text =>
      by_cases hcount : cell.count = 0
      · have hsome : ∀ n, d.defaults n cell.count = List.replicate n text := by simp [defaults, hdefault, hcount]
        have hstep : d.readDefault cell () = (do
            let v ← parseValue d.type text d.type.zero
            return { cell with value := d.type.join cell.value v }) := by
          rw [readDefault, hdefault]
          simp only [hcount, if_true]
          rw [parseValue_eq_join]
          cases parseValue d.type text d.type.zero <;> rfl
        rw [hstep, hsome, List.replicate_succ, List.mapM_cons]
        cases hv : parseValue d.type text d.type.zero with
        | error e => rfl
        | ok v =>
          simp only [ok_bind, pure_eq_ok, ih, hsome]
          cases (List.replicate names text).mapM fun text => parseValue d.type text d.type.zero <;> rfl
      · have hset : ∀ n, d.defaults n cell.count = [] := by simp [defaults, hcount]
        have hstep : d.readDefault cell () = .ok cell := by
          rw [readDefault, hdefault]
          exact if_neg hcount
        rw [hstep, ok_bind, ih, hset, hset]

/-- **What becomes of an option** is what its texts make of it, one after the other. -/
theorem final_eq (d : OptionDetails) (names : ℕ) (before behind : List Text) (old : Cell d.type) :
    d.final names before behind old = (do
      let cell ← before.foldlM d.read old
      let cell ← (List.replicate names ()).foldlM d.readDefault cell
      behind.foldlM d.read cell) := by
  simp only [reads_eq, final]
  cases before.mapM d.valueOf with
  | error e => rfl
  | ok vs =>
    simp only [ok_bind, pure_eq_ok, readDefaults_eq]
    cases (d.defaults names (old.count + before.length)).mapM fun text => parseValue d.type text d.type.zero with
    | error e => rfl
    | ok ds =>
      simp only [ok_bind]
      cases behind.mapM d.valueOf with
      | error e => rfl
      | ok ws => simp only [ok_bind, List.foldl_append]

end OptionDetails

namespace Options

/-- How many names an option has. -/
def nameCount (o : Options) (d : OptionDetails) : ℕ := o.options.countP fun p => p.2 = d

theorem inputsFor_names (o : Options) (d : OptionDetails) :
    inputsFor (o.options.map fun p => (p.2, ())) d = List.replicate (o.nameCount d) () := by
  rw [nameCount]
  induction o.options with
  | nil => rfl
  | cons p l ih =>
    rw [List.map_cons]
    by_cases hp : p.2 = d
    · rw [hp, inputsFor_cons_self, ih, List.countP_cons_of_pos (by simp [hp]), List.replicate_succ]
    · rw [inputsFor_cons_of_ne hp, ih, List.countP_cons_of_neg (by simp [hp])]

end Options

/-- **Each option is for itself.**  A command line is accepted when each option can read its own texts, and each option
becomes what its own texts make of it. -/
theorem CommandLine.run_ok_iff {c : CommandLine} {o o' : Options} {kept : List Text} (h : c.Ok o.find) :
    c.run o = .ok (o', kept) ↔ kept = (c.plan o).kept ∧ o'.options = o.options ∧ o'.made = o.made ∧
      o'.positional = (c.remainingPlan o).positional ∧
      ∀ d : OptionDetails, d.final (o.nameCount d) (inputsFor (c.plan o).given d)
        (inputsFor (c.remainingPlan o).given d) (o.cell d) = .ok (o'.cell d) := by
  rw [run_eq h]
  constructor
  · intro hrun
    obtain ⟨cell₁, h₁, hrun⟩ := bind_eq_ok.1 hrun
    obtain ⟨cell₂, h₂, hrun⟩ := bind_eq_ok.1 hrun
    obtain ⟨cell₃, h₃, hrun⟩ := bind_eq_ok.1 hrun
    cases hrun
    refine ⟨rfl, rfl, rfl, rfl, fun d => ?_⟩
    have hd₁ := (writes_eq_ok_iff _).1 h₁ d
    have hd₂ := (writes_eq_ok_iff _).1 h₂ d
    have hd₃ := (writes_eq_ok_iff _).1 h₃ d
    rw [Options.inputsFor_names] at hd₂
    rw [OptionDetails.final_eq]
    exact bind_eq_ok.2 ⟨_, hd₁, bind_eq_ok.2 ⟨_, hd₂, hd₃⟩⟩
  · rintro ⟨rfl, hoptions, hmade, hpositional, hcells⟩
    have hsplit : ∀ d : OptionDetails, ∃ cell₁ cell₂ : Cell d.type,
        (inputsFor (c.plan o).given d).foldlM d.read (o.cell d) = .ok cell₁ ∧
        (List.replicate (o.nameCount d) ()).foldlM d.readDefault cell₁ = .ok cell₂ ∧
        (inputsFor (c.remainingPlan o).given d).foldlM d.read cell₂ = .ok (o'.cell d) := by
      intro d
      have hd := hcells d
      rw [OptionDetails.final_eq] at hd
      obtain ⟨cell₁, h₁, hd⟩ := bind_eq_ok.1 hd
      obtain ⟨cell₂, h₂, h₃⟩ := bind_eq_ok.1 hd
      exact ⟨cell₁, cell₂, h₁, h₂, h₃⟩
    choose cell₁ cell₂ h₁ h₂ h₃ using hsplit
    refine bind_eq_ok.2 ⟨cell₁, (writes_eq_ok_iff _).2 h₁, bind_eq_ok.2 ⟨cell₂, (writes_eq_ok_iff _).2 fun d => ?_,
      bind_eq_ok.2 ⟨o'.cell, (writes_eq_ok_iff _).2 h₃, ?_⟩⟩⟩
    · rw [Options.inputsFor_names]
      exact h₂ d
    · rw [← hpositional, ← hoptions, ← hmade]
      rfl

end Shadowc.Cxxopts
