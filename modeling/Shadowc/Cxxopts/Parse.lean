import Shadowc.Cxxopts.Options
import Shadowc.Lib.Overwrite

/-!
# `Options::parse`

The loop over `argv` reads flags with their arguments, gives other texts to the positional options, and moves what no
option takes to the front of `argv`, whose entries it overwrites while it reads them.  After it come the defaults, and
the texts behind `--`.

`scan` does on a list what the loop does in place: `parseLoop_eq_scan`.  The entries that the loop overwrites are those
that it has read.
-/

namespace Shadowc.Cxxopts

open Lib Throwing

namespace OptionDetails

def hasImplicit (d : OptionDetails) : Bool := d.implicitValue.isSome

/-- The text that `standard_value::parse(text)` reads. -/
def textFor (d : OptionDetails) (text : Text) : Text :=
  match d.implicitValue with
  | some implicit => if text = [] then implicit else text
  | none => text

end OptionDetails

namespace Options

/-- `parse_option`, which calls `OptionDetails::parse`. -/
def parseOption (o : Options) (d : OptionDetails) (text : Text) : Except OptionException Options := do
  let value ← parseValue d.type (d.textFor text) (o.cell d).value
  return { o with cell := Function.update o.cell d { value, count := (o.cell d).count + 1 } }

/-- `OptionDetails::parse_default`: nothing is counted. -/
def parseDefault (o : Options) (d : OptionDetails) (text : Text) : Except OptionException Options := do
  let value ← parseValue d.type text (o.cell d).value
  return { o with cell := Function.update o.cell d { value, count := (o.cell d).count } }

def addToOption (o : Options) (option arg : Text) : Except OptionException Options :=
  match o.find option with
  | none => .error (.optionNotExists option)
  | some d => o.parseOption d arg

/-- The loop of `consume_positional`: the names from `m_next_positional` on. -/
def consumeFrom (o : Options) (a : Text) : List Text → Except OptionException (Options × Bool)
  | [] => return ({ o with positional := [] }, false)
  | name :: rest =>
    match o.find name with
    | some d =>
      if d.type.isContainer = false then
        if (o.cell d).count = 0 then do
          let o ← o.addToOption name a
          return ({ o with positional := rest }, true)
        else consumeFrom o a rest
      else do
        let o ← o.addToOption name a
        return ({ o with positional := name :: rest }, true)
    | none => consumeFrom o a rest

/-- Whether an option has taken the text. -/
def consumePositional (o : Options) (a : Text) : Except OptionException (Options × Bool) := o.consumeFrom a o.positional

/-- `next` is `argv[current + 1]`, when `current + 1 < argc`.  The result has by how much `current` moves on. -/
def checkedParseArg (o : Options) (d : OptionDetails) (name : Text) (next : Option Text) :
    Except OptionException (Options × ℕ) :=
  match next with
  | none =>
    if d.hasImplicit then do
      let o ← o.parseOption d []
      return (o, 0)
    else .error (.missingArgument name)
  | some arg =>
    if arg.head? = some '-' ∧ d.hasImplicit then do
      let o ← o.parseOption d []
      return (o, 0)
    else do
      let o ← o.parseOption d arg
      return (o, 1)

/-- The loop over the letters of a short option. -/
def parseShort (o : Options) (next : Option Text) : Text → Except OptionException (Options × ℕ)
  | [] => return (o, 0)
  | c :: names =>
    match o.find [c] with
    | none => .error (.optionNotExists [c])
    | some d =>
      if d.type.hasArg = false then do
        let o ← o.parseOption d []
        parseShort o next names
      else if names = [] then o.checkedParseArg d [c] next
      else if d.hasImplicit then do
        let o ← o.parseOption d []
        parseShort o next names
      else .error (.optionRequiresArgument [c])

def parseLong (o : Options) (name value : Text) (next : Option Text) : Except OptionException (Options × ℕ) :=
  match o.find name with
  | none => .error (.optionNotExists name)
  | some d =>
    if value ≠ [] then
      if d.type.hasArg = false then .error (.optionNotHasArgument name value)
      else do
        let o ← o.parseOption d value
        return (o, 0)
    else if d.type.hasArg then o.checkedParseArg d name next
    else do
      let o ← o.parseOption d []
      return (o, 0)

def parseFlag (o : Options) (next : Option Text) : Flag → Except OptionException (Options × ℕ)
  | .short names => o.parseShort next names
  | .long name value => o.parseLong name value next

/-- The variables of the loop. -/
structure Loop where
  options : Options
  argv : List Text
  current : ℕ
  nextKeep : ℕ

/-- `while (current != argc)`; the second result is `consume_remaining`. -/
def parseLoop (l : Loop) : Except OptionException (Loop × Bool) :=
  if h : l.current < l.argv.length then
    if l.argv[l.current] = ['-', '-'] then return ({ l with current := l.current + 1 }, true)
    else match matchOption l.argv[l.current] with
    | none => do
      let (options, taken) ← l.options.consumePositional l.argv[l.current]
      if taken then parseLoop { l with options, current := l.current + 1 }
      else parseLoop { options, argv := l.argv.set l.nextKeep l.argv[l.current], current := l.current + 1
                       nextKeep := l.nextKeep + 1 }
    | some flag => do
      let (options, used) ← l.options.parseFlag l.argv[l.current + 1]? flag
      parseLoop { l with options, current := l.current + used + 1 }
  else return (l, false)
termination_by l.argv.length - l.current
decreasing_by all_goals first | omega | (simp only [List.length_set]; omega)

/-- The loop over `m_options`. -/
def setDefaults (o : Options) : Except OptionException Options :=
  o.options.foldlM (fun o p =>
    match p.2.defaultValue with
    | some text => if (o.cell p.2).count = 0 then o.parseDefault p.2 text else .ok o
    | none => .ok o) o

/-- The texts behind `--`; what no option takes is dropped. -/
def consumeRemaining (o : Options) (texts : List Text) : Except OptionException Options :=
  texts.foldlM (fun o a => do
    let (o, _) ← o.consumePositional a
    return o) o

/-- `parse` of an `argv` that has the name of the program: the options, `argv` and `argc`. -/
def parse (o : Options) (argv : List Text) : Except OptionException (Options × List Text × ℕ) := do
  let (l, remaining) ← parseLoop { options := o, argv, current := 1, nextKeep := 1 }
  let o ← l.options.setDefaults
  let o ← if remaining then o.consumeRemaining (l.argv.drop l.current) else pure o
  return (o, l.argv, l.nextKeep)

/-! ### The loop on a list -/

/-- What a scan of texts comes to: the options, the texts that no option takes, and those behind `--`. -/
structure Scan where
  options : Options
  kept : List Text
  remaining : Option (List Text)

/-- The texts from `argv[current]` on. -/
def scan (o : Options) : List Text → Except OptionException Scan
  | [] => return { options := o, kept := [], remaining := none }
  | text :: rest =>
    if text = ['-', '-'] then return { options := o, kept := [], remaining := some rest }
    else match matchOption text with
    | none => do
      let (o, taken) ← o.consumePositional text
      let s ← scan o rest
      return { s with kept := if taken then s.kept else text :: s.kept }
    | some flag => do
      let (o, used) ← o.parseFlag rest.head? flag
      scan o (rest.drop used)
termination_by texts => texts.length
decreasing_by all_goals simp only [List.length_cons, List.length_drop]; omega

/-- What the scan has not looked at. -/
def Scan.tail (s : Scan) : List Text :=
  match s.remaining with
  | none => []
  | some rest => ['-', '-'] :: rest

variable {o o' : Options} {next : Option Text}

/-- An argument is taken only when there is one. -/
theorem checkedParseArg_used {d : OptionDetails} {name : Text} {used : ℕ}
    (h : o.checkedParseArg d name next = .ok (o', used)) : used ≤ next.toList.length := by
  unfold checkedParseArg at h
  split at h
  · split at h
    · obtain ⟨o₁, -, h⟩ := bind_eq_ok.1 h
      cases h
      exact Nat.zero_le _
    · cases h
  · split at h <;> obtain ⟨o₁, -, h⟩ := bind_eq_ok.1 h <;> cases h
    · exact Nat.zero_le _
    · exact Nat.le_refl _

theorem parseShort_used {names : Text} {used : ℕ} (h : o.parseShort next names = .ok (o', used)) :
    used ≤ next.toList.length := by
  induction names generalizing o with
  | nil =>
    cases h
    exact Nat.zero_le _
  | cons c names ih =>
    rw [parseShort] at h
    split at h
    · cases h
    · split at h
      · obtain ⟨o₁, -, h⟩ := bind_eq_ok.1 h
        exact ih h
      · split at h
        · exact checkedParseArg_used h
        · split at h
          · obtain ⟨o₁, -, h⟩ := bind_eq_ok.1 h
            exact ih h
          · cases h

theorem parseFlag_used {flag : Flag} {used : ℕ} (h : o.parseFlag next flag = .ok (o', used)) :
    used ≤ next.toList.length := by
  cases flag with
  | short names => exact parseShort_used h
  | long name value =>
    simp only [parseFlag, parseLong] at h
    split at h
    · cases h
    · split at h
      · split at h
        · cases h
        · obtain ⟨o₁, -, h⟩ := bind_eq_ok.1 h
          cases h
          exact Nat.zero_le _
      · split at h
        · exact checkedParseArg_used h
        · obtain ⟨o₁, -, h⟩ := bind_eq_ok.1 h
          cases h
          exact Nat.zero_le _

/-- The texts of a scan: those it has looked at, among them those that it keeps, and the others. -/
theorem scan_parts {texts : List Text} {s : Scan} (h : o.scan texts = .ok s) :
    ∃ seen, texts = seen ++ s.tail ∧ s.kept.Sublist seen := by
  induction hn : texts.length using Nat.strongRecOn generalizing texts o s with
  | ind n ih =>
    cases texts with
    | nil =>
      rw [scan] at h
      cases h
      exact ⟨[], rfl, .refl _⟩
    | cons text rest =>
      rw [scan] at h
      split at h
      · next hdash =>
        cases h
        exact ⟨[], by rw [hdash]; rfl, .refl _⟩
      · split at h
        · obtain ⟨⟨o₁, taken⟩, -, h⟩ := bind_eq_ok.1 h
          obtain ⟨s', hs, h⟩ := bind_eq_ok.1 h
          cases h
          obtain ⟨seen, hseen, hkept⟩ := ih rest.length (by simp [← hn]) hs rfl
          refine ⟨text :: seen, congrArg (text :: ·) hseen, ?_⟩
          cases taken with
          | true => exact hkept.cons _
          | false => exact hkept.cons_cons _
        · obtain ⟨⟨o₁, used⟩, -, h⟩ := bind_eq_ok.1 h
          have hlt : (rest.drop used).length < n := by
            rw [← hn, List.length_drop, List.length_cons]
            omega
          obtain ⟨seen, hseen, hkept⟩ := ih _ hlt h rfl
          refine ⟨text :: rest.take used ++ seen, ?_, hkept.trans (List.sublist_append_right _ _)⟩
          rw [List.append_assoc, ← hseen, List.cons_append, List.take_append_drop]

/-- **The loop in place does what the scan does**, and writes what is kept to the front of `argv`. -/
theorem parseLoop_eq_scan (l : Loop) (hkeep : l.nextKeep ≤ l.current) (hcurrent : l.current ≤ l.argv.length) :
    parseLoop l = (do
      let s ← l.options.scan (l.argv.drop l.current)
      return ({ options := s.options, argv := overwrite l.argv l.nextKeep s.kept
                current := l.argv.length - (s.remaining.getD []).length
                nextKeep := l.nextKeep + s.kept.length }, s.remaining.isSome)) := by
  induction hn : l.argv.length - l.current using Nat.strongRecOn generalizing l with
  | ind n ih =>
    rw [parseLoop]
    by_cases hlt : l.current < l.argv.length
    · rw [dif_pos hlt, List.drop_eq_getElem_cons hlt, scan]
      split
      · -- `--`
        have hdrop : l.argv.length - (l.argv.drop (l.current + 1)).length = l.current + 1 := by
          rw [List.length_drop]
          omega
        simp only [pure_eq_ok, ok_bind, overwrite_nil, Option.getD_some, hdrop]
        rfl
      · split
        · -- not a flag
          cases htaken : l.options.consumePositional l.argv[l.current] with
          | error e => rfl
          | ok r =>
            obtain ⟨options, taken⟩ := r
            simp only [ok_bind]
            cases taken with
            | true =>
              have hrest := ih (l.argv.length - (l.current + 1)) (by omega)
                { l with options, current := l.current + 1 } (Nat.le_succ_of_le hkeep) hlt rfl
              rw [if_pos rfl, hrest]
              cases scan options (l.argv.drop (l.current + 1)) <;> rfl
            | false =>
              have hset : (l.argv.set l.nextKeep l.argv[l.current]).drop (l.current + 1) =
                  l.argv.drop (l.current + 1) := List.drop_set_of_lt (by omega)
              have hrest := ih (l.argv.length - (l.current + 1)) (by omega)
                { options, argv := l.argv.set l.nextKeep l.argv[l.current], current := l.current + 1
                  nextKeep := l.nextKeep + 1 } (Nat.succ_le_succ hkeep) (by rw [List.length_set]; exact hlt)
                (by rw [List.length_set])
              rw [if_neg (by simp), hrest]
              simp only [hset]
              cases scan options (l.argv.drop (l.current + 1)) with
              | error e => rfl
              | ok s =>
                have hwrite := overwrite_set (Nat.lt_of_le_of_lt hkeep hlt) l.argv[l.current] s.kept
                simp only [ok_bind, pure_eq_ok, Bool.false_eq_true, if_false, List.length_set, hwrite, List.length_cons]
                rw [Nat.add_right_comm, Nat.add_assoc]
        · -- a flag
          next flag _ =>
          have hnext : l.argv[l.current + 1]? = (l.argv.drop (l.current + 1)).head? := by
            rw [List.head?_drop]
          rw [hnext]
          cases hused : l.options.parseFlag (l.argv.drop (l.current + 1)).head? flag with
          | error e => rfl
          | ok r =>
            obtain ⟨options, used⟩ := r
            have hle : used ≤ (l.argv.drop (l.current + 1)).head?.toList.length := parseFlag_used hused
            have hroom : l.current + used + 1 ≤ l.argv.length := by
              rw [List.head?_drop] at hle
              by_cases hmore : l.current + 1 < l.argv.length
              · rw [List.getElem?_eq_getElem hmore] at hle
                simp only [Option.toList_some, List.length_singleton] at hle
                omega
              · rw [List.getElem?_eq_none (by omega)] at hle
                simp only [Option.toList_none, List.length_nil] at hle
                omega
            have hdrop : (l.argv.drop (l.current + 1)).drop used = l.argv.drop (l.current + used + 1) := by
              rw [List.drop_drop, Nat.add_right_comm]
            simp only [ok_bind, hdrop]
            exact ih _ (by simp only; omega) _ (by simp only; omega) hroom rfl
    · rw [dif_neg hlt, List.drop_eq_nil_of_le (by omega), scan]
      have hend : l.argv.length = l.current := by omega
      simp [hend]

/-- **`parse` on lists.**  What it leaves of `argv` are the name of the program and the texts that no option takes. -/
theorem parse_eq_scan (o : Options) (program : Text) (args : List Text) :
    o.parse (program :: args) = (do
      let s ← o.scan args
      let o ← s.options.setDefaults
      let o ← match s.remaining with
        | some texts => o.consumeRemaining texts
        | none => pure o
      return (o, overwrite (program :: args) 1 s.kept, 1 + s.kept.length)) := by
  rw [parse, parseLoop_eq_scan _ (Nat.le_refl 1) (by simp)]
  simp only [List.drop_succ_cons, List.drop_zero]
  cases hs : o.scan args with
  | error e => rfl
  | ok s =>
    simp only [ok_bind, pure_eq_ok]
    cases s.options.setDefaults with
    | error e => rfl
    | ok o₁ =>
      cases hrem : s.remaining with
      | none => simp
      | some texts =>
        obtain ⟨seen, rfl, hkept⟩ := scan_parts hs
        have htail : s.tail = ['-', '-'] :: texts := by rw [Scan.tail, hrem]
        have hle := hkept.length_le
        have hlen : (program :: (seen ++ s.tail)).length = seen.length + texts.length + 2 := by
          rw [htail]
          simp only [List.length_cons, List.length_append]
          omega
        have hcurrent : (program :: (seen ++ s.tail)).length - texts.length = (program :: seen).length + 1 := by
          rw [hlen, List.length_cons]
          omega
        have hdrop : (program :: (seen ++ s.tail)).drop ((program :: seen).length + 1) = texts := by
          rw [htail, ← List.cons_append, List.drop_append, List.drop_eq_nil_of_le (by omega)]
          simp
        simp only [Option.isSome_some, if_true, Option.getD_some, hcurrent]
        rw [drop_overwrite (by simp) (by simp only [List.length_cons]; omega), hdrop]

end Options

end Shadowc.Cxxopts
