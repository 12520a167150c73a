import Shadowc.Cxxopts.Accepted

/-!
# The program `server`

`main` declares three options, reads its command line, and prints what it has read.  It prints for the command lines of
the grammar whose numbers can be read, and for no others (`main_ok_iff`); whatever else it is called with, it ends with
an exception of `parse` (`main_error_iff`).
-/

namespace Shadowc.Server

open Lib Throwing Cells Cxxopts

/-- The exceptions that leave `main`. -/
inductive Uncaught where
  | option (e : OptionException)
  | badCast
  deriving DecidableEq, Repr

def declarations : List Declaration :=
  [{ opts := "password".toList, type := .string }, { opts := "port".toList, type := .int },
    { opts := "w,workers".toList, type := .int }]

/-- `Options::operator[]` -/
def index (o : Options) (option : Text) : Except OptionException OptionDetails :=
  match o.find option with
  | none => .error (.optionNotPresent option)
  | some d => .ok d

/-- `OptionDetails::as<T>()` -/
def as (o : Options) (d : OptionDetails) (type : Ty) : Except Uncaught type.Val :=
  if h : d.type = type then .ok (h ▸ (o.cell d).value) else .error .badCast

/-- `options[name].as<T>()` -/
def valueAs (o : Options) (option : Text) (type : Ty) : Except Uncaught type.Val := do
  let d ← (index o option).mapError .option
  as o d type

/-- The lines that `main` prints; the last one is printed by the constructor of the resolver. -/
def report (password : Text) (port numWorker : ℤ) : List Text :=
  ["============= config ===========".toList,
    "Password ".toList ++ password,
    "Port: ".toList ++ printInt port,
    "Worker: ".toList ++ printInt numWorker,
    "================================".toList,
    "Init DNSResolver".toList]

def main (argv : List Text) : Except Uncaught (List Text) := do
  let options ← (declarations.foldlM Options.add .new).mapError .option
  let (options, _) ← (options.parse argv).mapError .option
  let password ← valueAs options "password".toList .string
  let port ← valueAs options "port".toList .int
  let numWorker ← valueAs options "workers".toList .int
  return report password port numWorker

/-! ### The options of the program -/

def passwordOption : OptionDetails := { id := 0, type := .string, defaultValue := none, implicitValue := none }
def portOption : OptionDetails := { id := 1, type := .int, defaultValue := none, implicitValue := none }
def workersOption : OptionDetails := { id := 2, type := .int, defaultValue := none, implicitValue := none }

def options : Options where
  options := [("password".toList, passwordOption), ("port".toList, portOption), ("w".toList, workersOption),
    ("workers".toList, workersOption)]
  positional := []
  cell := fun d => ⟨d.type.zero, 0⟩
  made := 3

theorem declare_options : declarations.foldlM Options.add .new = .ok options := rfl

theorem find_eq {name : Text} {d : OptionDetails} : options.find name = some d ↔
    d = passwordOption ∧ name ∈ ["password".toList] ∨ d = portOption ∧ name ∈ ["port".toList] ∨
      d = workersOption ∧ name ∈ ["w".toList, "workers".toList] := by
  have hkeys := (Options.declared_addAll declare_options).keys
  rw [Options.find_eq_some hkeys]
  simp only [options, List.mem_cons, Prod.mk.injEq, List.not_mem_nil, or_false]
  tauto

/-- The texts that follow the names of an option on the command line. -/
def textsOf (c : CommandLine) (names : List Text) : List Text :=
  (c.items.flatMap Item.settings).filterMap fun p => if p.1 ∈ names then some p.2 else none

theorem inputsFor_given {d : OptionDetails} {names : List Text} (c : CommandLine)
    (h : ∀ name, options.find name = some d ↔ name ∈ names) :
    inputsFor (given options.find (c.items.flatMap Item.settings)) d = textsOf c names := by
  rw [inputsFor, given, List.filterMap_filterMap, textsOf]
  refine List.filterMap_congr fun p _ => ?_
  by_cases hp : p.1 ∈ names
  · simp [hp, (h p.1).2 hp]
  · have hne := mt (h p.1).1 hp
    cases hfind : options.find p.1 with
    | none => simp [hp]
    | some d' =>
      rw [hfind] at hne
      have hd : d' ≠ d := fun heq => hne (congrArg some heq)
      simp [hp, hd]

theorem valueAs_eq {o : Options} {option : Text} {d : OptionDetails} (h : o.find option = some d) :
    valueAs o option d.type = .ok (o.cell d).value := by
  rw [valueAs, index, h]
  exact dif_pos rfl

/-- What `parse` throws is the only exception. -/
theorem main_eq (program : Text) (args : List Text) : main (program :: args) = (do
    let (o, _) ← (options.parse (program :: args)).mapError .option
    return report (o.cell passwordOption).value (o.cell portOption).value (o.cell workersOption).value) := by
  have hdeclare : (Except.ok options : Except OptionException Options).mapError Uncaught.option = .ok options := rfl
  rw [main, declare_options, hdeclare, ok_bind]
  cases hparse : options.parse (program :: args) with
  | error e => rfl
  | ok r =>
    obtain ⟨o, argv, argc⟩ := r
    have hfind : o.find = options.find := by
      unfold Options.find
      rw [parse_options hparse]
    have hpassword : o.find "password".toList = some passwordOption := hfind ▸ find_eq.2 (by simp)
    have hport : o.find "port".toList = some portOption := hfind ▸ find_eq.2 (by simp)
    have hworkers : o.find "workers".toList = some workersOption := hfind ▸ find_eq.2 (by simp)
    have hpassword' : valueAs o "password".toList .string = .ok (o.cell passwordOption).value := valueAs_eq hpassword
    have hport' : valueAs o "port".toList .int = .ok (o.cell portOption).value := valueAs_eq hport
    have hworkers' : valueAs o "workers".toList .int = .ok (o.cell workersOption).value := valueAs_eq hworkers
    simp only [Except.mapError, ok_bind, hpassword', hport', hworkers']
    rfl

/-! ### What is printed -/

/-- What becomes of an option of the program. -/
theorem final_eq {d : OptionDetails} {names : List Text} (c : CommandLine) (hd : d.type.isContainer = false)
    (hdefault : d.defaultValue = none) (h : ∀ name, options.find name = some d ↔ name ∈ names) :
    d.final (options.nameCount d) (inputsFor (given options.find (c.items.flatMap Item.settings)) d) []
      (options.cell d) = (do
        let vs ← (textsOf c names).mapM d.valueOf
        return { value := vs.getLast?.getD d.type.zero, count := (textsOf c names).length }) := by
  rw [inputsFor_given c h, OptionDetails.final_of_no_default hd hdefault]
  simp only [options, Nat.zero_add]

theorem find_password (name : Text) : options.find name = some passwordOption ↔ name ∈ ["password".toList] := by
  simp [find_eq, passwordOption, portOption, workersOption]

theorem find_port (name : Text) : options.find name = some portOption ↔ name ∈ ["port".toList] := by
  simp [find_eq, passwordOption, portOption, workersOption]

theorem find_workers (name : Text) :
    options.find name = some workersOption ↔ name ∈ ["w".toList, "workers".toList] := by
  simp [find_eq, passwordOption, portOption, workersOption]

theorem mapM_password (texts : List Text) : texts.mapM passwordOption.valueOf = .ok texts := by
  induction texts with
  | nil => rfl
  | cons text texts ih =>
    rw [List.mapM_cons, ih]
    rfl

/-- An option that is not declared stays as it is. -/
theorem final_of_ne {d : OptionDetails} (c : CommandLine) (hpassword : d ≠ passwordOption) (hport : d ≠ portOption)
    (hworkers : d ≠ workersOption) :
    d.final (options.nameCount d) (inputsFor (given options.find (c.items.flatMap Item.settings)) d) []
      (options.cell d) = .ok (options.cell d) := by
  have hfind : ∀ name, options.find name = some d ↔ name ∈ ([] : List Text) := by
    simp [find_eq, hpassword, hport, hworkers]
  have htexts : textsOf c [] = [] := by simp [textsOf]
  have hcount : options.nameCount d = 0 := by
    simp [Options.nameCount, options, Ne.symm hpassword, Ne.symm hport, Ne.symm hworkers]
  rw [inputsFor_given c hfind, htexts, hcount]
  have hdefaults : ∀ count, d.defaults 0 count = [] := by
    intro count
    unfold OptionDetails.defaults
    cases d.defaultValue <;> simp
  simp only [OptionDetails.final, hdefaults, List.mapM_nil]
  rfl

/-- `main` prints for a command line whose numbers can be read. -/
theorem main_render {program : Text} {c : CommandLine} {ports workers : List ℤ} (hc : c.Ok options.find)
    (hports : (textsOf c ["port".toList]).mapM parseInt = .ok ports)
    (hnumbers : (textsOf c ["w".toList, "workers".toList]).mapM parseInt = .ok workers) :
    main (program :: c.render) = .ok (report ((textsOf c ["password".toList]).getLast?.getD [])
      (ports.getLast?.getD 0) (workers.getLast?.getD 0)) := by
  have hpassword := final_eq c rfl rfl find_password
  rw [mapM_password] at hpassword
  have hport := (final_eq c rfl rfl find_port).trans (bind_eq_ok.2 ⟨ports, hports, rfl⟩)
  have hworkers := (final_eq c rfl rfl find_workers).trans (bind_eq_ok.2 ⟨workers, hnumbers, rfl⟩)
  have hall : ∀ d : OptionDetails, ∃ cell, d.final (options.nameCount d)
      (inputsFor (given options.find (c.items.flatMap Item.settings)) d) [] (options.cell d) = .ok cell := by
    intro d
    by_cases hd₁ : d = passwordOption
    · exact hd₁ ▸ ⟨_, hpassword⟩
    by_cases hd₂ : d = portOption
    · exact hd₂ ▸ ⟨_, hport⟩
    by_cases hd₃ : d = workersOption
    · exact hd₃ ▸ ⟨_, hworkers⟩
    · exact ⟨_, final_of_ne c hd₁ hd₂ hd₃⟩
  choose cell hcells using hall
  obtain ⟨argv, argc, hparse⟩ : ∃ argv argc,
      options.parse (program :: c.render) = .ok ({ options with cell }, argv, argc) :=
    (exists_parse_iff hc rfl).2 ⟨rfl, rfl, rfl, hcells⟩
  have hpassword' := Except.ok.inj ((hcells passwordOption).symm.trans hpassword)
  have hport' := Except.ok.inj ((hcells portOption).symm.trans hport)
  have hworkers' := Except.ok.inj ((hcells workersOption).symm.trans hworkers)
  rw [main_eq, hparse]
  simp only [Except.mapError, ok_bind, hpassword', hport', hworkers']
  rfl

/-- **What `main` prints.**  It prints for the command lines of the grammar whose numbers can be read, and reports the
last value of each option, or no password and zero. -/
theorem main_ok_iff {program : Text} {args lines : List Text} : main (program :: args) = .ok lines ↔
    ∃ (c : CommandLine) (ports workers : List ℤ), c.Ok options.find ∧ args = c.render ∧
      (textsOf c ["port".toList]).mapM parseInt = .ok ports ∧
      (textsOf c ["w".toList, "workers".toList]).mapM parseInt = .ok workers ∧
      lines = report ((textsOf c ["password".toList]).getLast?.getD []) (ports.getLast?.getD 0)
        (workers.getLast?.getD 0) := by
  constructor
  · intro h
    rw [main_eq] at h
    obtain ⟨⟨o, argv, argc⟩, hparse, hlines⟩ := bind_eq_ok.1 h
    have hparse := mapError_eq_ok.1 hparse
    obtain ⟨c, -, hc, rfl, -⟩ := parse_ok_iff.1 hparse
    obtain ⟨-, -, -, hcells⟩ := (exists_parse_iff hc rfl).1 ⟨_, _, hparse⟩
    have hpassword := hcells passwordOption
    have hport := hcells portOption
    have hworkers := hcells workersOption
    rw [final_eq c rfl rfl find_password, mapM_password] at hpassword
    rw [final_eq c rfl rfl find_port] at hport
    rw [final_eq c rfl rfl find_workers] at hworkers
    obtain ⟨ports, hports, hport⟩ := bind_eq_ok.1 hport
    obtain ⟨workers, hnumbers, hworkers⟩ := bind_eq_ok.1 hworkers
    refine ⟨c, ports, workers, hc, rfl, hports, hnumbers, ?_⟩
    have heq := (Except.ok.inj hlines).symm
    rw [← Except.ok.inj hpassword, ← Except.ok.inj hport, ← Except.ok.inj hworkers] at heq
    exact heq
  · rintro ⟨c, ports, workers, hc, rfl, hports, hnumbers, rfl⟩
    exact main_render hc hports hnumbers

/-- **What `main` throws** is what `parse` throws: it finds its options, and they have the types it asks for. -/
theorem main_error_iff {program : Text} {args : List Text} {u : Uncaught} : main (program :: args) = .error u ↔
    ∃ e, options.parse (program :: args) = .error e ∧ u = .option e := by
  rw [main_eq]
  constructor
  · intro h
    rcases bind_eq_error.1 h with hparse | ⟨⟨o, rest⟩, -, h⟩
    · obtain ⟨e, he, rfl⟩ := mapError_eq_error.1 hparse
      exact ⟨e, he, rfl⟩
    · cases h
  · rintro ⟨e, he, rfl⟩
    rw [he]
    rfl

theorem mapM_printInt {v : ℤ} (h : IsInt v) : [printInt v].mapM parseInt = .ok [v] := by
  rw [List.mapM_cons, parseInt_printInt h]
  rfl

/-- **What is written is read.**  Any password can be given, also one that looks like a flag, and any two numbers. -/
theorem main_written {program password : Text} {port numWorker : ℤ} (hport : IsInt port) (hworker : IsInt numWorker) :
    main [program, "--password".toList, password, "--port".toList, printInt port, "-w".toList, printInt numWorker] =
      .ok (report password port numWorker) := by
  have hline : (CommandLine.mk [.long "password".toList false (some password),
      .long "port".toList false (some (printInt port)), .short [] 'w' (some (printInt numWorker))] none).Ok
      options.find :=
    ⟨⟨rfl, _, (find_password _).2 (by simp), takesArg_of_no_implicit rfl rfl _ _⟩,
      ⟨rfl, _, (find_port _).2 (by simp), takesArg_of_no_implicit rfl rfl _ _⟩,
      ⟨by simp, by simp, _, (find_workers _).2 (by simp), takesArg_of_no_implicit rfl rfl _ _⟩, trivial⟩
  exact main_render hline (mapM_printInt hport) (mapM_printInt hworker)

theorem main_written_dashes : main ["server".toList, "--password".toList, "--port".toList, "--port".toList,
    printInt 8388, "-w".toList, printInt (-1)] = .ok (report "--port".toList 8388 (-1)) :=
  main_written (by decide) (by decide)

end Shadowc.Server
