import ManifestScan.CommandLine
import ManifestScan.Proofs.Text.Split

namespace ManifestScan

namespace Strategy

theorem ofName?_name (strategy : Strategy) : ofName? strategy.name = some strategy := by
  cases strategy <;> rfl

theorem name_inj {strategy other : Strategy} (h : strategy.name = other.name) :
    strategy = other := by
  have ho := ofName?_name strategy
  rw [h, ofName?_name] at ho
  exact (Option.some.inj ho).symm

end Strategy

namespace CommandLine

inductive Field where
  | input
  | output
  | verbose
  | setting (key : Setting)
deriving DecidableEq, Repr

def value? (command : CommandLine) : Setting → Option Bytes
  | .package => command.package
  | .root => command.root
  | .environment => command.environment
  | .version => command.version
  | .group => some command.group
  | .function => command.function
  | .locator => some command.strategy.name

/-- The arguments that give a field its value. Some values may stand alone behind their option. -/
inductive Spells (command : CommandLine) : Field → List Bytes → Prop
  | input : Spells command .input [command.input]
  | verbose (h : command.verbose = true) : Spells command .verbose [ascii "--verbose"]
  | output (h : command.output ≠ []) : Spells command .output [ascii "-o" ++ command.output]
  | detachedOutput (h : command.output ≠ []) : Spells command .output [ascii "-o", command.output]
  | setting {key : Setting} {value : Bytes} (h : command.value? key = some value) :
    Spells command (.setting key) [key.flag ++ equals :: value]
  | detached {key : Setting} {value : Bytes} (hk : key = .root ∨ key = .environment)
    (h : command.value? key = some value) : Spells command (.setting key) [key.flag, value]

def Field.Agrees (command other : CommandLine) : Field → Prop
  | .input => command.input = other.input
  | .output => command.output = other.output
  | .verbose => command.verbose = other.verbose
  | .setting key => command.value? key = other.value? key

/-- The fields of a command line in some order, each with its arguments. One that has its default
value may be left out. -/
structure Writes (command : CommandLine) (phrases : List (Field × List Bytes)) : Prop where
  nodup : (phrases.map (·.1)).Nodup
  spells : ∀ phrase ∈ phrases, command.Spells phrase.1 phrase.2
  complete : ∀ field, field ∉ phrases.map (·.1) → field.Agrees command default

/-- The default command line with some fields of another one. -/
def pick (command : CommandLine) (fields : List Field) : CommandLine where
  input := if .input ∈ fields then command.input else default.input
  output := if .output ∈ fields then command.output else default.output
  package := if .setting .package ∈ fields then command.package else default.package
  root := if .setting .root ∈ fields then command.root else default.root
  environment :=
    if .setting .environment ∈ fields then command.environment else default.environment
  version := if .setting .version ∈ fields then command.version else default.version
  group := if .setting .group ∈ fields then command.group else default.group
  function := if .setting .function ∈ fields then command.function else default.function
  strategy := if .setting .locator ∈ fields then command.strategy else default.strategy
  verbose := if .verbose ∈ fields then command.verbose else default.verbose
  showsHelp := false
  showsVersion := false

namespace Argument

theorem ofText_setting (key : Setting) (value : Bytes) :
    ofText (key.flag ++ equals :: value) = .setting key value := by
  cases key <;> rfl

theorem ofText_output {path : Bytes} (h : path ≠ []) :
    ofText (ascii "-o" ++ path) = .output path := by
  obtain ⟨b, rest, rfl⟩ := List.exists_cons_of_ne_nil h
  rfl

/-- An argument that starts with no dash is the input. -/
theorem ofText_input {path : Bytes} (hn : path ≠ []) (hd : path.head? ≠ some 0x2D) :
    ofText path = .input := by
  obtain ⟨b, rest, rfl⟩ := List.exists_cons_of_ne_nil hn
  have hb : b ≠ 0x2D := fun he => hd (congrArg some he)
  have hne (word : Bytes) : b :: rest ≠ 0x2D :: word := fun he => hb (List.cons.inj he).1
  have hafter (word : Bytes) : afterWord? (0x2D :: word) (b :: rest) = none := if_neg hb
  have hset : Setting.ofArgument? (b :: rest) = none := by
    refine List.findSome?_eq_none_iff.2 fun key _ => ?_
    have hflag : ∃ word, key.flag ++ [equals] = 0x2D :: word := by cases key <;> exact ⟨_, rfl⟩
    obtain ⟨word, hw⟩ := hflag
    rw [hw, hafter, Option.map_none]
  have ho : afterWord? (ascii "-o") (b :: rest) = none := hafter _
  have hs : startsWith (ascii "-") (b :: rest) = false := congrArg Option.isSome (hafter [])
  have hhelp : b :: rest ≠ ascii "--help" := hne _
  have hversion : b :: rest ≠ ascii "--version" := hne _
  have hverbose : b :: rest ≠ ascii "--verbose" := hne _
  have hroot : b :: rest ≠ Setting.root.flag := hne _
  have henvironment : b :: rest ≠ Setting.environment.flag := hne _
  unfold ofText
  rw [if_neg hhelp, if_neg hversion, if_neg hverbose, if_neg hroot, if_neg henvironment,
    hset, ho, hs]
  rfl

end Argument

variable {command : CommandLine} {field : Field} {words : List Bytes}

/-- A setting takes its value over. -/
theorem set_pick {key : Setting} {value : Bytes} (h : command.value? key = some value)
    (done : List Field) :
    (command.pick done).set value key = .ok (command.pick (.setting key :: done)) := by
  cases key with
  | locator =>
    cases h
    simp [set, pick, Strategy.ofName?_name]
  | group =>
    cases h
    simp [set, pick]
  | _ =>
    simp only [value?] at h
    simp [set, pick, h]

theorem output_pick (command : CommandLine) (done : List Field) :
    { command.pick done with output := command.output } = command.pick (.output :: done) := by
  simp [pick]

/-- The arguments of a field are read as its value, whatever stands behind them. -/
theorem read_spells (h : command.Spells field words) (hi : command.input ≠ [])
    (hd : command.input.head? ≠ some 0x2D) {done : List Field} (hn : field ∉ done)
    (others : List Bytes) :
    read (command.pick done) (words ++ others) = read (command.pick (field :: done)) others := by
  cases h with
  | input =>
    have hempty : (command.pick done).input.isEmpty = true := by
      simp [pick, hn, default]
    have hnext : { command.pick done with input := command.input } =
        command.pick (.input :: done) := by
      simp [pick]
    rw [List.singleton_append, read.eq_def]
    dsimp only
    rw [Argument.ofText_input hi hd]
    dsimp only
    rw [if_pos hempty, hnext]
  | verbose hv =>
    have hword : Argument.ofText (ascii "--verbose") = .verbose := rfl
    have hnext : { command.pick done with verbose := true } = command.pick (.verbose :: done) := by
      simp [pick, hv]
    rw [List.singleton_append, read.eq_def]
    dsimp only
    rw [hword]
    dsimp only
    rw [hnext]
  | output ho =>
    rw [List.singleton_append, read.eq_def]
    dsimp only
    rw [Argument.ofText_output ho]
    dsimp only
    rw [output_pick]
  | detachedOutput =>
    have hword : Argument.ofText (ascii "-o") = .detachedOutput := rfl
    rw [List.cons_append, List.singleton_append, read.eq_def]
    dsimp only
    rw [hword]
    dsimp only
    rw [output_pick]
  | setting hv =>
    rw [List.singleton_append, read.eq_def]
    dsimp only
    rw [Argument.ofText_setting]
    dsimp only
    rw [set_pick hv]
    rfl
  | @detached key value hk hv =>
    obtain ⟨missing, hword⟩ : ∃ missing, Argument.ofText key.flag = .detached key missing := by
      rcases hk with rfl | rfl <;> exact ⟨_, rfl⟩
    rw [List.cons_append, List.singleton_append, read.eq_def]
    dsimp only
    rw [hword]
    dsimp only
    rw [set_pick hv]
    rfl

/-- Behind the arguments of some fields the command line has those fields. -/
theorem read_phrases (hi : command.input ≠ []) (hd : command.input.head? ≠ some 0x2D)
    {phrases : List (Field × List Bytes)}
    (hs : ∀ phrase ∈ phrases, command.Spells phrase.1 phrase.2) {done : List Field}
    (hn : (phrases.map (·.1)).Nodup) (ha : ∀ field ∈ phrases.map (·.1), field ∉ done) :
    read (command.pick done) (phrases.flatMap (·.2)) =
      read (command.pick ((phrases.map (·.1)).reverse ++ done)) [] := by
  induction phrases generalizing done with
  | nil => rfl
  | cons phrase phrases ih =>
    obtain ⟨hphrase, hs⟩ := List.forall_mem_cons.1 hs
    rw [List.map_cons, List.nodup_cons] at hn
    rw [List.map_cons, List.forall_mem_cons] at ha
    rw [List.flatMap_cons, read_spells hphrase hi hd ha.1]
    rw [ih hs hn.2 fun field hm => ?_, List.map_cons, List.reverse_cons, List.append_assoc]
    · rfl
    · rw [List.mem_cons, not_or]
      exact ⟨fun he => hn.1 (he ▸ hm), ha.2 field hm⟩

/-- A command line whose other fields have their default values is picked as a whole. -/
theorem pick_eq_self (hh : command.showsHelp = false) (hv : command.showsVersion = false)
    {fields : List Field} (hc : ∀ field, field ∉ fields → field.Agrees command default) :
    command.pick fields = command := by
  have hgroup (hn : .setting .group ∉ fields) : default.group = command.group := by
    have he : some command.group = some default.group := hc _ hn
    exact (Option.some.inj he).symm
  have hstrategy (hn : .setting .locator ∉ fields) : default.strategy = command.strategy := by
    have he : some command.strategy.name = some default.strategy.name := hc _ hn
    exact Strategy.name_inj (Option.some.inj he).symm
  obtain ⟨input, output, package, root, environment, version, group, function, strategy, verbose,
    help, shown⟩ := command
  simp only [pick, mk.injEq, ite_eq_left_iff]
  exact ⟨fun hn => (hc _ hn).symm, fun hn => (hc _ hn).symm,
    fun hn => (hc (.setting .package) hn).symm, fun hn => (hc (.setting .root) hn).symm,
    fun hn => (hc (.setting .environment) hn).symm, fun hn => (hc (.setting .version) hn).symm,
    hgroup, fun hn => (hc (.setting .function) hn).symm, hstrategy, fun hn => (hc _ hn).symm,
    hh.symm, hv.symm⟩

/-- A command line is read back from its arguments, in whatever order they stand and whichever way
each of them is written. A value that stands behind its option is never taken for an option. -/
theorem read_writes (hi : command.input ≠ []) (hd : command.input.head? ≠ some 0x2D)
    (hh : command.showsHelp = false) (hv : command.showsVersion = false)
    {phrases : List (Field × List Bytes)} (hw : command.Writes phrases) :
    let arguments := phrases.flatMap (·.2)
    default.read arguments = .ok command ∧
      ((∀ argument ∈ arguments, 0 ∉ argument) → ofArguments arguments = .ok command) := by
  intro arguments
  have hstart : command.pick [] = default := rfl
  have hread : default.read arguments = .ok command := by
    rw [← hstart, read_phrases hi hd hw.spells hw.nodup fun _ _ => List.not_mem_nil,
      List.append_nil,
      pick_eq_self hh hv fun field hn => hw.complete field fun hm => hn (List.mem_reverse.2 hm)]
    exact if_neg (by simpa using hi)
  refine ⟨hread, fun hz => ?_⟩
  have hmap : arguments.map beforeZero = arguments := by
    exact (List.map_congr_left fun argument ha => beforeZero_eq (hz argument ha)).trans
      (List.map_id _)
  rw [ofArguments, hmap, hread]

/-- A command line whose values look like options. -/
def sample : CommandLine :=
  ⟨ascii "in", ascii "--help", some [], some (ascii "-o"), some (ascii "--root"), none,
    ascii "--locator=auto", some (ascii "a=b"), .text, true, false, false⟩

/-- The version alone has its default value. -/
theorem read_writes_optionlike :
    let arguments := [ascii "-o", ascii "--help", ascii "--locator=text", ascii "--root",
      ascii "-o", ascii "in", ascii "--function=a=b", ascii "--verbose", ascii "--package-name=",
      ascii "--venv", ascii "--root", ascii "--entry-point-group=--locator=auto"]
    sample.input ≠ [] ∧ sample.input.head? ≠ some 0x2D ∧ default.read arguments = .ok sample ∧
      ofArguments arguments = .ok sample := by
  intro arguments
  let phrases : List (Field × List Bytes) := [(.output, arguments.take 2),
    (.setting .locator, [ascii "--locator=text"]), (.setting .root, [ascii "--root", ascii "-o"]),
    (.input, [ascii "in"]), (.setting .function, [ascii "--function=a=b"]),
    (.verbose, [ascii "--verbose"]), (.setting .package, [ascii "--package-name="]),
    (.setting .environment, [ascii "--venv", ascii "--root"]),
    (.setting .group, [ascii "--entry-point-group=--locator=auto"])]
  have hw : sample.Writes phrases := by
    refine ⟨by decide, ?_, fun field hf => ?_⟩
    · simp only [phrases, List.forall_mem_cons]
      exact ⟨.detachedOutput (by decide), .setting rfl, .detached (.inl rfl) rfl, .input,
        .setting rfl, .verbose rfl, .setting rfl, .detached (.inr rfl) rfl, .setting rfl,
        List.forall_mem_nil _⟩
    · obtain rfl : field = .setting .version := by
        cases field with
        | setting key => cases key <;> first | rfl | exact absurd (by decide) hf
        | _ => exact absurd (by decide) hf
      rfl
  have hi : sample.input ≠ [] := by decide
  have hd : sample.input.head? ≠ some 0x2D := by decide
  obtain ⟨hread, hof⟩ := read_writes hi hd rfl rfl hw
  exact ⟨hi, hd, hread, hof (by decide +kernel)⟩

end CommandLine

end ManifestScan
