import ManifestScan.EntryFile
import ManifestScan.Registration

namespace ManifestScan

/-- What the arguments of a run ask for. An empty input or output stands for none. -/
structure CommandLine where
  input : FilePath
  output : FilePath
  package : Option Bytes
  root : Option FilePath
  environment : Option FilePath
  /-- The version of the distribution whose entry points count. -/
  version : Option Bytes
  group : Bytes
  function : Option Bytes
  strategy : Strategy
  verbose : Bool
  showsHelp : Bool
  showsVersion : Bool
deriving DecidableEq, Repr

inductive UsageError where
  | missingOutput
  | unknownOption (argument : Bytes)
  | missingInput
  | missingRoot
  | missingEnvironment
  | invalidLocator (name : Bytes)
  | multipleInputs
deriving DecidableEq, Repr

def UsageError.message : UsageError → Bytes
  | .missingOutput => ascii "MEX-E1000 MissingOutput: expected path after -o option."
  | .unknownOption argument =>
    ascii "MEX-E1001 UnknownOption: unrecognised option " ++ named argument ++ ascii "."
  | .missingInput =>
    ascii "MEX-E1002 MissingInput: an entry file or package directory is required."
  | .missingRoot => ascii "MEX-E1003 MissingRoot: expected path after --root option."
  | .missingEnvironment =>
    ascii "MEX-E1004 MissingEnvironment: expected path after --venv option."
  | .invalidLocator name =>
    ascii "MEX-E1005 InvalidLocator: expected auto, tree or text, got " ++ named name ++ ascii "."
  | .multipleInputs =>
    ascii "MEX-E1006 MultipleInputs: only one entry file or package directory may be given."

namespace CommandLine

def default : CommandLine :=
  ⟨[], [], none, none, none, none, EntryFile.defaultGroup, none, .automatic, false, false, false⟩

inductive Setting where
  | package
  | root
  | environment
  | version
  | group
  | function
  | locator
deriving DecidableEq, Repr

namespace Setting

def all : List Setting := [package, root, environment, version, group, function, locator]

def flag : Setting → Bytes
  | .package => ascii "--package-name"
  | .root => ascii "--root"
  | .environment => ascii "--venv"
  | .version => ascii "--dist-version"
  | .group => ascii "--entry-point-group"
  | .function => ascii "--function"
  | .locator => ascii "--locator"

def ofArgument? (argument : Bytes) : Option (Setting × Bytes) :=
  all.findSome? fun setting =>
    (afterWord? (setting.flag ++ [equals]) argument).map (setting, ·)

end Setting

def set (value : Bytes) (command : CommandLine) : Setting → Except UsageError CommandLine
  | .package => .ok { command with package := some value }
  | .root => .ok { command with root := some value }
  | .environment => .ok { command with environment := some value }
  | .version => .ok { command with version := some value }
  | .group => .ok { command with group := value }
  | .function => .ok { command with function := some value }
  | .locator =>
    match Strategy.ofName? value with
    | none => .error (.invalidLocator value)
    | some strategy => .ok { command with strategy := strategy }

inductive Argument where
  | help
  | version
  | verbose
  | setting (key : Setting) (value : Bytes)
  /-- The value is the next argument, without which there is the given error. -/
  | detached (key : Setting) (missing : UsageError)
  | output (path : FilePath)
  | detachedOutput
  | unknown
  | input
deriving DecidableEq, Repr

namespace Argument

def ofText (argument : Bytes) : Argument :=
  if argument = ascii "--help" then .help
  else if argument = ascii "--version" then .version
  else if argument = ascii "--verbose" then .verbose
  else if argument = Setting.root.flag then .detached .root .missingRoot
  else if argument = Setting.environment.flag then .detached .environment .missingEnvironment
  else
    match Setting.ofArgument? argument, afterWord? (ascii "-o") argument with
    | some (key, value), _ => .setting key value
    | none, some [] => .detachedOutput
    | none, some path => .output path
    | none, none => if startsWith (ascii "-") argument then .unknown else .input

end Argument

/-- Takes in the arguments in their order. Help and version end the reading, and an empty input
leaves room for another. -/
def read (command : CommandLine) : List Bytes → Except UsageError CommandLine
  | [] => if command.input.isEmpty then .error .missingInput else .ok command
  | argument :: others =>
    match Argument.ofText argument with
    | .help => .ok { command with showsHelp := true }
    | .version => .ok { command with showsVersion := true }
    | .verbose => read { command with verbose := true } others
    | .setting key value => (command.set value key).bind (read · others)
    | .detached key missing =>
      match others with
      | [] => .error missing
      | value :: others => (command.set value key).bind (read · others)
    | .output path => read { command with output := path } others
    | .detachedOutput =>
      match others with
      | [] => .error .missingOutput
      | path :: others => read { command with output := path } others
    | .unknown => .error (.unknownOption argument)
    | .input =>
      if command.input.isEmpty then read { command with input := argument } others
      else .error .multipleInputs

/-- The command line of a list of arguments, each of which ends at its first zero byte. -/
def ofArguments (arguments : List Bytes) : Except UsageError CommandLine :=
  default.read (arguments.map beforeZero)

end CommandLine

end ManifestScan
