import ManifestScan.KeywordArgument
import ManifestScan.Plugin

namespace ManifestScan

structure Draft where
  name : Option Bytes
  callable : Option Callable
  config : Option Callable
  callMethod : Option Bytes
  ioType : Option Bytes
  requiresStore : Option Bool
  versionStrategy : Option Value
  versionReader : Option Value
  upgradeSteps : Option (List UpgradeStep)
  description : Option Bytes

namespace Draft

def empty : Draft := ⟨none, none, none, none, none, none, none, none, none, none⟩

inductive Field where
  | name
  | callable
  | config
  | callMethod
  | ioType
  | requiresStore
  | versionStrategy
  | versionReader
  | upgradeSteps
  | description
deriving DecidableEq, Repr

namespace Field

def keywords : List (Bytes × Field) :=
  [(ascii "name", .name), (ascii "obj", .callable), (ascii "entry", .callable),
    (ascii "call_method", .callMethod), (ascii "method", .callMethod), (ascii "config", .config),
    (ascii "io_type", .ioType), (ascii "requires_store", .requiresStore),
    (ascii "store", .requiresStore), (ascii "version_strategy", .versionStrategy),
    (ascii "version_reader", .versionReader), (ascii "upgrade_steps", .upgradeSteps),
    (ascii "steps", .upgradeSteps), (ascii "description", .description)]

def ofKeyword? (key : Bytes) : Option Field := keywords.lookup key

end Field

/-- A null value leaves an optional text unset. -/
def textOf (argument : KeywordArgument) : Value → Except Failure (Option Bytes)
  | .null => .ok none
  | .string text => .ok (some text)
  | _ => .error (.wrongValue argument.key .string argument.value)

def set (draft : Draft) (argument : KeywordArgument) (value : Value) :
    Field → Except Failure Draft
  | .name =>
    match value with
    | .string (b :: rest) => .ok { draft with name := some (b :: rest) }
    | _ => .error (.wrongValue argument.key .name argument.value)
  | .callable =>
    if draft.callable.isSome then .error .twoCallables
    else
      match value with
      | .callable target => .ok { draft with callable := some target }
      | _ => .error (.unknownSymbol argument.key argument.value)
  | .config =>
    match value with
    | .null => .ok draft
    | .callable target => .ok { draft with config := some target }
    | _ => .error (.unknownConfig argument.value)
  | .callMethod => (textOf argument value).map fun text =>
    { draft with callMethod := text.or draft.callMethod }
  | .ioType => (textOf argument value).map fun text => { draft with ioType := text.or draft.ioType }
  | .description => (textOf argument value).map fun text =>
    { draft with description := text.or draft.description }
  | .requiresStore =>
    match value with
    | .null => .ok draft
    | .boolean flag => .ok { draft with requiresStore := some flag }
    | _ => .error (.wrongValue argument.key .boolean argument.value)
  | .versionStrategy => .ok { draft with versionStrategy := some value }
  | .versionReader => .ok { draft with versionReader := some value }
  | .upgradeSteps =>
    match value with
    | .null => .ok draft
    | .emptyArray => .ok { draft with upgradeSteps := some [] }
    | .steps list => .ok { draft with upgradeSteps := some list }
    | _ => .error (.wrongValue argument.key .steps argument.value)

/-- The plugin of a draft that has a name and a callable. -/
def finish (draft : Draft) (kind : PluginKind) : Except Failure Plugin :=
  match draft.name, draft.callable with
  | none, _ => .error .missingName
  | some name, none => .error (.missingCallable name)
  | some name, some callable =>
    .ok ⟨name, kind, callable, draft.config, draft.callMethod, draft.ioType, draft.requiresStore,
      draft.versionStrategy, draft.versionReader, draft.upgradeSteps, draft.description⟩

end Draft

end ManifestScan
