import ManifestScan.File.Tree
import ManifestScan.Json
import ManifestScan.Plugin

namespace ManifestScan

def Json.record (members : List (String × Json)) : Json :=
  .object (members.map fun (key, value) => (ascii key, value))

/-- A member that is there only with a value. -/
def Json.optional (key : String) (value : Option Json) : List (String × Json) :=
  value.toList.map (key, ·)

def Parameter.toJson (parameter : Parameter) : Json :=
  .record (
    Json.optional "annotation" (parameter.hint.map .string) ++
    Json.optional "default" (parameter.default.map .verbatim) ++
    [("is_required", .boolean parameter.required)])

def Callable.toJson (callable : Callable) : Json :=
  .record [
    ("module", .string callable.module),
    ("name", .string callable.name),
    ("type", .string callable.kind.name),
    ("return_annotation", callable.returns.elim .null .string),
    ("parameters", .object (callable.parameters.map fun p => (p.name, p.toJson)))]

def UpgradeStep.toJson (step : UpgradeStep) : Json :=
  .record (
    [("name", .string step.name),
      ("func", step.function.toJson),
      ("target_version", .string step.target),
      ("upgrade_type", .string step.kind.name),
      ("priority", .number step.priority)] ++
    Json.optional "min_version" (step.minVersion.map .string) ++
    Json.optional "max_version" (step.maxVersion.map .string))

def stepsToJson (steps : List UpgradeStep) : Json := .array (steps.map (·.toJson))

def Value.toJson : Value → Json
  | .null => .null
  | .boolean value => .boolean value
  | .string text | .expression text => .string text
  | .emptyArray => .array []
  | .callable target => target.toJson
  | .steps list => stepsToJson list

def Plugin.toJson (plugin : Plugin) : Json :=
  .record (
    [("name", .string plugin.name),
      ("plugin_type", .string plugin.kind.name),
      ("obj", plugin.callable.toJson)] ++
    Json.optional "call_method" (plugin.callMethod.map .string) ++
    Json.optional "config" (plugin.config.map (·.toJson)) ++
    Json.optional "io_type" (plugin.ioType.map .string) ++
    Json.optional "requires_store" (plugin.requiresStore.map .boolean) ++
    Json.optional "version_strategy" (plugin.versionStrategy.map (·.toJson)) ++
    Json.optional "version_reader" (plugin.versionReader.map (·.toJson)) ++
    Json.optional "upgrade_steps" (plugin.upgradeSteps.map stepsToJson) ++
    Json.optional "description" (plugin.description.map .string))

def Manifest.toJson (manifest : Manifest) : Json :=
  .record [
    ("name", .string manifest.name),
    ("plugins", .array (manifest.plugins.map (·.toJson))),
    ("metadata", .object [])]

def Manifest.render (manifest : Manifest) : Bytes := manifest.toJson.document

inductive SaveError where
  | directories (path : FilePath) (cause : FileError)
  | opening (path : FilePath)
  | writing (path : FilePath)
deriving DecidableEq, Repr

def SaveError.message : SaveError → Bytes
  | .directories path cause =>
    ascii "failed to create directories for " ++ named path ++ ascii ": " ++ cause.message
  | .opening path => ascii "unable to open " ++ named path ++ ascii " for writing."
  | .writing path => ascii "failed while writing manifest to " ++ named path ++ ascii "."

/-- Writes a manifest to a path. Directories that are made on the way stay after an error, and so
does a file whose stream takes only a part of the document. -/
def Manifest.save (manifest : Manifest) (tree : FileTree) (path : FilePath) :
    FileTree × Option SaveError :=
  let document := manifest.render
  match tree.makeParent path with
  | (tree, some cause) => (tree, some (.directories path cause))
  | (tree, none) =>
    match tree.write path document with
    | .error _ => (tree, some (.opening path))
    | .ok next => (next, if tree.holds document then none else some (.writing path))

end ManifestScan
