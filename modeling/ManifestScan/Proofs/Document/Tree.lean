import ManifestScan.Manifest.Document
import ManifestScan.Proofs.Document.Reader

namespace ManifestScan

def isPlain (text : Bytes) : Bool := text.all (0x20 ≤ ·)

namespace Document

def record (members : List (String × Document)) : Document :=
  .object (members.map fun (key, value) => (ascii key, value))

def member? (key : String) (value : Option Document) : List (String × Document) :=
  value.toList.map (key, ·)

def ofText (text : Bytes) : Document := (read? text).getD .null

end Document

namespace Parameter

def tree (parameter : Parameter) : Document :=
  .record (
    Document.member? "annotation" (parameter.hint.map .string) ++
    Document.member? "default" (parameter.default.map .ofText) ++
    [("is_required", .boolean parameter.required)])

def texts (parameter : Parameter) : List Bytes := parameter.hint.toList

def defaults (parameter : Parameter) : List Bytes := parameter.default.toList

end Parameter

namespace Callable

def tree (callable : Callable) : Document :=
  .record [
    ("module", .string callable.module),
    ("name", .string callable.name),
    ("type", .string callable.kind.name),
    ("return_annotation", callable.returns.elim .null .string),
    ("parameters", .object (callable.parameters.map fun p => (p.name, p.tree)))]

def texts (callable : Callable) : List Bytes :=
  callable.module :: callable.name :: callable.returns.toList ++
    callable.parameters.flatMap (·.texts)

def defaults (callable : Callable) : List Bytes := callable.parameters.flatMap (·.defaults)

end Callable

namespace UpgradeStep

def tree (step : UpgradeStep) : Document :=
  .record (
    [("name", .string step.name),
      ("func", step.function.tree),
      ("target_version", .string step.target),
      ("upgrade_type", .string step.kind.name),
      ("priority", .number step.priority)] ++
    Document.member? "min_version" (step.minVersion.map .string) ++
    Document.member? "max_version" (step.maxVersion.map .string))

def texts (step : UpgradeStep) : List Bytes :=
  step.name :: step.function.texts ++ step.target ::
    (step.minVersion.toList ++ step.maxVersion.toList)

def defaults (step : UpgradeStep) : List Bytes := step.function.defaults

end UpgradeStep

namespace Value

def tree : Value → Document
  | .null => .null
  | .boolean value => .boolean value
  | .string text | .expression text => .string text
  | .emptyArray => .array []
  | .callable target => target.tree
  | .steps list => .array (list.map (·.tree))

def texts : Value → List Bytes
  | .null | .boolean _ | .emptyArray => []
  | .string text | .expression text => [text]
  | .callable target => target.texts
  | .steps list => list.flatMap (·.texts)

def defaults : Value → List Bytes
  | .null | .boolean _ | .emptyArray | .string _ | .expression _ => []
  | .callable target => target.defaults
  | .steps list => list.flatMap (·.defaults)

end Value

namespace Plugin

/-- The optional members are there only with a value. -/
def tree (plugin : Plugin) : Document :=
  .record (
    [("name", .string plugin.name),
      ("plugin_type", .string plugin.kind.name),
      ("obj", plugin.callable.tree)] ++
    Document.member? "call_method" (plugin.callMethod.map .string) ++
    Document.member? "config" (plugin.config.map (·.tree)) ++
    Document.member? "io_type" (plugin.ioType.map .string) ++
    Document.member? "requires_store" (plugin.requiresStore.map .boolean) ++
    Document.member? "version_strategy" (plugin.versionStrategy.map (·.tree)) ++
    Document.member? "version_reader" (plugin.versionReader.map (·.tree)) ++
    Document.member? "upgrade_steps"
      (plugin.upgradeSteps.map fun steps => .array (steps.map (·.tree))) ++
    Document.member? "description" (plugin.description.map .string))

def texts (plugin : Plugin) : List Bytes :=
  plugin.name :: plugin.callable.texts ++ plugin.callMethod.toList ++
    plugin.config.toList.flatMap (·.texts) ++ plugin.ioType.toList ++
    plugin.versionStrategy.toList.flatMap (·.texts) ++
    plugin.versionReader.toList.flatMap (·.texts) ++
    plugin.upgradeSteps.toList.flatMap (·.flatMap (·.texts)) ++ plugin.description.toList

def defaults (plugin : Plugin) : List Bytes :=
  plugin.callable.defaults ++ plugin.config.toList.flatMap (·.defaults) ++
    plugin.versionStrategy.toList.flatMap (·.defaults) ++
    plugin.versionReader.toList.flatMap (·.defaults) ++
    plugin.upgradeSteps.toList.flatMap (·.flatMap (·.defaults))

end Plugin

namespace Manifest

def tree (manifest : Manifest) : Document :=
  .record [
    ("name", .string manifest.name),
    ("plugins", .array (manifest.plugins.map (·.tree))),
    ("metadata", .object [])]

/-- The texts that become string values. The names of parameters become keys. -/
def texts (manifest : Manifest) : List Bytes :=
  manifest.name :: manifest.plugins.flatMap (·.texts)

def defaults (manifest : Manifest) : List Bytes := manifest.plugins.flatMap (·.defaults)

end Manifest

end ManifestScan
