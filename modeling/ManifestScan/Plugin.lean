import ManifestScan.Outline

namespace ManifestScan

inductive PluginKind where
  | reader
  | exporter
  | modifier
  | upgrader
  | utility
deriving DecidableEq, Repr

namespace PluginKind

def name : PluginKind → Bytes
  | .reader => ascii "parser"
  | .exporter => ascii "exporter"
  | .modifier => ascii "function"
  | .upgrader => ascii "upgrader"
  | .utility => ascii "utility"

/-- The constructors that register a plugin, and the kind that each registers. -/
def constructors : List (Bytes × PluginKind) :=
  [(ascii "ParserPlugin", .reader), (ascii "ExporterPlugin", .exporter),
    (ascii "UpgraderPlugin", .upgrader), (ascii "BasePlugin", .modifier),
    (ascii "PluginSpec.parser", .reader), (ascii "PluginSpec.exporter", .exporter),
    (ascii "PluginSpec.function", .modifier), (ascii "PluginSpec.upgrader", .upgrader),
    (ascii "PluginSpec.utility", .utility)]

def callees : List Bytes := constructors.map (·.1)

def ofConstructor? (callee : Bytes) : Option PluginKind := constructors.lookup callee

end PluginKind

structure Parameter where
  name : Bytes
  /-- The text of the type hint. -/
  hint : Option Bytes
  /-- The default value as the text of a document. -/
  default : Option Bytes
  required : Bool
deriving DecidableEq, Repr

structure Callable where
  module : Bytes
  name : Bytes
  kind : CallableKind
  returns : Option Bytes
  parameters : List Parameter
deriving DecidableEq, Repr

inductive UpgradeKind where
  | file
  | system
  | unknown
deriving DecidableEq, Repr

def UpgradeKind.name : UpgradeKind → Bytes
  | .file => ascii "FILE"
  | .system => ascii "SYSTEM"
  | .unknown => ascii "UNKNOWN"

structure UpgradeStep where
  name : Bytes
  function : Callable
  target : Bytes
  kind : UpgradeKind
  priority : Int
  minVersion : Option Bytes
  maxVersion : Option Bytes
deriving DecidableEq, Repr

inductive Value where
  | null
  | boolean (value : Bool)
  | string (text : Bytes)
  | emptyArray
  | callable (target : Callable)
  | steps (list : List UpgradeStep)
  /-- An expression that is kept as its text. -/
  | expression (text : Bytes)
deriving DecidableEq, Repr

structure Plugin where
  name : Bytes
  kind : PluginKind
  callable : Callable
  config : Option Callable
  callMethod : Option Bytes
  ioType : Option Bytes
  requiresStore : Option Bool
  versionStrategy : Option Value
  versionReader : Option Value
  upgradeSteps : Option (List UpgradeStep)
  description : Option Bytes
deriving DecidableEq, Repr

structure Manifest where
  name : Bytes
  plugins : List Plugin
deriving DecidableEq, Repr

end ManifestScan
