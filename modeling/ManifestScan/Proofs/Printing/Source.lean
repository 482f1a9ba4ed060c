import ManifestScan.Classification
import ManifestScan.Manifest.Draft
import ManifestScan.Proofs.Text.Quote

namespace ManifestScan

inductive Setting where
  | name (text : Bytes)
  | callable (symbol : Bytes)
  | callMethod (text : Bytes)
  | ioType (text : Bytes)
  | description (text : Bytes)
  | requiresStore (flag : Bool)
  | config (symbol : Bytes)

namespace Setting

def field : Setting → Draft.Field
  | .name _ => .name
  | .callable _ => .callable
  | .callMethod _ => .callMethod
  | .ioType _ => .ioType
  | .description _ => .description
  | .requiresStore _ => .requiresStore
  | .config _ => .config

def key : Setting → Bytes
  | .name _ => ascii "name"
  | .callable _ => ascii "obj"
  | .callMethod _ => ascii "call_method"
  | .ioType _ => ascii "io_type"
  | .description _ => ascii "description"
  | .requiresStore _ => ascii "requires_store"
  | .config _ => ascii "config"

def expression : Setting → Bytes
  | .name text | .callMethod text | .ioType text | .description text => Literal.quote text
  | .callable symbol | .config symbol => symbol
  | .requiresStore flag => if flag then ascii "True" else ascii "False"

def text (setting : Setting) : Bytes := setting.key ++ equals :: setting.expression

def symbol? : Setting → Option Bytes
  | .callable symbol | .config symbol => some symbol
  | _ => none

end Setting

/-- What a registration says about its plugin, with callables by the names that they are
imported under. -/
structure Blueprint where
  callee : Bytes
  kind : PluginKind
  callee_kind : PluginKind.ofConstructor? callee = some kind
  name : Bytes
  name_ne : name ≠ []
  symbol : Bytes
  callMethod : Option Bytes
  ioType : Option Bytes
  description : Option Bytes
  requiresStore : Option Bool
  config : Option Bytes

namespace Blueprint

def settings (blueprint : Blueprint) : List Setting :=
  .name blueprint.name :: .callable blueprint.symbol ::
    (blueprint.callMethod.toList.map .callMethod ++ (blueprint.ioType.toList.map .ioType ++
      (blueprint.description.toList.map .description ++
        (blueprint.requiresStore.toList.map .requiresStore ++
          blueprint.config.toList.map .config))))

def arguments (blueprint : Blueprint) : Bytes :=
  joinWith [comma, space] (blueprint.settings.map Setting.text)

def call (blueprint : Blueprint) : Bytes :=
  blueprint.callee ++ leftParen :: (blueprint.arguments ++ [rightParen])

def line (blueprint : Blueprint) : Bytes := ascii "        " ++ blueprint.call ++ [comma]

end Blueprint

/-- The names that are values of their own. -/
def constants : List Bytes := [ascii "None", ascii "True", ascii "False"]

def isSymbol (text : Bytes) : Bool := isIdentifier text && !constants.contains text

theorem isIdentifier_of_isSymbol {text : Bytes} (h : isSymbol text = true) :
    isIdentifier text = true := by
  simp only [isSymbol, Bool.and_eq_true] at h
  exact h.1

/-- Names joined by dots, the first of which is behind no dot. -/
def isModulePath (text : Bytes) : Bool := (fields dot text).all isIdentifier

/-- Imported names with their modules, and what is registered with them. -/
structure Catalog where
  imports : List (Bytes × Bytes)
  symbols : ∀ entry ∈ imports, isSymbol entry.1 = true
  modules : ∀ entry ∈ imports, isModulePath entry.2 = true
  symbols_nodup : (imports.map (·.1)).Nodup
  blueprints : List Blueprint
  blueprints_ne : blueprints ≠ []
  names_nodup : (blueprints.map (·.name)).Nodup
  imported : ∀ blueprint ∈ blueprints, ∀ symbol ∈ blueprint.symbol :: blueprint.config.toList,
    symbol ∈ imports.map (·.1)

namespace Catalog

def importLine (entry : Bytes × Bytes) : Bytes :=
  ascii "from " ++ entry.2 ++ ascii " import " ++ entry.1

theorem importLine_eq (entry : Bytes × Bytes) :
    importLine entry = ascii "from" ++ ([space] ++ (entry.2 ++
      ([space] ++ (ascii "import" ++ ([space] ++ entry.1))))) := by
  have hf : ascii "from " = ascii "from" ++ [space] := by decide
  have hi : ascii " import " = [space] ++ (ascii "import" ++ [space]) := by decide
  rw [importLine, hf, hi]
  simp only [List.append_assoc]

def lines (catalog : Catalog) : List Bytes :=
  catalog.imports.map importLine ++
    (ascii "def register_plugin():" :: ascii "    return Package(plugins=[" ::
      (catalog.blueprints.map Blueprint.line ++ [ascii "    ])"]))

def source (catalog : Catalog) : Bytes := catalog.lines.flatMap (· ++ [lineFeed])

/-- The callable that an imported name stands for, with nothing known of its signature. -/
def callable (catalog : Catalog) (symbol : Bytes) : Callable :=
  ⟨(catalog.imports.lookup symbol).getD [], symbol, .ofName symbol, none, []⟩

def plugin (catalog : Catalog) (blueprint : Blueprint) : Plugin where
  name := blueprint.name
  kind := blueprint.kind
  callable := catalog.callable blueprint.symbol
  config := blueprint.config.map catalog.callable
  callMethod := blueprint.callMethod
  ioType := blueprint.ioType
  requiresStore := blueprint.requiresStore
  versionStrategy := none
  versionReader := none
  upgradeSteps := none
  description := blueprint.description

end Catalog

end ManifestScan
