import ManifestScan.Problem
import ManifestScan.Text.Name

namespace ManifestScan

structure Binding where
  module : Bytes
  /-- The name in that module. -/
  name : Bytes
deriving DecidableEq, Repr

structure ImportTable where
  entries : List (Bytes × Binding)
deriving Repr

namespace ImportTable

def empty : ImportTable := ⟨[]⟩

def size (table : ImportTable) : Nat := table.entries.length

def find? (table : ImportTable) (name : Bytes) : Option Binding := table.entries.lookup name

/-- The new binding takes the place of an older one. -/
def insert (table : ImportTable) (name : Bytes) (binding : Binding) : ImportTable :=
  ⟨(name, binding) :: table.entries.filter (·.1 != name)⟩

end ImportTable

namespace Import

/-- The package that lies so many levels above the given one. -/
def climb : Nat → Bytes → Option Bytes
  | 0, package => some package
  | levels + 1, package =>
    match splitLast? dot package with
    | none => none
    | some (outer, _) => climb levels outer

/-- The module that a written module path names inside a package. One leading dot is the package
itself, each further one the package around it. A path that leads above the outermost package
stays as it is written. -/
def moduleOf (package written : Bytes) : Bytes :=
  let dots := written.takeWhile (· == dot)
  let remainder := written.drop dots.length
  if dots.isEmpty ∨ package.isEmpty then written
  else
    match climb (dots.length - 1) package with
    | none => written
    | some base => if remainder.isEmpty then base else base ++ dot :: remainder

/-- The local name and the name in the module for one entry of an import list. -/
def nameOf? (entry : Bytes) : Option (Bytes × Bytes) :=
  let entry := trim (entry.filter fun b => b != leftParen && b != rightParen && b != comma)
  let (name, rest) := firstWord entry
  let (mark, rest) := firstWord rest
  let localName := if mark = ascii "as" then (firstWord rest).1 else name
  if isIdentifier name ∧ isIdentifier localName then some (localName, name) else none

/-- A statement `from module import list`. -/
structure Statement where
  module : Bytes
  list : Bytes

/-- Reads one line, whose first `#` starts a comment. -/
def statement? (line : Bytes) : Option Statement :=
  let line := trim ((trim line).takeWhile (· != hash))
  match afterWord? (ascii "from") line with
  | none => none
  | some rest =>
    let (module, rest') := firstWord rest
    let (keyword, rest') := firstWord rest'
    let list := trim rest'
    if rest.head?.any isSpace ∧ keyword = ascii "import" ∧ list ≠ [] then some ⟨module, list⟩
    else none

/-- The names of a statement, unless its list goes on in the next line. -/
def names (line : Nat) (statement : Statement) : Except Warning (List (Bytes × Bytes)) :=
  if statement.list.getLast? = some backslash then .error (.continuedImport line)
  else if statement.list.contains leftParen ∧ !statement.list.contains rightParen then
    .error (.openImportList line)
  else .ok ((fields comma statement.list).filterMap nameOf?)

end Import

structure Imports where
  table : ImportTable
  warnings : List Warning

namespace Imports

def addLine (package : Bytes) (imports : Imports) (line : Nat) (text : Bytes) : Imports :=
  match Import.statement? text with
  | none => imports
  | some statement =>
    match Import.names line statement with
    | .error warning => { imports with warnings := imports.warnings ++ [warning] }
    | .ok names =>
      let module := Import.moduleOf package statement.module
      { imports with
        table := names.foldl (fun table (localName, name) =>
          table.insert localName ⟨module, name⟩) imports.table }

def addLines (package : Bytes) (imports : Imports) (line : Nat) : List Bytes → Imports
  | [] => imports
  | text :: rest => addLines package (imports.addLine package line text) (line + 1) rest

def ofSource (package source : Bytes) : Imports :=
  addLines package ⟨ImportTable.empty, []⟩ 1 (lines source)

end Imports

end ManifestScan
