import ManifestScan.Problem
import ManifestScan.Signature
import ManifestScan.SourceIndex

namespace ManifestScan

/-- The signatures looked up so far, each under its module and name, and what could not be read. -/
structure SignatureMemo where
  entries : List (Bytes × Option Signature)
  warnings : List Warning
deriving Repr

namespace SignatureMemo

def empty : SignatureMemo := ⟨[], []⟩

def key (module name : Bytes) : Bytes := module ++ colon :: name

end SignatureMemo

/-- What a search for a signature finds, and what could not be read before that. -/
structure SignatureSearch where
  found : Option Signature
  warnings : List Warning

def SignatureSearch.behind (search : SignatureSearch) (warnings : List Warning) : SignatureSearch :=
  { search with warnings := warnings ++ search.warnings }

namespace Signature

def moduleParts (module : Bytes) : List Bytes := (fields dot module).filter (!·.isEmpty)

/-- The file and the package that a chain of names stands for below a directory. -/
def direct (directory : FilePath) (parts : List Bytes) : List FilePath :=
  if parts.isEmpty then []
  else
    let base := FilePath.joinAll directory parts
    [base ++ SourceIndex.scriptExtension, FilePath.join base SourceIndex.packageMarker]

def ownName (root : FilePath) : Bytes :=
  let root := FilePath.normal root
  let name := FilePath.fileName root
  if name.isEmpty then FilePath.fileName (FilePath.parent root) else name

/-- The files below a root that may define a module, the likeliest first. -/
def candidates (tree : FileTree) (index : SourceIndex) (root : FilePath) (parts : List Bytes) :
    List FilePath :=
  let inside := if some (ownName root) = parts.head? then direct root (parts.drop 1) else []
  let named := match parts.getLast? with
    | none => []
    | some last => index.filesNamed (last ++ SourceIndex.scriptExtension)
  ((direct root parts ++ inside ++ named).map FilePath.normal).foldl (fun found path =>
    if tree.isFile path ∧ !found.contains path then found ++ [path] else found) []

/-- The first signature that one of the files gives, with the files before it that could
not be read. -/
def inFiles (tree : FileTree) (name : Bytes) (kind : CallableKind) :
    List FilePath → SignatureSearch
  | [] => ⟨none, []⟩
  | file :: others =>
    match tree.read? file with
    | none => (inFiles tree name kind others).behind [.unreadableModule file]
    | some source =>
      match find? source name kind with
      | some signature => ⟨some signature, []⟩
      | none => inFiles tree name kind others

def search (tree : FileTree) (parts : List Bytes) (name : Bytes) (kind : CallableKind)
    (indexes : IndexCache) : List FilePath → SignatureSearch × IndexCache
  | [] => (⟨none, []⟩, indexes)
  | root :: others =>
    if root.isEmpty ∨ parts.isEmpty then search tree parts name kind indexes others
    else
      let (index, indexes) := indexes.lookUp tree root
      let here := inFiles tree name kind (candidates tree index root parts)
      if here.found.isSome then (here, indexes)
      else
        let (there, indexes) := search tree parts name kind indexes others
        (there.behind here.warnings, indexes)

/-- Looks a signature up once; a later look-up of that module and name gets the same answer. -/
def lookUp (tree : FileTree) (roots : List FilePath) (module name : Bytes) (kind : CallableKind)
    (memo : SignatureMemo) (indexes : IndexCache) :
    Option Signature × SignatureMemo × IndexCache :=
  match memo.entries.lookup (SignatureMemo.key module name) with
  | some known => (known, memo, indexes)
  | none =>
    let (result, indexes) := search tree (moduleParts module) name kind indexes roots
    (result.found, ⟨(SignatureMemo.key module name, result.found) :: memo.entries,
      memo.warnings ++ result.warnings⟩, indexes)

end Signature

namespace Callable

/-- Takes over what a signature says. Only a function keeps a return annotation. -/
def withSignature (callable : Callable) (signature : Signature) : Callable :=
  { callable with
    parameters := signature.parameters
    returns := if callable.kind = .function then signature.returns else callable.returns }

def complete (tree : FileTree) (roots : List FilePath) (callable : Callable) (memo : SignatureMemo)
    (indexes : IndexCache) : Callable × SignatureMemo × IndexCache :=
  if callable.module.isEmpty ∨ callable.name.isEmpty then (callable, memo, indexes)
  else
    let (found, memo, indexes) :=
      Signature.lookUp tree roots callable.module callable.name callable.kind memo indexes
    (found.elim callable callable.withSignature, memo, indexes)

end Callable

end ManifestScan
