import ManifestScan.EntryPoint
import ManifestScan.Problem
import ManifestScan.SourceIndex

namespace ManifestScan

structure EntryQuery where
  directory : FilePath
  distribution : Bytes
  version : Option Bytes
  environment : FilePath
  group : Bytes
deriving DecidableEq, Repr

structure EntryFile where
  path : FilePath
  package : Bytes
  /-- The registration function that an entry-point index names. -/
  function : Option Bytes
  fromIndex : Bool
deriving DecidableEq, Repr

namespace EntryFile

def defaultGroup : Bytes := ascii "r2x_plugin"

def fileNames : List Bytes := [ascii "plugins.py", ascii "plugin.py"]

/-- The names of the packages around a directory, innermost first; `names` is the chain of
directories from there to the root. -/
def packages (tree : FileTree) : List Bytes → List Bytes
  | [] => []
  | name :: outer =>
    let directory := slash :: joinWith [slash] (name :: outer).reverse
    if tree.isFile (FilePath.join directory SourceIndex.packageMarker) then
      name :: packages tree outer
    else []

/-- The dotted package of a script. A script outside all packages has its directory's name. -/
def packageOf (tree : FileTree) (script : FilePath) : Bytes :=
  let path := (tree.absolute? script).getD script
  let directory := FilePath.parent (FilePath.normal path)
  let found := packages tree (FilePath.names directory).reverse
  if found.isEmpty then FilePath.fileName directory else joinWith [dot] found.reverse

def sitePackages (tree : FileTree) (environment : FilePath) : List FilePath :=
  if environment.isEmpty then []
  else
    let versions := (tree.subdirectories (FilePath.join environment (ascii "lib"))).filter
      (startsWith (ascii "python") <| FilePath.fileName ·)
    let others := FilePath.join (FilePath.join environment (ascii "Lib")) (ascii "site-packages")
    (versions.map (FilePath.join · (ascii "site-packages")) ++ [others]).filter tree.isDirectory

def installedName (distribution : Bytes) : Bytes :=
  distribution.map fun b => if b = 0x2D ∨ b = dot then 0x5F else b

def metadata? (tree : FileTree) (site : FilePath) (distribution : Bytes) (version : Option Bytes) :
    Option FilePath :=
  let stem := installedName distribution ++ ascii "-"
  match version with
  | some version =>
    let exact := FilePath.join site (stem ++ version ++ ascii ".dist-info")
    if tree.isDirectory exact then some exact else none
  | none =>
    (tree.subdirectories site).find? fun directory =>
      startsWith stem (FilePath.fileName directory) &&
        FilePath.extension directory == ascii ".dist-info"

def ofModule? (tree : FileTree) (site : FilePath) (module : Bytes) : Option (FilePath × Bytes) :=
  let relative := module.map fun b => if b = dot then slash else b
  let script := FilePath.join site (relative ++ SourceIndex.scriptExtension)
  let package := FilePath.join (FilePath.join site relative) SourceIndex.packageMarker
  if tree.isFile script then some (script, ((splitLast? dot module).map (·.1)).getD [])
  else if tree.isFile package then some (package, module)
  else none

def index? (tree : FileTree) (query : EntryQuery) (site : FilePath) : Option FilePath :=
  ((metadata? tree site query.distribution query.version).map
    (FilePath.join · (ascii "entry_points.txt"))).filter tree.isFile

def inSite (tree : FileTree) (query : EntryQuery) (site : FilePath) :
    Option EntryFile × List Warning :=
  match index? tree query site with
  | none => (none, [])
  | some path =>
    match tree.read? path with
    | none => (none, [.unreadableIndex path])
    | some text =>
      match EntryPoint.find? text query.group with
      | none => (none, [])
      | some entry =>
        match ofModule? tree site entry.module with
        | some (path, package) =>
          (some ⟨FilePath.normal path, package, entry.function, true⟩, [])
        | none => (none, [.missingEntryModule entry.module site])

/-- Goes through the directories of installed packages up to the first that tells it. -/
def throughIndex (tree : FileTree) (query : EntryQuery) :
    List FilePath → Option EntryFile × List Warning
  | [] => (none, [])
  | site :: others =>
    match inSite tree query site with
    | (some file, warnings) => (some file, warnings)
    | (none, warnings) =>
      let (found, more) := throughIndex tree query others
      (found, warnings ++ more)

/-- The registration file that lies directly in a directory. -/
def inDirectory? (tree : FileTree) (directory : FilePath) : Option EntryFile :=
  ((fileNames.map (FilePath.join directory)).find? tree.isFile).map fun path =>
    ⟨FilePath.normal path, packageOf tree (FilePath.normal path), none, false⟩

/-- The registration file in a directory or in one of its subdirectories. -/
def byName? (tree : FileTree) (directory : FilePath) : Option EntryFile :=
  if directory.isEmpty then none
  else
    let inner := (tree.subdirectories directory).filter fun path =>
      !SourceIndex.isExcluded (FilePath.fileName path)
    (directory :: inner).findSome? (inDirectory? tree)

/-- Finds a registration file, first through the entry points of the installed distribution and
then by its name. -/
def find (tree : FileTree) (query : EntryQuery) : Except Failure EntryFile × List Warning :=
  let (indexed, warnings) :=
    if query.environment.isEmpty ∨ query.distribution.isEmpty then (none, [])
    else throughIndex tree query (sitePackages tree query.environment)
  match indexed.or (byName? tree query.directory) with
  | some file => (.ok file, warnings)
  | none => (.error (.missingEntryFile query.directory), warnings)

end EntryFile

/-- What the search for a registration file leaves: a file, diagnostics and an error beside them. -/
structure EntrySearch where
  file : Option EntryFile
  diagnostics : List Diagnostic
  error : Option Diagnostic

/-- What the search leaves as it goes from the entry points to the names; `EntryFile.find` gives
its outcome. -/
def EntryFile.locate (tree : FileTree) (query : EntryQuery) : EntrySearch :=
  let (indexed, warnings) :=
    if !query.environment.isEmpty ∧ !query.distribution.isEmpty then
      throughIndex tree query (sitePackages tree query.environment)
    else (none, [])
  let file := if indexed.isSome then indexed else byName? tree query.directory
  ⟨file, warnings.map (·.diagnostic),
    if file.isSome then none else some (Failure.missingEntryFile query.directory).diagnostic⟩

end ManifestScan
