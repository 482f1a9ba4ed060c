import ManifestScan.EntryFile
import ManifestScan.Extraction
import ManifestScan.Extraction.Workspace
import ManifestScan.Registration.Textual
import ManifestScan.Registration.Tree

namespace ManifestScan

/-- Extracts manifests one after the other. What the first extraction settles stays: the search
root, the registration function and the indexes. -/
structure Extractor where
  request : ExtractionRequest
  convention : Convention
  indexes : IndexCache

namespace Extractor

def ofRequest (request : ExtractionRequest) : Extractor :=
  ⟨request, ⟨request.function.getD Convention.default.function, request.list⟩, .empty⟩

def roots (extractor : Extractor) : List FilePath :=
  [extractor.request.searchRoot, extractor.request.environment,
    extractor.request.workingDirectory].filter (!·.isEmpty)

def foundNote (strategy : Strategy) (found : List Registration) : Bytes :=
  strategy.name ++ ascii " locator found " ++ decimal found.length ++
    ascii " registration calls"

/-- Looks for the registrations of a source, with notes on how that went. The automatic strategy
falls back from the tree to the text. -/
def registrations (strategy : Strategy) (convention : Convention) (source : Bytes) :
    Except Failure (List Registration) × List Bytes :=
  match strategy with
  | .text => (convention.searchText source, [])
  | .tree =>
    let found := convention.searchTree source
    (found, [foundNote .tree (found.toOption.getD [])])
  | .automatic =>
    match convention.searchTree source with
    | .ok found => (.ok found, [foundNote .tree found])
    | .error failure =>
      let failed := ascii "tree locator failed (" ++ failure.message ++
        ascii "); falling back to the text locator"
      match convention.searchText source with
      | .ok found => (.ok found, [failed, foundNote .text found])
      | .error failure => (.error failure, [failed])

def extractSource (extractor : Extractor) (tree : FileTree) (source package : Bytes) :
    Extraction × Extractor :=
  let imports := Imports.ofSource package source
  let resolved := ascii "resolved " ++ decimal imports.table.size ++ ascii " imported symbols"
  match registrations extractor.request.strategy extractor.convention source with
  | (.error failure, notes) => (⟨.error failure, imports.warnings, resolved :: notes⟩, extractor)
  | (.ok found, notes) =>
    let workspace : Workspace :=
      ⟨tree, imports.table, extractor.roots, extractor.request.searchRoot⟩
    let (plugins, progress) := workspace.buildPlugins 1 []
      (.start extractor.indexes imports.warnings (resolved :: notes)) found
    (⟨.ok ⟨extractor.request.packageName, plugins⟩,
        progress.warnings ++ progress.signatures.warnings, progress.notes⟩,
      { extractor with indexes := progress.indexes })

/-- Takes over the registration function that an entry point names unless one was asked for. -/
def withFunction (extractor : Extractor) (function : Option Bytes) : Extractor :=
  match extractor.request.function, function with
  | none, some function =>
    { extractor with convention := { extractor.convention with function := function } }
  | _, _ => extractor

structure Located where
  file : Except Failure (FilePath × Bytes)
  extractor : Extractor
  warnings : List Warning
  notes : List Bytes

def locate (extractor : Extractor) (tree : FileTree) : Located :=
  let request := extractor.request
  if request.entryFile.isEmpty then
    match EntryFile.find tree ⟨request.packageDirectory, request.packageName, request.version,
      request.environment, request.group⟩ with
    | (.error failure, warnings) => ⟨.error failure, extractor, warnings, []⟩
    | (.ok file, warnings) =>
      let how := if file.fromIndex then "through the entry-point index: " else "by file name: "
      ⟨.ok (file.path, file.package), extractor.withFunction file.function, warnings,
        [ascii "entry file located " ++ ascii how ++ file.path]⟩
  else
    let path := FilePath.normal ((tree.absolute? request.entryFile).getD request.entryFile)
    ⟨.ok (path, EntryFile.packageOf tree path), extractor, [], []⟩

/-- Without a search root, the package's or the registration file's directory becomes it. -/
def settleRoot (extractor : Extractor) (file : FilePath) : Extractor :=
  let request := extractor.request
  let root :=
    if !request.searchRoot.isEmpty then request.searchRoot
    else if request.packageDirectory.isEmpty then FilePath.parent file
    else request.packageDirectory
  { extractor with request := { request with searchRoot := root } }

def extract (extractor : Extractor) (tree : FileTree) : Extraction × Extractor :=
  let located := extractor.locate tree
  match located.file with
  | .error failure => (⟨.error failure, located.warnings, located.notes⟩, located.extractor)
  | .ok (path, package) =>
    let extractor := located.extractor.settleRoot path
    match tree.read? path with
    | none =>
      (⟨.error (.unreadableEntryFile path (tree.isPresent path)), located.warnings,
        located.notes⟩, extractor)
    | some source =>
      let (extraction, extractor) := extractor.extractSource tree source package
      (extraction.after located.warnings located.notes, extractor)

end Extractor

end ManifestScan
