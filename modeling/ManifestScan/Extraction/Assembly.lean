import ManifestScan.Extraction.Extractor

namespace ManifestScan

/-- What one registration gives: a record, or an error without one. -/
structure RecordOutcome where
  record : Option Plugin
  error : Option Diagnostic

def RecordOutcome.of : Except Failure Plugin → RecordOutcome
  | .ok plugin => ⟨some plugin, none⟩
  | .error failure => ⟨none, some failure.diagnostic⟩

structure Assembly where
  indexes : IndexCache
  signatures : SignatureMemo
  /-- The roots whose issues are reported. -/
  reported : List FilePath
  plugins : List Plugin
  report : Report

namespace Assembly

def start (indexes : IndexCache) (report : Report) : Assembly := ⟨indexes, .empty, [], [], report⟩

def push (assembly : Assembly) (diagnostic : Diagnostic) : Assembly :=
  { assembly with report := assembly.report.push [diagnostic] }

def keep (assembly : Assembly) (plugin : Plugin) : Assembly :=
  { assembly with
    plugins := assembly.plugins ++ [plugin]
    report := assembly.report.note [ascii "plugin " ++ named plugin.name ++ ascii " -> " ++
      plugin.callable.module ++ ascii ":" ++ plugin.callable.name] }

end Assembly

namespace Workspace

/-- What stands for the error of a registration that gives neither a record nor an error. -/
def unassembled : Diagnostic :=
  .error (ascii "MEX-E3100") .invalidSyntax (ascii "Registration could not be assembled.")

/-- Builds the record of a registration; what is reported on the way is pushed at once. -/
def buildRecord (workspace : Workspace) (registration : Registration) (assembly : Assembly) :
    RecordOutcome × Assembly :=
  let (built, progress) := workspace.buildPlugin registration
    ⟨assembly.indexes, assembly.signatures, assembly.reported, [], []⟩
  (.of built, { assembly with
    indexes := progress.indexes
    signatures := progress.signatures
    reported := progress.reported
    report := (assembly.report.push (progress.warnings.map (·.diagnostic))).note progress.notes })

/-- Takes in one registration. An error becomes a warning that names the registration. -/
def assembleCall (workspace : Workspace) (ordinal : Nat) (registration : Registration)
    (assembly : Assembly) : Assembly :=
  let (outcome, assembly) := workspace.buildRecord registration assembly
  match outcome.record with
  | none => assembly.push ((outcome.error.getD unassembled).demote ordinal registration.callee)
  | some plugin =>
    if assembly.plugins.any (·.name == plugin.name) then
      assembly.push (Warning.duplicateName plugin.name ordinal registration.callee).diagnostic
    else assembly.keep plugin

/-- Takes in registrations, the first of which has the given ordinal. -/
def assembleCalls (workspace : Workspace) (ordinal : Nat) (assembly : Assembly) :
    List Registration → Assembly
  | [] => assembly
  | registration :: others =>
    assembleCalls workspace (ordinal + 1) (workspace.assembleCall ordinal registration assembly)
      others

end Workspace

namespace Extractor

variable (extractor : Extractor)

/-- The calls of a source, with notes on how they were located. The error of the tree is left behind
where the automatic strategy goes on with the text. -/
def locateCalls (source : Bytes) (report : Report) : LocatedCalls × Report :=
  if extractor.request.strategy = .text then (extractor.convention.locateText source, report)
  else
    let located := extractor.convention.locateTree source
    match located.error, extractor.request.strategy with
    | some error, .automatic =>
      let report := report.note [ascii "tree locator failed (" ++ error.message ++
        ascii "); falling back to the text locator"]
      let fallback := extractor.convention.locateText source
      if fallback.error.isNone then (fallback, report.note [foundNote .text fallback.calls])
      else (fallback, report)
    | _, _ => (located, report.note [foundNote .tree located.calls])

def assemble (tree : FileTree) (source package : Bytes) : Report × Extractor :=
  let imports := Imports.ofSource package source
  let report := (Report.empty.push (imports.warnings.map (·.diagnostic))).note
    [ascii "resolved " ++ decimal imports.table.size ++ ascii " imported symbols"]
  let (located, report) := extractor.locateCalls source report
  match located.error with
  | some error => (report.push [error], extractor)
  | none =>
    let workspace : Workspace :=
      ⟨tree, imports.table, extractor.roots, extractor.request.searchRoot⟩
    let assembly := workspace.assembleCalls 1 (.start extractor.indexes report) located.calls
    let report := assembly.report.push (assembly.signatures.warnings.map (·.diagnostic))
    ({ report with manifest := some ⟨extractor.request.packageName, assembly.plugins⟩ },
      { extractor with indexes := assembly.indexes })

/-- Reads a registration file and assembles its manifest behind what is reported already. -/
def assembleFile (tree : FileTree) (path : FilePath) (package : Bytes) (report : Report) :
    Report × Extractor :=
  let extractor := extractor.settleRoot path
  match tree.read? path with
  | none =>
    (report.push [(Failure.unreadableEntryFile path (tree.isPresent path)).diagnostic], extractor)
  | some source =>
    let (assembled, extractor) := extractor.assemble tree source package
    ({ (report.push assembled.diagnostics).note assembled.notes with
      manifest := assembled.manifest }, extractor)

def report (tree : FileTree) : Report × Extractor :=
  let request := extractor.request
  if request.entryFile.isEmpty then
    let found := EntryFile.locate tree ⟨request.packageDirectory, request.packageName,
      request.version, request.environment, request.group⟩
    let report := Report.empty.push found.diagnostics
    match found.error, found.file with
    | none, some file =>
      let how := if file.fromIndex then "through the entry-point index: " else "by file name: "
      (extractor.withFunction file.function).assembleFile tree file.path file.package
        (report.note [ascii "entry file located " ++ ascii how ++ file.path])
    | error, _ => (report.push error.toList, extractor)
  else
    let path := FilePath.normal ((tree.absolute? request.entryFile).getD request.entryFile)
    extractor.assembleFile tree path (EntryFile.packageOf tree path) .empty

end Extractor

end ManifestScan
