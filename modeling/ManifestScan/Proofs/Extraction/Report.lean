import ManifestScan.Extraction.Assembly
import ManifestScan.Proofs.Extraction.Congruence
import ManifestScan.Proofs.Listing.Located

namespace ManifestScan

theorem Failure.demote_diagnostic (failure : Failure) (ordinal : Nat) (callee : Bytes) :
    failure.diagnostic.demote ordinal callee =
      (Warning.skippedRegistration ordinal callee failure).diagnostic := rfl

namespace Extraction

theorem report_error (failure : Failure) (warnings : List Warning) (notes : List Bytes) :
    (Extraction.mk (.error failure) warnings notes).report =
      ⟨none, warnings.map (·.diagnostic) ++ [failure.diagnostic], notes⟩ := by
  simp only [report, problems, failure?, manifest?, Except.toOption, Option.map_some,
    Option.toList_some, List.map_append, List.map_map, List.map_singleton]
  rfl

theorem report_ok (manifest : Manifest) (warnings : List Warning) (notes : List Bytes) :
    (Extraction.mk (.ok manifest) warnings notes).report =
      ⟨some manifest, warnings.map (·.diagnostic), notes⟩ := by
  simp only [report, problems, failure?, manifest?, Except.toOption, Option.map_none,
    Option.toList_none, List.append_nil, List.map_map]
  rfl

theorem report_after (extraction : Extraction) (warnings : List Warning) (notes : List Bytes) :
    (extraction.after warnings notes).report =
      ⟨extraction.report.manifest, warnings.map (·.diagnostic) ++ extraction.report.diagnostics,
        notes ++ extraction.report.notes⟩ := by
  obtain ⟨outcome, own, remarks⟩ := extraction
  cases outcome with
  | error failure => rw [after, report_error, report_error, List.map_append, List.append_assoc]
  | ok manifest => rw [after, report_ok, report_ok, List.map_append]

end Extraction

/-- The search for the registration file, told by its outcome. -/
theorem EntryFile.locate_eq (tree : FileTree) (query : EntryQuery) :
    locate tree query =
      match find tree query with
      | (.ok file, warnings) => ⟨some file, warnings.map (·.diagnostic), none⟩
      | (.error failure, warnings) =>
        ⟨none, warnings.map (·.diagnostic), some failure.diagnostic⟩ := by
  have hindex : (if !query.environment.isEmpty ∧ !query.distribution.isEmpty then
      throughIndex tree query (sitePackages tree query.environment) else (none, [])) =
      if query.environment.isEmpty ∨ query.distribution.isEmpty then (none, [])
      else throughIndex tree query (sitePackages tree query.environment) := by
    cases query.environment.isEmpty <;> cases query.distribution.isEmpty <;> rfl
  unfold locate find
  rw [hindex]
  generalize (if query.environment.isEmpty ∨ query.distribution.isEmpty then (none, [])
    else throughIndex tree query (sitePackages tree query.environment)) = found
  obtain ⟨indexed, warnings⟩ := found
  cases indexed with
  | some file => rfl
  | none =>
    dsimp only [Option.none_or]
    cases byName? tree query.directory <;> rfl

def Progress.behind (warnings : List Warning) (notes : List Bytes) (progress : Progress) :
    Progress :=
  { progress with
    warnings := warnings ++ progress.warnings
    notes := notes ++ progress.notes }

namespace Workspace

/-- What has been reported before decides nothing, and what is reported comes behind it. -/
theorem respects_behind (workspace : Workspace) (warnings : List Warning) (notes : List Bytes) :
    workspace.Respects (fun first second => second = first.behind warnings notes)
      fun _ => True where
  note text := by
    rintro first _ rfl
    simp only [Progress.note, Progress.behind, List.append_assoc]
  stepsOf className := by
    rintro first _ rfl
    refine ⟨rfl, ?_⟩
    simp only [stepsOf, Progress.note, Progress.warn, Progress.behind, List.append_assoc]
  callable _ := by
    rintro first _ rfl
    exact ⟨rfl, rfl⟩

theorem buildPlugin_behind (workspace : Workspace) (registration : Registration)
    (progress : Progress) (warnings : List Warning) (notes : List Bytes) :
    workspace.buildPlugin registration (progress.behind warnings notes) =
      ((workspace.buildPlugin registration progress).1,
        (workspace.buildPlugin registration progress).2.behind warnings notes) := by
  have hr := (workspace.respects_behind warnings notes).buildPlugin (fun _ _ _ => trivial)
    registration
  obtain ⟨he, hn⟩ := @hr progress _ rfl
  exact Prod.ext he.symm hn

/-- The assembly that stands for the given plugins and progress. -/
def assembled (plugins : List Plugin) (progress : Progress) : Assembly :=
  ⟨progress.indexes, progress.signatures, progress.reported, plugins,
    ⟨none, progress.warnings.map (·.diagnostic), progress.notes⟩⟩

variable {workspace : Workspace} {plugins : List Plugin} {progress : Progress}

theorem buildRecord_assembled (registration : Registration) :
    workspace.buildRecord registration (assembled plugins progress) =
      (.of (workspace.buildPlugin registration progress).1,
        assembled plugins (workspace.buildPlugin registration progress).2) := by
  have hb := workspace.buildPlugin_behind registration
    ⟨progress.indexes, progress.signatures, progress.reported, [], []⟩ progress.warnings
    progress.notes
  have hp : (Progress.mk progress.indexes progress.signatures progress.reported [] []).behind
      progress.warnings progress.notes = progress := by
    simp only [Progress.behind, List.append_nil]
  rw [hp] at hb
  rw [hb]
  unfold buildRecord
  simp only [assembled, Report.push, Report.note, Progress.behind, List.map_append]

theorem assembled_warn (warning : Warning) :
    assembled plugins (progress.warn [warning]) =
      (assembled plugins progress).push warning.diagnostic := by
  simp only [assembled, Assembly.push, Report.push, Progress.warn, List.map_append,
    List.map_singleton]

/-- A plugin is added alike to the assembly and to the plugins. -/
theorem assembled_addPlugin (ordinal : Nat) (callee : Bytes) (plugin : Plugin) :
    assembled (addPlugin ordinal callee plugins plugin progress).1
        (addPlugin ordinal callee plugins plugin progress).2 =
      if plugins.any (·.name == plugin.name) then
        (assembled plugins progress).push
          (Warning.duplicateName plugin.name ordinal callee).diagnostic
      else (assembled plugins progress).keep plugin := by
  unfold addPlugin
  split
  · exact assembled_warn _
  · rfl

/-- One registration is taken in alike by the assembly and by the plugins and the progress. -/
theorem assembleCall_assembled (ordinal : Nat) (registration : Registration)
    (others : List Registration) :
    ∃ plugins' progress',
      workspace.assembleCall ordinal registration (assembled plugins progress) =
        assembled plugins' progress' ∧
      workspace.buildPlugins ordinal plugins progress (registration :: others) =
        workspace.buildPlugins (ordinal + 1) plugins' progress' others := by
  unfold assembleCall
  rw [buildRecord_assembled, buildPlugins]
  generalize workspace.buildPlugin registration progress = built
  obtain ⟨outcome, next⟩ := built
  cases outcome with
  | error failure =>
    refine ⟨plugins, next.warn [.skippedRegistration ordinal registration.callee failure], ?_, rfl⟩
    rw [assembled_warn, ← Failure.demote_diagnostic]
    rfl
  | ok plugin => exact ⟨_, _, (assembled_addPlugin ordinal registration.callee plugin).symm, rfl⟩

theorem assembleCalls_assembled (ordinal : Nat) (found : List Registration) :
    workspace.assembleCalls ordinal (assembled plugins progress) found =
      assembled (workspace.buildPlugins ordinal plugins progress found).1
        (workspace.buildPlugins ordinal plugins progress found).2 := by
  induction found generalizing ordinal plugins progress with
  | nil => rfl
  | cons registration others ih =>
    obtain ⟨plugins', progress', ha, hb⟩ :=
      @assembleCall_assembled workspace plugins progress ordinal registration others
    rw [assembleCalls, ha, ih, hb]

end Workspace

namespace Extractor

variable {extractor : Extractor} {tree : FileTree}

/-- The calls that are located are the registrations, with the same notes. -/
theorem locateCalls_eq (source : Bytes) (report : Report) :
    extractor.locateCalls source report =
      (.of (registrations extractor.request.strategy extractor.convention source).1,
        report.note (registrations extractor.request.strategy extractor.convention source).2) := by
  unfold locateCalls registrations
  rw [Convention.locateTree_eq, Convention.locateText_eq]
  have hnil : report.note [] = report := by
    unfold Report.note
    rw [List.append_nil]
  have hnote (first second : Bytes) :
      (report.note [first]).note [second] = report.note [first, second] := by
    unfold Report.note
    rw [List.append_assoc]
    rfl
  cases extractor.request.strategy with
  | text => rw [if_pos rfl, hnil]
  | tree =>
    rw [if_neg (by decide)]
    cases extractor.convention.searchTree source <;> rfl
  | automatic =>
    rw [if_neg (by decide)]
    cases extractor.convention.searchTree source with
    | ok found => rfl
    | error failure =>
      cases extractor.convention.searchText source with
      | ok found => exact congrArg (Prod.mk _) (hnote _ _)
      | error failure => rfl

/-- What is reported of a source is what its extraction gives, and the extractor is left alike. -/
theorem assemble_eq (source package : Bytes) :
    extractor.assemble tree source package =
      ((extractor.extractSource tree source package).1.report,
        (extractor.extractSource tree source package).2) := by
  unfold assemble extractSource
  dsimp only
  rw [locateCalls_eq]
  dsimp only
  generalize registrations extractor.request.strategy extractor.convention source = located
  obtain ⟨outcome, notes⟩ := located
  cases outcome with
  | error failure =>
    rw [Extraction.report_error]
    rfl
  | ok found =>
    let imports := Imports.ofSource package source
    have hstart : Assembly.start extractor.indexes
        (((Report.empty.push (imports.warnings.map (·.diagnostic))).note
          [ascii "resolved " ++ decimal imports.table.size ++ ascii " imported symbols"]).note
            notes) =
        Workspace.assembled [] (.start extractor.indexes imports.warnings
          ((ascii "resolved " ++ decimal imports.table.size ++ ascii " imported symbols") ::
            notes)) := rfl
    dsimp only [LocatedCalls.of]
    rw [hstart, Workspace.assembleCalls_assembled, Extraction.report_ok, List.map_append]
    rfl

/-- A registration file is read and reported behind what its search has reported. -/
theorem assembleFile_eq (path : FilePath) (package : Bytes) (warnings : List Warning)
    (notes : List Bytes) :
    extractor.assembleFile tree path package ⟨none, warnings.map (·.diagnostic), notes⟩ =
      match tree.read? path with
      | none => ((Extraction.mk (.error (.unreadableEntryFile path (tree.isPresent path))) warnings
          notes).report, extractor.settleRoot path)
      | some source =>
        ((((extractor.settleRoot path).extractSource tree source package).1.after warnings
          notes).report, ((extractor.settleRoot path).extractSource tree source package).2) := by
  unfold assembleFile
  dsimp only
  cases tree.read? path with
  | none =>
    rw [Extraction.report_error]
    rfl
  | some source =>
    dsimp only
    rw [assemble_eq, Extraction.report_after]
    rfl

/-- What is reported of a tree is what the extraction gives, and the extractor is left alike. -/
theorem report_eq (extractor : Extractor) (tree : FileTree) :
    extractor.report tree = ((extractor.extract tree).1.report, (extractor.extract tree).2) := by
  unfold report extract locate
  dsimp only
  split
  · rw [EntryFile.locate_eq]
    generalize EntryFile.find tree _ = found
    obtain ⟨outcome, warnings⟩ := found
    cases outcome with
    | error failure =>
      rw [Extraction.report_error]
      rfl
    | ok file =>
      refine (assembleFile_eq file.path file.package warnings _).trans ?_
      dsimp only
      cases tree.read? file.path <;> rfl
  · generalize FilePath.normal _ = path
    refine (assembleFile_eq path _ [] []).trans ?_
    dsimp only
    cases tree.read? path <;> rfl

end Extractor

end ManifestScan
