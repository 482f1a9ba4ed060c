import ManifestScan.Extraction.Extractor
import ManifestScan.Proofs.Extraction.Progress
import Mathlib.Data.List.Basic
import Mathlib.Data.List.Induction

namespace ManifestScan

def Plugin.isTaken (name : Bytes) (plugins : List Plugin) : Bool := plugins.any (·.name == name)

/-- The plugins whose names no plugin before them has. -/
def Plugin.firsts (plugins : List Plugin) : List Plugin :=
  (plugins.zipIdx.filter fun (plugin, i) => !isTaken plugin.name (plugins.take i)).map (·.1)

namespace Plugin

theorem firsts_snoc (plugins : List Plugin) (plugin : Plugin) :
    firsts (plugins ++ [plugin]) =
      firsts plugins ++ if isTaken plugin.name plugins then [] else [plugin] := by
  have hf : (plugins.zipIdx.filter fun (p, i) =>
      !isTaken p.name ((plugins ++ [plugin]).take i)) =
      plugins.zipIdx.filter fun (p, i) => !isTaken p.name (plugins.take i) := by
    apply List.filter_congr
    intro ⟨p, i⟩ he
    have hi := (List.mem_zipIdx he).2.1
    dsimp only
    rw [List.take_append_of_le_length (by omega)]
  unfold firsts
  rw [List.zipIdx_append, List.filter_append, List.map_append, hf]
  congr 1
  cases h : isTaken plugin.name plugins <;> simp [h]

/-- Leaving out what comes again leaves out no name. -/
theorem isTaken_firsts (name : Bytes) (plugins : List Plugin) :
    isTaken name (firsts plugins) = isTaken name plugins := by
  induction plugins using List.reverseRecOn with
  | nil => rfl
  | append_singleton plugins plugin ih =>
    simp only [firsts_snoc, isTaken, List.any_append] at *
    rw [ih]
    by_cases h : plugins.any (·.name == plugin.name) = true
    · by_cases hn : plugin.name = name
      · subst hn
        simp [h]
      · simp [h, hn]
    · simp [h]

theorem nodup_names_firsts (plugins : List Plugin) : ((firsts plugins).map (·.name)).Nodup := by
  induction plugins using List.reverseRecOn with
  | nil => exact List.nodup_nil
  | append_singleton plugins plugin ih =>
    rw [firsts_snoc]
    split
    · simpa using ih
    · rename_i ht
      rw [← isTaken_firsts] at ht
      rw [List.map_append, List.nodup_append]
      refine ⟨ih, by simp, ?_⟩
      intro name hm other ho he
      obtain ⟨first, hf, rfl⟩ := List.mem_map.1 hm
      obtain rfl : other = plugin.name := by simpa using ho
      exact ht (List.any_eq_true.2 ⟨first, hf, by simp [he]⟩)

end Plugin

namespace Warning

def isSkip : Warning → Bool
  | .skippedRegistration _ _ _ => true
  | _ => false

def isRepeat : Warning → Bool
  | .duplicateName _ _ _ => true
  | _ => false

theorem isSome_of_isSkip {warning : Warning} (h : warning.isSkip = true) :
    warning.ordinal?.isSome = true := by
  cases warning <;> first | rfl | cases h

theorem isSome_of_isRepeat {warning : Warning} (h : warning.isRepeat = true) :
    warning.ordinal?.isSome = true := by
  cases warning <;> first | rfl | cases h

theorem message_skippedRegistration (ordinal : Nat) (callee : Bytes) (failure : Failure) :
    (skippedRegistration ordinal callee failure).message =
      ascii "Skipped registration #" ++ decimal ordinal ++ ascii " (" ++ callee ++
        ascii "): " ++ failure.message := by
  simp [message, registration, ascii]

theorem message_duplicateName (name : Bytes) (ordinal : Nat) (callee : Bytes) :
    (duplicateName name ordinal callee).message =
      ascii "Duplicate plugin name '" ++ name ++ ascii "' in registration #" ++ decimal ordinal ++
        ascii " (" ++ callee ++ ascii "); keeping the first registration." := by
  simp [message, registration, named, ascii]
  rfl

/-- Warnings about one registration are among those about any. -/
theorem filter_numbered (warnings : List Warning) (ordinal : Nat) :
    (warnings.filter (·.ordinal?.isSome)).filter (·.ordinal? == some ordinal) =
      warnings.filter (·.ordinal? == some ordinal) := by
  rw [List.filter_filter]
  apply List.filter_congr
  intro warning _
  by_cases ho : warning.ordinal? = some ordinal <;> simp [ho]

theorem countP_numbered (warnings : List Warning) {p : Warning → Bool}
    (hp : ∀ {warning : Warning}, p warning = true → warning.ordinal?.isSome = true) :
    (warnings.filter (·.ordinal?.isSome)).countP p = warnings.countP p := by
  rw [List.countP_filter]
  apply List.countP_congr
  intro warning _
  by_cases hq : p warning = true <;> simp [hq, hp]

end Warning

namespace Workspace

/-- What a registration gives on its own, with nothing looked up before. -/
def alone (workspace : Workspace) (registration : Registration) : Except Failure Plugin :=
  (workspace.buildPlugin registration (.start .empty [] [])).1

def pluginsAlone (workspace : Workspace) (found : List Registration) : List Plugin :=
  found.filterMap fun registration => (workspace.alone registration).toOption

/-- What is reported of a registration behind those before it. -/
def verdict (workspace : Workspace) (before : List Registration) (registration : Registration) :
    Option Warning :=
  match workspace.alone registration with
  | .error failure => some (.skippedRegistration (before.length + 1) registration.callee failure)
  | .ok plugin =>
    if Plugin.isTaken plugin.name (workspace.pluginsAlone before) then
      some (.duplicateName plugin.name (before.length + 1) registration.callee)
    else none

def verdicts (workspace : Workspace) (found : List Registration) : List Warning :=
  found.zipIdx.filterMap fun (registration, i) => workspace.verdict (found.take i) registration

variable {workspace : Workspace}

theorem pluginsAlone_snoc (found : List Registration) (registration : Registration) :
    workspace.pluginsAlone (found ++ [registration]) =
      workspace.pluginsAlone found ++ (workspace.alone registration).toOption.toList := by
  unfold pluginsAlone
  rw [List.filterMap_append]
  congr 1

theorem verdicts_snoc (found : List Registration) (registration : Registration) :
    workspace.verdicts (found ++ [registration]) =
      workspace.verdicts found ++ (workspace.verdict found registration).toList := by
  have hf : (found.zipIdx.filterMap fun (r, i) =>
      workspace.verdict ((found ++ [registration]).take i) r) = workspace.verdicts found := by
    apply List.filterMap_congr
    intro ⟨r, i⟩ he
    have hi := (List.mem_zipIdx he).2.1
    dsimp only
    rw [List.take_append_of_le_length (by omega)]
  rw [verdicts, List.zipIdx_append, List.filterMap_append, hf]
  congr 1
  cases h : workspace.verdict found registration <;> simp [h]

theorem verdict_of_error {before : List Registration} {registration : Registration}
    {failure : Failure} (h : workspace.alone registration = .error failure) :
    workspace.verdict before registration =
      some (.skippedRegistration (before.length + 1) registration.callee failure) := by
  rw [verdict, h]

theorem verdict_of_ok {before : List Registration} {registration : Registration} {plugin : Plugin}
    (h : workspace.alone registration = .ok plugin) :
    workspace.verdict before registration =
      if Plugin.isTaken plugin.name (workspace.pluginsAlone before) then
        some (.duplicateName plugin.name (before.length + 1) registration.callee)
      else none := by
  rw [verdict, h]

theorem ordinal?_verdict {before : List Registration} {registration : Registration}
    {warning : Warning} (h : workspace.verdict before registration = some warning) :
    warning.ordinal? = some (before.length + 1) := by
  unfold verdict at h
  split at h
  · cases h; rfl
  · split at h <;> cases h
    rfl

theorem ordinal?_mem_verdicts {found : List Registration} {warning : Warning}
    (h : warning ∈ workspace.verdicts found) :
    ∃ k < found.length, warning.ordinal? = some (k + 1) := by
  obtain ⟨⟨registration, i⟩, he, hv⟩ := List.mem_filterMap.1 h
  have hi := (List.mem_zipIdx he).2.1
  refine ⟨i, by omega, ?_⟩
  rw [ordinal?_verdict hv, List.length_take, Nat.min_eq_left (by omega)]

/-- The verdicts on one registration are the one it gets at its place. -/
theorem filter_verdicts {found : List Registration} {k : Nat} {registration : Registration}
    (h : found[k]? = some registration) :
    (workspace.verdicts found).filter (·.ordinal? == some (k + 1)) =
      (workspace.verdict (found.take k) registration).toList := by
  induction found using List.reverseRecOn with
  | nil => cases h
  | append_singleton found last ih =>
    rw [verdicts_snoc, List.filter_append]
    have hk := (List.getElem?_eq_some_iff.1 h).1
    rw [List.length_append, List.length_singleton] at hk
    have hl : ∀ warning ∈ (workspace.verdict found last).toList,
        warning.ordinal? = some (found.length + 1) :=
      fun warning hw => ordinal?_verdict (Option.mem_toList.1 hw)
    -- The last registration gets its verdict now; the one at `k` before it got it earlier.
    by_cases hlast : k = found.length
    · subst hlast
      obtain rfl : last = registration := by simpa using h
      rw [List.filter_eq_nil_iff.2, List.filter_eq_self.2, List.take_left', List.nil_append]
      · rfl
      · intro warning hw
        simp [hl warning hw]
      · intro warning hw
        obtain ⟨j, hj, ho⟩ := ordinal?_mem_verdicts hw
        simp only [ho, beq_iff_eq, Option.some.injEq]
        omega
    · rw [List.getElem?_append_left (by omega)] at h
      rw [ih h, List.take_append_of_le_length (by omega), List.filter_eq_nil_iff.2,
        List.append_nil]
      intro warning hw
      simp only [hl warning hw, beq_iff_eq, Option.some.injEq]
      omega

/-- Every registration is kept, skipped or a repetition. -/
theorem length_firsts_add_verdicts (found : List Registration) :
    (Plugin.firsts (workspace.pluginsAlone found)).length +
      (workspace.verdicts found).countP (·.isSkip) +
      (workspace.verdicts found).countP (·.isRepeat) = found.length := by
  induction found using List.reverseRecOn with
  | nil => rfl
  | append_singleton found last ih =>
    rw [verdicts_snoc, pluginsAlone_snoc, List.countP_append, List.countP_append,
      List.length_append, List.length_singleton, ← ih]
    unfold verdict
    cases ha : workspace.alone last with
    | error failure =>
      simp [Except.toOption, Warning.isSkip, Warning.isRepeat]
      omega
    | ok plugin =>
      simp only [Except.toOption, Option.toList_some, Plugin.firsts_snoc]
      split <;> simp [Warning.isSkip, Warning.isRepeat] <;> omega

/-- The warnings about registrations are those of the ones done so far, and nothing kept from them
is out of date. -/
structure Settled (workspace : Workspace) (done : List Registration) (plugins : List Plugin)
    (progress : Progress) : Prop where
  plugins_eq : plugins = Plugin.firsts (workspace.pluginsAlone done)
  faithful : progress.Faithful workspace
  numbered : progress.warnings.filter (·.ordinal?.isSome) = workspace.verdicts done

theorem filter_isSome_of_allUnnumbered {warnings : List Warning}
    (h : Warning.AllUnnumbered warnings) : warnings.filter (·.ordinal?.isSome) = [] := by
  rw [List.filter_eq_nil_iff]
  intro warning hw
  simp [h warning hw]

theorem Settled.leads {done : List Registration} {plugins : List Plugin} {progress next : Progress}
    (h : workspace.Settled done plugins progress) (hl : progress.Leads workspace next) :
    workspace.Settled done plugins next := by
  obtain ⟨added, ha, hn⟩ := hl.warnings
  refine ⟨h.plugins_eq, hl.faithful h.faithful, ?_⟩
  rw [ha, List.filter_append, filter_isSome_of_allUnnumbered hn, List.append_nil, h.numbered]

theorem Settled.skip {done : List Registration} {plugins : List Plugin} {progress : Progress}
    (h : workspace.Settled done plugins progress) {registration : Registration} {failure : Failure}
    (ha : workspace.alone registration = .error failure) :
    workspace.Settled (done ++ [registration]) plugins (progress.warn
      [.skippedRegistration (done.length + 1) registration.callee failure]) := by
  refine ⟨?_, ⟨h.faithful.indexes, h.faithful.signatures⟩, ?_⟩
  · rw [pluginsAlone_snoc, ha, h.plugins_eq]
    simp [Except.toOption]
  · rw [Progress.warn, List.filter_append, h.numbered, verdicts_snoc, verdict_of_error ha]
    rfl

theorem Settled.add {done : List Registration} {plugins : List Plugin} {progress : Progress}
    (h : workspace.Settled done plugins progress) {registration : Registration} {plugin : Plugin}
    (ha : workspace.alone registration = .ok plugin) :
    workspace.Settled (done ++ [registration])
      (addPlugin (done.length + 1) registration.callee plugins plugin progress).1
      (addPlugin (done.length + 1) registration.callee plugins plugin progress).2 := by
  have hp : workspace.pluginsAlone (done ++ [registration]) =
      workspace.pluginsAlone done ++ [plugin] := by
    rw [pluginsAlone_snoc, ha]
    rfl
  have ht : plugins.any (·.name == plugin.name) =
      Plugin.isTaken plugin.name (workspace.pluginsAlone done) := by
    rw [h.plugins_eq, ← Plugin.isTaken_firsts]
    rfl
  unfold addPlugin
  rw [ht]
  split
  · rename_i hd
    refine ⟨?_, ⟨h.faithful.indexes, h.faithful.signatures⟩, ?_⟩
    · rw [hp, Plugin.firsts_snoc, if_pos hd, List.append_nil]
      exact h.plugins_eq
    · rw [Progress.warn, List.filter_append, h.numbered, verdicts_snoc, verdict_of_ok ha,
        if_pos hd]
      rfl
  · rename_i hd
    refine ⟨?_, ⟨h.faithful.indexes, h.faithful.signatures⟩, ?_⟩
    · rw [hp, Plugin.firsts_snoc, if_neg hd, h.plugins_eq]
    · rw [Progress.note, h.numbered, verdicts_snoc, verdict_of_ok ha, if_neg hd,
        Option.toList_none, List.append_nil]

/-- Every registration is judged as if it stood alone, and by the names before it. -/
theorem Settled.buildPlugins (hn : workspace.imports.HasNames) {done others : List Registration}
    {plugins : List Plugin} {progress : Progress} (h : workspace.Settled done plugins progress) :
    workspace.Settled (done ++ others)
      (workspace.buildPlugins (done.length + 1) plugins progress others).1
      (workspace.buildPlugins (done.length + 1) plugins progress others).2 := by
  -- The registrations done so far grow by one, and `Settled` is kept by both ways on.
  induction others generalizing done plugins progress with
  | nil => rw [List.append_nil]; exact h
  | cons registration others ih =>
    have ha : (workspace.buildPlugin registration progress).1 = workspace.alone registration :=
      buildPlugin_eq hn registration h.faithful
        (Progress.faithful_start (IndexCache.faithful_empty _) _ _)
    have hl := h.leads (buildPlugin_leads hn registration progress)
    unfold Workspace.buildPlugins
    generalize workspace.buildPlugin registration progress = built at ha hl
    obtain ⟨found, next⟩ := built
    have hd : done ++ registration :: others = done ++ [registration] ++ others := by simp
    have hk : done.length + 1 + 1 = (done ++ [registration]).length + 1 := by simp
    rw [hd]
    cases found with
    | error failure =>
      dsimp only
      rw [hk]
      exact ih (hl.skip ha.symm)
    | ok plugin =>
      dsimp only
      rw [hk]
      exact ih (hl.add ha.symm)

end Workspace

namespace Extractor

def workspaceOf (extractor : Extractor) (tree : FileTree) (source package : Bytes) : Workspace :=
  ⟨tree, (Imports.ofSource package source).table, extractor.roots, extractor.request.searchRoot⟩

/-- The extractors that come from a request by extractions from an unchanged tree. -/
inductive Reached (tree : FileTree) (request : ExtractionRequest) : Extractor → Prop
  | start : Reached tree request (ofRequest request)
  | source {extractor : Extractor} (source package : Bytes) (h : Reached tree request extractor) :
    Reached tree request (extractor.extractSource tree source package).2
  | file {extractor : Extractor} (h : Reached tree request extractor) :
    Reached tree request (extractor.extract tree).2

variable {tree : FileTree} {request : ExtractionRequest} {extractor : Extractor}

/-- The extraction of a source whose registrations are found; what its look-ups leave unread
adds nothing. -/
theorem extractSource_of_found {source package : Bytes} {found : List Registration}
    {notes : List Bytes}
    (hf : registrations extractor.request.strategy extractor.convention source =
      (.ok found, notes)) :
    let imports := Imports.ofSource package source
    let built := (extractor.workspaceOf tree source package).buildPlugins 1 []
      (.start extractor.indexes imports.warnings
        ((ascii "resolved " ++ decimal imports.table.size ++ ascii " imported symbols") :: notes))
      found
    extractor.extractSource tree source package =
      (⟨.ok ⟨extractor.request.packageName, built.1⟩, built.2.warnings, built.2.notes⟩,
        { extractor with indexes := built.2.indexes }) := by
  intro imports built
  have hread : built.2.signatures.warnings = [] := Workspace.signatures_warnings_buildPlugins ..
  have hw : built.2.warnings ++ built.2.signatures.warnings = built.2.warnings := by
    rw [hread, List.append_nil]
  rw [← hw]
  unfold extractSource
  rw [hf]
  rfl

theorem allUnnumbered_imports (package source : Bytes) :
    Warning.AllUnnumbered (Imports.ofSource package source).warnings := by
  intro warning hw
  obtain ⟨line, rfl | rfl⟩ := Imports.mem_warnings_ofSource hw <;> rfl

/-- The plugins and the progress of an extraction behind its located registrations. -/
theorem settled_extractSource (hi : extractor.indexes.Faithful tree) (source package : Bytes)
    (notes : List Bytes) (found : List Registration) :
    let workspace := extractor.workspaceOf tree source package
    let built := workspace.buildPlugins 1 []
      (.start extractor.indexes (Imports.ofSource package source).warnings notes) found
    workspace.Settled found built.1 built.2 := by
  intro workspace built
  have hs : workspace.Settled [] []
      (.start extractor.indexes (Imports.ofSource package source).warnings notes) := by
    refine ⟨rfl, ?_, ?_⟩
    · apply Progress.faithful_start
      exact hi
    · exact Workspace.filter_isSome_of_allUnnumbered (allUnnumbered_imports package source)
  exact hs.buildPlugins (Imports.hasNames_ofSource package source)

theorem faithful_extractSource (hi : extractor.indexes.Faithful tree) (source package : Bytes) :
    (extractor.extractSource tree source package).2.indexes.Faithful tree := by
  unfold extractSource
  dsimp only
  split
  · exact hi
  · exact (settled_extractSource hi source package _ _).faithful.indexes

theorem indexes_locate (extractor : Extractor) (tree : FileTree) :
    (extractor.locate tree).extractor.indexes = extractor.indexes := by
  have hw : ∀ function, (extractor.withFunction function).indexes = extractor.indexes := by
    intro function
    unfold withFunction
    split <;> rfl
  unfold locate
  dsimp only
  split
  · split
    · rfl
    · exact hw _
  · rfl

theorem Reached.faithful (h : Reached tree request extractor) :
    extractor.indexes.Faithful tree := by
  induction h with
  | start => exact IndexCache.faithful_empty tree
  | source source package _ ih => exact faithful_extractSource ih source package
  | @file extractor _ ih =>
    rw [← indexes_locate extractor tree] at ih
    unfold extract
    dsimp only
    split
    · exact ih
    · split
      · exact ih
      · exact @faithful_extractSource tree ((extractor.locate tree).extractor.settleRoot _) ih _ _

/-- What an extraction reports of each registration, and how many it reports. -/
theorem warnings_extractSource (hi : extractor.indexes.Faithful tree) (source package : Bytes)
    {found : List Registration} {notes : List Bytes}
    (hf : registrations extractor.request.strategy extractor.convention source =
      (.ok found, notes)) :
    let workspace := extractor.workspaceOf tree source package
    let extraction := (extractor.extractSource tree source package).1
    extraction.outcome =
        .ok ⟨extractor.request.packageName, Plugin.firsts (workspace.pluginsAlone found)⟩ ∧
      extraction.warnings.filter (·.ordinal?.isSome) = workspace.verdicts found := by
  intro workspace extraction
  have hs := settled_extractSource hi source package
    ((ascii "resolved " ++ decimal (Imports.ofSource package source).table.size ++
      ascii " imported symbols") :: notes) found
  have he :=
    congrArg Prod.fst (@extractSource_of_found tree extractor source package found notes hf)
  dsimp only [extraction]
  rw [he, ← hs.plugins_eq, ← hs.numbered]
  exact ⟨rfl, rfl⟩

/-- Registrations are judged one by one. The manifest holds what each gives on its own, the first
plugin of each name; each one that fails is reported once with its own failure, and each that comes
too late with its name is reported once. -/
theorem extractSource_eq_firsts_alone (h : Reached tree request extractor) (source package : Bytes)
    {found : List Registration} {notes : List Bytes}
    (hf : registrations extractor.request.strategy extractor.convention source =
      (.ok found, notes)) :
    let workspace := extractor.workspaceOf tree source package
    let extraction := (extractor.extractSource tree source package).1
    let about := fun k => extraction.warnings.filter (·.ordinal? == some (k + 1))
    let plugins := Plugin.firsts (workspace.pluginsAlone found)
    extraction.outcome = .ok ⟨extractor.request.packageName, plugins⟩ ∧
      (plugins.map (·.name)).Nodup ∧
      (∀ k registration failure, found[k]? = some registration →
        workspace.alone registration = .error failure →
        ∃ warning, about k = [warning] ∧ warning.code = failure.code ∧
          warning.message = ascii "Skipped registration #" ++ decimal (k + 1) ++ ascii " (" ++
            registration.callee ++ ascii "): " ++ failure.message) ∧
      (∀ k registration plugin, found[k]? = some registration →
        workspace.alone registration = .ok plugin →
        Plugin.isTaken plugin.name (workspace.pluginsAlone (found.take k)) = true →
        ∃ warning, about k = [warning] ∧ warning.code = ascii "MEX-W3101" ∧
          warning.message = ascii "Duplicate plugin name '" ++ plugin.name ++
            ascii "' in registration #" ++ decimal (k + 1) ++ ascii " (" ++ registration.callee ++
            ascii "); keeping the first registration.") ∧
      (∀ k registration plugin, found[k]? = some registration →
        workspace.alone registration = .ok plugin →
        Plugin.isTaken plugin.name (workspace.pluginsAlone (found.take k)) = false →
        about k = []) ∧
      plugins.length + extraction.warnings.countP (·.isSkip) +
        extraction.warnings.countP (·.isRepeat) = found.length := by
  intro workspace extraction about plugins
  obtain ⟨ho, hw⟩ := warnings_extractSource h.faithful source package hf
  have ha : ∀ {k registration}, found[k]? = some registration →
      about k = (workspace.verdict (found.take k) registration).toList := by
    intro k registration hk
    rw [← Workspace.filter_verdicts hk, ← hw, Warning.filter_numbered]
  have hk : ∀ {k registration}, found[k]? = some registration → (found.take k).length = k := by
    intro k registration hk
    rw [List.length_take, Nat.min_eq_left (Nat.le_of_lt (List.getElem?_eq_some_iff.1 hk).1)]
  refine ⟨ho, Plugin.nodup_names_firsts _, ?_, ?_, ?_, ?_⟩
  · intro k registration failure hr hf
    refine ⟨.skippedRegistration (k + 1) registration.callee failure, ?_, by rw [Warning.code],
      Warning.message_skippedRegistration _ _ _⟩
    rw [ha hr, Workspace.verdict_of_error hf, hk hr]
    rfl
  · intro k registration plugin hr hp ht
    refine ⟨.duplicateName plugin.name (k + 1) registration.callee, ?_, by rw [Warning.code],
      Warning.message_duplicateName _ _ _⟩
    rw [ha hr, Workspace.verdict_of_ok hp, if_pos ht, hk hr]
    rfl
  · intro k registration plugin hr hp ht
    rw [ha hr, Workspace.verdict_of_ok hp, ht]
    rfl
  · -- Each registration adds one to the plugins, to the skips or to the repetitions.
    rw [← Warning.countP_numbered _ Warning.isSome_of_isSkip,
      ← Warning.countP_numbered _ Warning.isSome_of_isRepeat, hw]
    exact Workspace.length_firsts_add_verdicts found

/-- Four registrations: one to keep, one that repeats its name and two that fail. -/
def mixedSource : Bytes :=
  ascii "from pkg.a import A, b as c\ndef register_plugin():\n    return Package(plugins=[\n" ++
    ascii "        ParserPlugin(name=\"x\", obj=A),\n        BasePlugin(name='x', entry=c),\n" ++
      ascii "        ExporterPlugin(obj=A),\n        UpgraderPlugin(name=\"y\", A),\n    ])\n"

def mixedRequest : ExtractionRequest :=
  ⟨[], [], ascii "demo", ascii "/work", [], [], none, ascii "r2x_plugin", none, ascii "plugins",
    .automatic⟩

theorem extractSource_mixed :
    ∃ found notes, registrations (ofRequest mixedRequest).request.strategy
        (ofRequest mixedRequest).convention mixedSource = (.ok found, notes) ∧
      found.length = 4 ∧
      ((ofRequest mixedRequest).extractSource (.empty (ascii "work")) mixedSource []).1.outcome =
        .ok ⟨mixedRequest.packageName, Plugin.firsts (((ofRequest mixedRequest).workspaceOf
          (.empty (ascii "work")) mixedSource []).pluginsAlone found)⟩ := by
  have hs : Reached (.empty (ascii "work")) mixedRequest (ofRequest mixedRequest) := .start
  have hl : (registrations (ofRequest mixedRequest).request.strategy
      (ofRequest mixedRequest).convention mixedSource).1.toOption.map List.length = some 4 := by
    decide +kernel
  rcases hr : registrations (ofRequest mixedRequest).request.strategy
    (ofRequest mixedRequest).convention mixedSource with ⟨located, notes⟩
  rw [hr] at hl
  cases located with
  | error failure => cases hl
  | ok found =>
    have hj := extractSource_eq_firsts_alone hs mixedSource [] hr
    refine ⟨found, notes, rfl, ?_, ?_⟩
    · exact Option.some.inj hl
    · exact hj.1

end Extractor

end ManifestScan
