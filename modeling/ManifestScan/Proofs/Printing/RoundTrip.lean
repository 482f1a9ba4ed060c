import ManifestScan.Proofs.Extraction.Congruence
import ManifestScan.Proofs.Printing.Search
import ManifestScan.Proofs.Printing.Settings

namespace ManifestScan

namespace Blueprint

/-- No keyword is written twice. -/
theorem nodup_keys (blueprint : Blueprint) : (blueprint.settings.map Setting.key).Nodup := by
  have hone : ∀ {α : Type} (option : Option α) (make : α → Setting) (key : Bytes),
      (∀ a, (make a).key = key) → ((option.toList.map make).map Setting.key).Sublist [key] := by
    intro α option make key hk
    cases option with
    | none => exact List.nil_sublist _
    | some a =>
      show List.Sublist [(make a).key] [key]
      rw [hk a]
  -- The keys are some of the seven keywords, in their order.
  have hall : (blueprint.settings.map Setting.key).Sublist (ascii "name" :: ascii "obj" ::
      ([ascii "call_method"] ++ ([ascii "io_type"] ++ ([ascii "description"] ++
        ([ascii "requires_store"] ++ [ascii "config"]))))) := by
    unfold settings
    simp only [List.map_cons, List.map_append]
    refine .cons_cons _ (.cons_cons _ ?_)
    apply List.Sublist.append (hone _ Setting.callMethod _ fun _ => rfl)
    apply List.Sublist.append (hone _ Setting.ioType _ fun _ => rfl)
    apply List.Sublist.append (hone _ Setting.description _ fun _ => rfl)
    apply List.Sublist.append (hone _ Setting.requiresStore _ fun _ => rfl)
    exact hone _ Setting.config _ fun _ => rfl
  exact hall.nodup (by decide +kernel)

/-- What is left of the settings of a registration. -/
theorem foldl_settings (catalog : Catalog) (blueprint : Blueprint) :
    blueprint.settings.foldl (Setting.set catalog) .empty =
      ⟨some blueprint.name, some (catalog.callable blueprint.symbol),
        blueprint.config.map catalog.callable, blueprint.callMethod, blueprint.ioType,
        blueprint.requiresStore, none, none, none, blueprint.description⟩ := by
  unfold settings
  simp only [List.foldl_cons, List.foldl_append]
  cases blueprint.callMethod <;> cases blueprint.ioType <;> cases blueprint.description <;>
    cases blueprint.requiresStore <;> cases blueprint.config <;> rfl

end Blueprint

def Progress.Unsigned (progress : Progress) : Prop :=
  ∀ entry ∈ progress.signatures.entries, entry.2 = none

/-- Without roots no signature is found. -/
theorem Callable.complete_nil (tree : FileTree) (callable : Callable) {memo : SignatureMemo}
    (hm : ∀ entry ∈ memo.entries, entry.2 = none) (indexes : IndexCache) :
    ∃ next, callable.complete tree [] memo indexes = (callable, next, indexes) ∧
      ∀ entry ∈ next.entries, entry.2 = none := by
  unfold complete
  split
  · exact ⟨memo, rfl, hm⟩
  · -- What the memo knows is `none`, and a search without roots adds no more.
    unfold Signature.lookUp
    cases hl : memo.entries.lookup (SignatureMemo.key callable.module callable.name) with
    | some known =>
      obtain rfl : known = none := hm _ (mem_of_lookup hl)
      exact ⟨memo, rfl, hm⟩
    | none =>
      refine ⟨_, rfl, ?_⟩
      intro entry he
      rcases List.mem_cons.1 he with rfl | he
      · rfl
      · exact hm entry he

namespace Workspace

variable {workspace : Workspace} {progress : Progress}

theorem completeCallable_unsigned (hr : workspace.roots = []) (hu : progress.Unsigned)
    (callable : Callable) :
    ∃ next, workspace.completeCallable callable progress = (callable, next) ∧ next.Unsigned ∧
      next.warnings = progress.warnings := by
  obtain ⟨memo, hc, hm⟩ := callable.complete_nil workspace.tree hu progress.indexes
  refine ⟨{ progress with signatures := memo }, ?_, hm, rfl⟩
  unfold completeCallable
  rw [hr, hc]

theorem completePlugin_unsigned (hr : workspace.roots = []) (hu : progress.Unsigned)
    {plugin : Plugin} (hs : plugin.versionStrategy = none) (hv : plugin.versionReader = none) :
    ∃ next, workspace.completePlugin plugin progress = (plugin, next) ∧ next.Unsigned ∧
      next.warnings = progress.warnings := by
  obtain ⟨next, hc, hn, hw⟩ := completeCallable_unsigned hr hu plugin.callable
  obtain ⟨name, kind, callable, config, callMethod, ioType, requiresStore, strategy, reader, steps,
    description⟩ := plugin
  cases hs
  cases hv
  cases config with
  | none =>
    refine ⟨next, ?_, hn, hw⟩
    unfold completePlugin
    rw [hc]
    rfl
  | some config =>
    obtain ⟨last, hc', hn', hw'⟩ := completeCallable_unsigned hr hn config
    refine ⟨last, ?_, hn', hw'.trans hw⟩
    unfold completePlugin completeOption
    rw [hc]
    dsimp only
    rw [hc']

theorem addPlugin_unsigned {plugins : List Plugin} {plugin : Plugin}
    (h : plugins.any (·.name == plugin.name) = false) (hu : progress.Unsigned) (ordinal : Nat)
    (callee : Bytes) :
    ∃ next, addPlugin ordinal callee plugins plugin progress = (plugins ++ [plugin], next) ∧
      next.Unsigned ∧ next.warnings = progress.warnings := by
  unfold addPlugin
  rw [h, if_neg (by simp)]
  exact ⟨_, rfl, hu, rfl⟩

end Workspace

namespace Catalog

variable {catalog : Catalog} {workspace : Workspace} {progress : Progress}

theorem buildPlugin_blueprint (hb : catalog.Bound workspace.imports) (hr : workspace.roots = [])
    {blueprint : Blueprint} (hm : blueprint ∈ catalog.blueprints) (hu : progress.Unsigned)
    (offset : Nat) :
    ∃ next, workspace.buildPlugin ⟨blueprint.callee, offset, blueprint.call⟩ progress =
        (.ok (catalog.plugin blueprint), next) ∧ next.Unsigned ∧
      next.warnings = progress.warnings := by
  have hparen : leftParen ∉ blueprint.callee := (callee_cases _ blueprint.callee_mem).2.1
  obtain ⟨hf, ha⟩ : (ArgumentList.ofCall blueprint.call).failure = none ∧
      (ArgumentList.ofCall blueprint.call).arguments.map
          (fun argument => (argument.key, argument.value)) =
        blueprint.settings.map fun setting => (setting.key, setting.expression) :=
    ArgumentList.ofCall_settings hparen (hasName hm)
  have hfits : ∀ setting ∈ blueprint.settings, setting.Fits catalog := by
    intro setting hs
    refine ⟨symbol_mem hm hs, ?_⟩
    rintro rfl
    simp only [Blueprint.settings, List.mem_cons, List.mem_append, List.mem_map] at hs
    rcases hs with he | he | ⟨_, -, he⟩ | ⟨_, -, he⟩ | ⟨_, -, he⟩ | ⟨_, -, he⟩ | ⟨_, -, he⟩
    · exact blueprint.name_ne (Setting.name.inj he).symm
    all_goals cases he
  have hread := Setting.readArguments_settings hb blueprint.callee ha hfits
    (by rw [List.append_nil]; exact blueprint.nodup_keys)
      (show _ → Draft.empty.callable = none from fun _ => rfl) progress
  rw [Blueprint.foldl_settings] at hread
  obtain ⟨next, hc, hn, hw⟩ := Workspace.completePlugin_unsigned hr hu
    (show (catalog.plugin blueprint).versionStrategy = none from rfl) rfl
  refine ⟨next, ?_, hn, hw⟩
  -- The draft has a name and a callable, which is all that a plugin needs.
  have hfinish : Draft.finish ⟨some blueprint.name, some (catalog.callable blueprint.symbol),
      blueprint.config.map catalog.callable, blueprint.callMethod, blueprint.ioType,
      blueprint.requiresStore, none, none, none, blueprint.description⟩ blueprint.kind =
        .ok (catalog.plugin blueprint) := rfl
  unfold Workspace.buildPlugin
  rw [blueprint.callee_kind]
  dsimp only
  rw [hf]
  dsimp only
  rw [hread]
  dsimp only
  rw [hfinish]
  dsimp only
  rw [hc]

/-- Plugins with names of their own are all kept, in their order. -/
theorem buildPlugins_blueprints (hb : catalog.Bound workspace.imports) (hr : workspace.roots = [])
    {blueprints : List Blueprint} (hm : ∀ blueprint ∈ blueprints, blueprint ∈ catalog.blueprints)
    {found : List Registration}
    (hf : found.map (fun call => (call.callee, call.text)) =
      blueprints.map fun blueprint => (blueprint.callee, blueprint.call))
    {plugins : List Plugin}
    (hn : (plugins.map (·.name) ++ blueprints.map (·.name)).Nodup) (hu : progress.Unsigned)
    (ordinal : Nat) :
    (workspace.buildPlugins ordinal plugins progress found).1 =
        plugins ++ blueprints.map catalog.plugin ∧
      (workspace.buildPlugins ordinal plugins progress found).2.warnings = progress.warnings := by
  induction blueprints generalizing found plugins progress ordinal with
  | nil =>
    rw [List.map_eq_nil_iff.1 hf, List.map_nil, List.append_nil]
    exact ⟨rfl, rfl⟩
  | cons blueprint others ih =>
    cases found with
    | nil => cases hf
    | cons call found =>
      rw [List.map_cons, List.map_cons, List.cons.injEq, Prod.mk.injEq] at hf
      obtain ⟨⟨hcallee, htext⟩, hf⟩ := hf
      obtain ⟨callee, offset, text⟩ := call
      obtain rfl : callee = blueprint.callee := hcallee
      obtain rfl : text = blueprint.call := htext
      obtain ⟨next, hbuild, hnext, hw⟩ := buildPlugin_blueprint hb hr
        (hm blueprint List.mem_cons_self) hu offset
      -- No plugin so far has its name, so it is added without a warning.
      have hfresh : plugins.any (·.name == blueprint.name) = false := by
        rw [List.any_eq_false]
        intro plugin hp
        have hne := (List.nodup_append.1 hn).2.2 plugin.name (List.mem_map_of_mem hp) blueprint.name
          List.mem_cons_self
        simpa using hne
      have hnodup : ((plugins ++ [catalog.plugin blueprint]).map (·.name) ++
          others.map (·.name)).Nodup := by
        rw [List.map_append, List.append_assoc]
        exact hn
      obtain ⟨last, hadd, hlast, hw'⟩ := Workspace.addPlugin_unsigned
        (show plugins.any (·.name == (catalog.plugin blueprint).name) = false from hfresh) hnext
        ordinal blueprint.callee
      obtain ⟨hp, hwarnings⟩ := ih (fun other ho => hm other (List.mem_cons_of_mem _ ho)) hf hnodup
        hlast (ordinal + 1)
      rw [Workspace.buildPlugins, hbuild]
      dsimp only
      rw [hadd]
      dsimp only
      rw [hp, hwarnings, hw', hw, List.append_assoc]
      exact ⟨rfl, rfl⟩

/-- Printing a catalog and extracting its plugins is the identity, however the registrations are
looked for: nothing is lost, added or reported. -/
theorem extractSource_source (catalog : Catalog) {extractor : Extractor}
    (hc : extractor.convention = .default) (hr : extractor.roots = []) (tree : FileTree)
    (package : Bytes) :
    (extractor.extractSource tree catalog.source package).1.outcome =
        .ok ⟨extractor.request.packageName, catalog.blueprints.map catalog.plugin⟩ ∧
      (extractor.extractSource tree catalog.source package).1.warnings = [] := by
  have hfound := catalog.registrations_source extractor.request.strategy
  have hwarnings : (Imports.ofSource package catalog.source).warnings = [] := by
    rw [ofSource_source]
  unfold Extractor.extractSource
  rw [hc]
  dsimp only
  generalize Extractor.registrations extractor.request.strategy .default catalog.source = located
    at hfound
  obtain ⟨found, notes⟩ := located
  cases hfound
  dsimp only
  let workspace : Workspace := ⟨tree, (Imports.ofSource package catalog.source).table,
    extractor.roots, extractor.request.searchRoot⟩
  let progress : Progress := .start extractor.indexes
    (Imports.ofSource package catalog.source).warnings
    ((ascii "resolved " ++ decimal (Imports.ofSource package catalog.source).table.size ++
      ascii " imported symbols") :: notes)
  obtain ⟨hp, hw⟩ := @buildPlugins_blueprints catalog workspace progress
    (catalog.bound_ofSource package) hr catalog.blueprints (fun _ hm => hm) _
    catalog.registrations_listing [] catalog.names_nodup nofun 1
  have hunread := workspace.signatures_warnings_buildPlugins 1 [] progress
    catalog.listing.registrations
  rw [List.nil_append] at hp
  refine ⟨?_, List.append_eq_nil_iff.2 ⟨hw.trans hwarnings, hunread⟩⟩
  exact congrArg (fun plugins => Except.ok (Manifest.mk extractor.request.packageName plugins)) hp

/-- Two registrations, one with a name that holds the text of another call. -/
def nested : Catalog where
  imports := [(ascii "Reader", ascii "pkg.readers"), (ascii "as", ascii "import.from")]
  symbols := by decide +kernel
  modules := by decide +kernel
  symbols_nodup := by decide
  blueprints :=
    [⟨ascii "ParserPlugin", .reader, by decide, ascii "\"]) # BasePlugin(name=\"x\", obj=as)",
        by decide, ascii "Reader", some [], none, some [lineFeed, tab, 0, 0xFF], some true, none⟩,
      ⟨ascii "PluginSpec.utility", .utility, by decide, ascii "\"\"\"", by decide, ascii "as", none,
        some (ascii "'"), none, none, some (ascii "Reader")⟩]
  blueprints_ne := by decide
  names_nodup := by decide +kernel
  imported := by decide +kernel

theorem extractSource_nested :
    let extractor := Extractor.ofRequest
      ⟨[], [], ascii "demo", [], [], [], none, ascii "r2x_plugin", none, ascii "plugins",
        .automatic⟩
    extractor.roots = [] ∧
      (extractor.extractSource (.empty (ascii "work")) nested.source (ascii "demo.pkg")).1.outcome =
        .ok ⟨ascii "demo", nested.blueprints.map nested.plugin⟩ := by
  intro extractor
  have hr : extractor.roots = [] := by decide
  exact ⟨hr, (nested.extractSource_source rfl hr (.empty (ascii "work")) (ascii "demo.pkg")).1⟩

end Catalog

end ManifestScan
