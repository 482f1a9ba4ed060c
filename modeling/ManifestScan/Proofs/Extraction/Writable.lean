import ManifestScan.Proofs.Document.Distinct
import ManifestScan.Proofs.Document.Manifest
import ManifestScan.Proofs.Extraction.Module
import ManifestScan.Proofs.Lookup.Parameters

namespace ManifestScan

open Document

theorem Parameter.Writable.distinct {parameter : Parameter} (h : parameter.Writable) :
    parameter.tree.Distinct := by
  refine (((RecordDistinct.optional "annotation" fun _ _ => .scalar rfl).append
    (.optional "default" fun text ht => .scalar ?_)).append
      (.single "is_required" (.scalar rfl))).distinct (by decide)
  obtain ⟨document, hr, hs⟩ := h.default text ht
  rwa [ofText, hr]

/-- The parameters of a callable can be written to one object. -/
def Callable.Writable (callable : Callable) : Prop := Parameter.AllWritable callable.parameters

namespace Callable

variable {callable : Callable}

theorem Writable.distinct (h : callable.Writable) : callable.tree.Distinct := by
  have hp : (Document.object (callable.parameters.map fun p => (p.name, p.tree))).Distinct := by
    refine .object ?_ fun member hm => ?_
    · rw [List.map_map]
      exact Parameter.AllWritable.distinct h
    · obtain ⟨parameter, hp, rfl⟩ := List.mem_map.1 hm
      exact (h.each parameter hp).distinct
  have hr : (callable.returns.elim Document.null .string).Distinct := by
    cases callable.returns <;> exact .scalar rfl
  exact (RecordDistinct.cons "module" (.scalar rfl) (.cons "name" (.scalar rfl)
    (.cons "type" (.scalar rfl) (.cons "return_annotation" hr
      (.single "parameters" hp))))).distinct (by decide)

theorem Writable.defaults (h : callable.Writable) :
    ∀ text ∈ callable.defaults, (read? text).isSome := by
  intro text ht
  obtain ⟨parameter, hp, ht⟩ := List.mem_flatMap.1 ht
  obtain ⟨document, hr, -⟩ := (h.each parameter hp).default text (Option.mem_toList.1 ht)
  rw [hr]
  rfl

end Callable

theorem UpgradeStep.distinct {step : UpgradeStep} (h : step.function.Writable) :
    step.tree.Distinct :=
  (((RecordDistinct.cons "name" (.scalar rfl) (.cons "func" h.distinct
    (.cons "target_version" (.scalar rfl) (.cons "upgrade_type" (.scalar rfl)
      (.single "priority" (.scalar rfl)))))).append
        (.optional "min_version" fun _ _ => .scalar rfl)).append
          (.optional "max_version" fun _ _ => .scalar rfl)).distinct (by decide)

def Value.callables (value : Value) : List Callable := value.target?.toList ++ value.functions

def Plugin.callables (plugin : Plugin) : List Callable := plugin.targets ++ plugin.functions

theorem distinct_steps {steps : List UpgradeStep}
    (h : ∀ function ∈ steps.map (·.function), function.Writable) :
    (Document.array (steps.map (·.tree))).Distinct :=
  distinct_map fun _ hs => UpgradeStep.distinct (h _ (List.mem_map_of_mem hs))

theorem read?_steps {steps : List UpgradeStep}
    (h : ∀ function ∈ steps.map (·.function), function.Writable) :
    ∀ text ∈ steps.flatMap (·.defaults), (read? text).isSome := by
  intro text ht
  obtain ⟨step, hs, ht⟩ := List.mem_flatMap.1 ht
  exact (h _ (List.mem_map_of_mem hs)).defaults text ht

theorem Value.read?_defaults {value : Value}
    (h : ∀ callable ∈ value.callables, callable.Writable) :
    ∀ text ∈ value.defaults, (read? text).isSome := by
  cases value with
  | null | boolean value | string text | expression text | emptyArray => exact nofun
  | callable target => exact (h target List.mem_cons_self).defaults
  | steps list => exact read?_steps h

theorem Value.distinct {value : Value} (h : ∀ callable ∈ value.callables, callable.Writable) :
    value.tree.Distinct := by
  cases value with
  | null | boolean value | string text | expression text => exact .scalar rfl
  | emptyArray => exact .array nofun
  | callable target => exact Callable.Writable.distinct (h target List.mem_cons_self)
  | steps list => exact distinct_steps h

namespace Plugin

variable {plugin : Plugin}

/-- The parts of a plugin that hold callables, one by one. -/
theorem forall_callables {P : Callable → Prop} (h : ∀ callable ∈ plugin.callables, P callable) :
    P plugin.callable ∧ (∀ target ∈ plugin.config, P target) ∧
      (∀ value ∈ plugin.versionStrategy, ∀ callable ∈ value.callables, P callable) ∧
      (∀ value ∈ plugin.versionReader, ∀ callable ∈ value.callables, P callable) ∧
      ∀ steps ∈ plugin.upgradeSteps, ∀ function ∈ steps.map (·.function), P function := by
  obtain ⟨hc, hg, hs, hr⟩ := Workspace.forall_targets fun target ht =>
    h target (List.mem_append_left _ ht)
  have hf : ∀ function ∈ plugin.functions, P function := fun function hm =>
    h function (List.mem_append_right _ hm)
  unfold functions at hf
  refine ⟨hc, hg, fun value hv callable hm => ?_, fun value hv callable hm => ?_,
    fun steps hu function hm => ?_⟩
  · rcases List.mem_append.1 hm with hm | hm
    · exact hs value hv callable (Option.mem_toList.1 hm)
    · rw [Option.mem_def.1 hv] at hf
      exact hf callable (List.mem_append_left _ (List.mem_append_right _ hm))
  · rcases List.mem_append.1 hm with hm | hm
    · exact hr value hv callable (Option.mem_toList.1 hm)
    · rw [Option.mem_def.1 hv] at hf
      exact hf callable (List.mem_append_right _ hm)
  · rw [Option.mem_def.1 hu] at hf
    exact hf function (List.mem_append_left _ (List.mem_append_left _ hm))

theorem distinct (h : ∀ callable ∈ plugin.callables, callable.Writable) :
    plugin.tree.Distinct := by
  obtain ⟨hc, hg, hs, hr, hu⟩ := forall_callables h
  exact (RecordDistinct.append (.append (.append (.append (.append (.append (.append (.append
    (.cons "name" (.scalar rfl) (.cons "plugin_type" (.scalar rfl)
      (.single "obj" hc.distinct)))
    (.optional "call_method" fun _ _ => .scalar rfl))
    (.optional "config" fun target ht => (hg target ht).distinct))
    (.optional "io_type" fun _ _ => .scalar rfl))
    (.optional "requires_store" fun _ _ => .scalar rfl))
    (.optional "version_strategy" fun value hv => Value.distinct (hs value hv)))
    (.optional "version_reader" fun value hv => Value.distinct (hr value hv)))
    (.optional "upgrade_steps" fun steps hm => distinct_steps (hu steps hm)))
    (.optional "description" fun _ _ => .scalar rfl)).distinct (by decide)

theorem read?_defaults (h : ∀ callable ∈ plugin.callables, callable.Writable) :
    ∀ text ∈ plugin.defaults, (read? text).isSome := by
  obtain ⟨hc, hg, hs, hr, hu⟩ := forall_callables h
  intro text ht
  simp only [defaults, List.mem_append, List.mem_flatMap, Option.mem_toList] at ht
  rcases ht with (((ht | ⟨target, hm, ht⟩) | ⟨value, hm, ht⟩) | ⟨value, hm, ht⟩) | ⟨steps, hm, ht⟩
  · exact hc.defaults text ht
  · exact (hg target hm).defaults text ht
  · exact Value.read?_defaults (hs value hm) text ht
  · exact Value.read?_defaults (hr value hm) text ht
  · exact read?_steps (hu steps hm) text (List.mem_flatMap.2 ht)

end Plugin

/-- The manifest can be written: its file says all that it holds if no control byte stands in a
string value and is no document otherwise, and no object of it has a key twice. -/
structure Manifest.Writable (manifest : Manifest) : Prop where
  callables : ∀ plugin ∈ manifest.plugins, ∀ callable ∈ plugin.callables, callable.Writable
  document : read? manifest.render =
    if manifest.texts.all isPlain then some manifest.tree else none
  distinct : manifest.tree.Distinct

theorem Manifest.writable {manifest : Manifest}
    (h : ∀ plugin ∈ manifest.plugins, ∀ callable ∈ plugin.callables, callable.Writable) :
    manifest.Writable := by
  have hd : ∀ text ∈ manifest.defaults, (read? text).isSome := by
    intro text ht
    obtain ⟨plugin, hp, ht⟩ := List.mem_flatMap.1 ht
    exact Plugin.read?_defaults (h plugin hp) text ht
  have hc := manifest.conveys
  refine ⟨h, ?_, ?_⟩
  · rw [render, Json.read?_document (by rwa [hc.verbatims]), hc.meaning hd]
    rfl
  · have hp := distinct_map fun plugin hp => Plugin.distinct (h plugin hp)
    have hm : (Document.object []).Distinct := .object List.nodup_nil (by simp)
    exact (RecordDistinct.cons "name" (.scalar rfl) (.cons "plugins" hp
      (.single "metadata" hm))).distinct (by decide)

namespace Extractor

theorem writable_extractSource {extractor : Extractor} {tree : FileTree} {source package : Bytes}
    {manifest : Manifest}
    (hm : (extractor.extractSource tree source package).1.manifest? = some manifest) :
    manifest.Writable := by
  have hg : (extractor.workspaceOf tree source package).Grants Callable.Writable
      Callable.Writable :=
    ⟨fun _ _ _ => Parameter.allWritable_nil,
      fun _ _ _ _ _ _ hf => Signature.allWritable_find? hf,
      fun _ _ _ => StepList.allWritable_ofModule⟩
  refine Manifest.writable fun plugin hp callable hc => ?_
  have hh := extractSource_holds hg hm plugin hp
  exact (List.mem_append.1 hc).elim (hh.targets callable) (hh.functions callable)

/-- Everything that is extracted can be written. -/
theorem extract_writable (extractor : Extractor) (tree : FileTree) :
    (∀ source package manifest,
      (extractor.extractSource tree source package).1.manifest? = some manifest →
        manifest.Writable) ∧
    ∀ manifest, (extractor.extract tree).1.manifest? = some manifest → manifest.Writable := by
  refine ⟨fun source package manifest hm => writable_extractSource hm, fun manifest hm => ?_⟩
  obtain ⟨path, package, source, -, -, hm⟩ := manifest?_extract hm
  exact writable_extractSource hm

/-- A module with a class whose constructor has a parameter twice, and a default with a quote. -/
def signedTree : FileTree :=
  ⟨.directory [(ascii "work", .directory [(ascii "a.py", .file
    (ascii "class A:\n    def __init__(self, x: int, *, y='a\"', x=1.5e3):\n        pass\n"))])],
    ascii "/work", none⟩

def signedManifest : Manifest :=
  ⟨ascii "demo", [⟨ascii "x", .reader, ⟨ascii "a", ascii "A", .type, none,
    [⟨ascii "x", some (ascii "int"), none, true⟩,
      ⟨ascii "y", none, some (ascii "\"a\\\"\""), false⟩]⟩,
    none, none, none, none, none, none, none, none⟩]⟩

theorem extract_writable_signed :
    ((ofRequest mixedRequest).extractSource signedTree (importingSource (ascii "a"))
        []).1.manifest? = some signedManifest ∧
      read? signedManifest.render = some signedManifest.tree ∧ signedManifest.tree.Distinct := by
  have hm : ((ofRequest mixedRequest).extractSource signedTree (importingSource (ascii "a"))
      []).1.manifest? = some signedManifest := by
    decide +kernel
  obtain ⟨h, -⟩ := extract_writable (ofRequest mixedRequest) signedTree
  have hw := h _ _ _ hm
  exact ⟨hm, hw.document.trans (if_pos (by decide +kernel)), hw.distinct⟩

/-- A registration whose name is written with an escaped line end. -/
def brokenNameSource : Bytes :=
  ascii "from a import A\ndef register_plugin():\n" ++
    ascii "    return Package(plugins=[ParserPlugin(name='a\\nb', obj=A)])\n"

def brokenNameManifest : Manifest :=
  ⟨ascii "demo", [⟨ascii "a\nb", .reader, ⟨ascii "a", ascii "A", .type, none, []⟩, none, none, none,
    none, none, none, none, none⟩]⟩

/-- What is extracted there is no document when it is written. -/
theorem extractSource_unreadable :
    ((ofRequest mixedRequest).extractSource (.empty (ascii "work")) brokenNameSource
        []).1.manifest? = some brokenNameManifest ∧
      read? brokenNameManifest.render = none := by
  refine ⟨by decide +kernel, ?_⟩
  rw [← Option.isNone_iff_eq_none]
  decide +kernel

end Extractor

end ManifestScan
