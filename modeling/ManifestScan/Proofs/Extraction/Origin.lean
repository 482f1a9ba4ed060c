import ManifestScan.Proofs.Extraction.Independence

namespace ManifestScan

def Value.functions : Value → List Callable
  | .steps list => list.map (·.function)
  | _ => []

/-- No expression is classified as steps; they are looked up. -/
theorem Classification.functions_ofText {table : ImportTable} {text : Bytes} {value : Value}
    (h : ofText table text = .classified value) : value.functions = [] := by
  have ha : ∀ name text : Bytes, ofAttribute name text = .classified value →
      value.functions = [] := by
    intro name text h
    unfold ofAttribute at h
    repeat' split at h
    all_goals cases h
    rfl
  simp only [ofText, ofExpression] at h
  repeat' split at h
  all_goals first
    | exact ha _ _ h
    | cases h; rfl

/-- The functions of all steps of a draft, also of those in a value. -/
def Draft.functions (draft : Draft) : List Callable :=
  (draft.upgradeSteps.getD []).map (·.function) ++ draft.versionStrategy.elim [] Value.functions ++
    draft.versionReader.elim [] Value.functions

def Plugin.functions (plugin : Plugin) : List Callable :=
  (plugin.upgradeSteps.getD []).map (·.function) ++
    plugin.versionStrategy.elim [] Value.functions ++ plugin.versionReader.elim [] Value.functions

namespace Draft

/-- A field takes no step but those of its value. -/
theorem mem_functions_set {draft next : Draft} {argument : KeywordArgument} {value : Value}
    {field : Field} (h : draft.set argument value field = .ok next) {function : Callable}
    (hf : function ∈ next.functions) : function ∈ draft.functions ∨ function ∈ value.functions := by
  rw [eq_update_of_set h] at hf
  cases field with
  | upgradeSteps =>
    cases value with
    | steps list | emptyArray =>
      simp only [update, Value.steps?, Option.some_or, functions, Value.functions] at hf ⊢
      grind
    | _ => exact .inl hf
  | versionStrategy | versionReader =>
    simp only [update, functions, Option.elim] at hf ⊢
    grind
  | _ => exact .inl hf

theorem functions_finish {draft : Draft} {kind : PluginKind} {plugin : Plugin}
    (h : draft.finish kind = .ok plugin) : plugin.functions = draft.functions := by
  unfold finish at h
  split at h <;> cases h
  rfl

end Draft

def SignatureMemo.Read (memo : SignatureMemo) : Prop :=
  ∀ entry ∈ memo.entries, ∀ signature ∈ entry.2, ∃ source name kind,
    Signature.find? source name kind = some signature

theorem SignatureMemo.read_empty : SignatureMemo.empty.Read := by
  intro entry he
  cases he

namespace Signature

variable {tree : FileTree} {indexes : IndexCache} {signature : Signature}

theorem of_inFiles {name : Bytes} {kind : CallableKind} {files : List FilePath}
    (h : (inFiles tree name kind files).found = some signature) :
    ∃ source, find? source name kind = some signature := by
  induction files with
  | nil => cases h
  | cons file others ih =>
    rw [inFiles] at h
    split at h
    · exact ih h
    · rename_i source _
      split at h
      · rename_i found hf
        cases h
        exact ⟨source, hf⟩
      · exact ih h

theorem of_search {parts : List Bytes} {name : Bytes} {kind : CallableKind} {roots : List FilePath}
    (h : (search tree parts name kind indexes roots).1.found = some signature) :
    ∃ source, find? source name kind = some signature := by
  induction roots generalizing indexes with
  | nil => cases h
  | cons root others ih =>
    unfold search at h
    split at h
    · exact ih h
    · dsimp only at h
      split at h
      · exact of_inFiles h
      · exact ih h

end Signature

/-- A callable is completed with a signature that was read from some source, now or before. -/
theorem Callable.complete_holds {P : Callable → Prop} {callable : Callable} {tree : FileTree}
    {roots : List FilePath} {memo : SignatureMemo} {indexes : IndexCache}
    (hs : ∀ signature, (∃ source name kind, Signature.find? source name kind = some signature) →
      P (callable.withSignature signature)) (hc : P callable) (hm : memo.Read) :
    P (callable.complete tree roots memo indexes).1 ∧
      (callable.complete tree roots memo indexes).2.1.Read := by
  have hfound : ∀ found : Option Signature, (∀ signature ∈ found, ∃ source name kind,
      Signature.find? source name kind = some signature) →
        P (found.elim callable callable.withSignature) := by
    intro found hf
    cases found with
    | none => exact hc
    | some signature => exact hs signature (hf signature rfl)
  unfold complete
  split
  · exact ⟨hc, hm⟩
  · dsimp only [Signature.lookUp]
    split
    · rename_i known hk
      exact ⟨hfound known (hm _ (mem_of_lookup hk)), hm⟩
    · have hsearch : ∀ signature ∈ (Signature.search tree (Signature.moduleParts callable.module)
          callable.name callable.kind indexes roots).1.found, ∃ source name kind,
            Signature.find? source name kind = some signature := by
        intro signature hs
        obtain ⟨source, hf⟩ := Signature.of_search hs
        exact ⟨source, _, _, hf⟩
      exact ⟨hfound _ hsearch, List.forall_mem_cons.2 ⟨hsearch, hm⟩⟩

namespace StepList

variable {tree : FileTree} {className : Bytes}

theorem mem_ofFile {index : SourceIndex} {file : FilePath} {step : UpgradeStep}
    (h : step ∈ (ofFile tree index className file).steps) :
    ∃ source module, step ∈ (ofModule source className module).steps := by
  unfold ofFile at h
  split at h
  · cases h
  · split at h
    · exact ⟨_, _, h⟩
    · cases h

/-- A step is found in a module. -/
theorem mem_search {root : FilePath} {reported : List FilePath} {indexes : IndexCache} :
    ∀ step ∈ (search tree className root reported indexes).1.steps,
      ∃ source module, step ∈ (ofModule source className module).steps := by
  have hfiles (index : SourceIndex) :
      ∀ step ∈ ((index.files.map (ofFile tree index className)).foldl append empty).steps,
        ∃ source module, step ∈ (ofModule source className module).steps := by
    refine List.foldlRecOn (motive := fun found : StepList => ∀ step ∈ found.steps,
      ∃ source module, step ∈ (ofModule source className module).steps) _ _ nofun ?_
    intro found h list hl step hs
    obtain ⟨file, -, rfl⟩ := List.mem_map.1 hl
    rcases List.mem_append.1 hs with hs | hs
    · exact h step hs
    · exact mem_ofFile hs
  unfold search
  dsimp only
  split
  · exact hfiles _
  · exact hfiles _

end StepList

/-- `P` holds of every imported name and stays with every signature, and `Q` holds of the function
of every step. -/
structure Workspace.Grants (workspace : Workspace) (P Q : Callable → Prop) : Prop where
  reference : ∀ name binding, workspace.imports.find? name = some binding →
    P (Classification.reference binding)
  signature : ∀ callable source name kind signature, P callable →
    Signature.find? source name kind = some signature → P (callable.withSignature signature)
  step : ∀ source className module, ∀ step ∈ (StepList.ofModule source className module).steps,
    Q step.function

structure Plugin.Holds (P Q : Callable → Prop) (plugin : Plugin) : Prop where
  targets : ∀ target ∈ plugin.targets, P target
  functions : ∀ function ∈ plugin.functions, Q function

namespace Workspace

variable {workspace : Workspace} {P Q : Callable → Prop} {progress : Progress}

theorem valueOf_functions (h : workspace.Grants P Q) {text : Bytes} {value : Value}
    (hv : (workspace.valueOf text progress).1 = .ok value) :
    ∀ function ∈ value.functions, Q function := by
  unfold valueOf at hv
  split at hv
  · rename_i found hc
    cases hv
    rw [Classification.functions_ofText hc]
    exact nofun
  · cases hv
  · cases hv
    intro function hf
    obtain ⟨step, hs, rfl⟩ := List.mem_map.1 hf
    obtain ⟨source, module, hm⟩ := StepList.mem_search step hs
    exact h.step _ _ _ step hm

theorem readArguments_functions (h : workspace.Grants P Q) {callee : Bytes} {draft next : Draft}
    {seen : List Bytes} {arguments : List KeywordArgument}
    (hd : ∀ function ∈ draft.functions, Q function)
    (hr : (workspace.readArguments callee draft seen progress arguments).1 = .ok next) :
    ∀ function ∈ next.functions, Q function := by
  induction arguments generalizing draft seen progress with
  | nil => cases hr; exact hd
  | cons argument others ih =>
    unfold readArguments at hr
    split at hr
    · cases hr
    · split at hr
      · exact ih hd hr
      · split at hr
        · cases hr
        · rename_i value progress' hv
          split at hr
          · cases hr
          · rename_i draft' hs
            refine ih (fun function hf => ?_) hr
            rcases Draft.mem_functions_set hs hf with hf | hf
            · exact hd function hf
            · exact valueOf_functions h (by rw [hv]) function hf

/-- Reading arguments looks up no signature. -/
theorem readArguments_signatures (callee : Bytes) (draft : Draft) (seen : List Bytes)
    (progress : Progress) (arguments : List KeywordArgument) :
    (workspace.readArguments callee draft seen progress arguments).2.signatures =
      progress.signatures := by
  have hvalue (text : Bytes) (progress : Progress) :
      (workspace.valueOf text progress).2.signatures = progress.signatures := by
    unfold valueOf
    split <;> rfl
  induction arguments generalizing draft seen progress with
  | nil => rfl
  | cons argument others ih =>
    unfold readArguments
    split
    · rfl
    · split
      · exact ih _ _ _
      · have hv := hvalue argument.value progress
        split
        · rename_i he
          rwa [he] at hv
        · rename_i value next he
          rw [he] at hv
          split
          · exact hv
          · exact (ih _ _ _).trans hv

theorem completeCallable_holds (h : workspace.Grants P Q) {callable : Callable} (hc : P callable)
    (hm : progress.signatures.Read) :
    P (workspace.completeCallable callable progress).1 ∧
      (workspace.completeCallable callable progress).2.signatures.Read :=
  Callable.complete_holds (fun _ ⟨source, name, kind, hs⟩ => h.signature _ source name kind _ hc hs)
    hc hm

theorem completeValue_holds (h : workspace.Grants P Q) {value : Value}
    (hv : ∀ target ∈ value.target?, P target) (hm : progress.signatures.Read) :
    (∀ target ∈ (workspace.completeValue value progress).1.target?, P target) ∧
      (workspace.completeValue value progress).2.signatures.Read := by
  unfold completeValue
  split
  · rename_i target
    obtain ⟨hc, hr⟩ := completeCallable_holds h (hv target rfl) hm
    refine ⟨fun other ho => ?_, hr⟩
    cases ho
    exact hc
  · exact ⟨hv, hm⟩

section

variable {α : Type} {complete : α → Progress → α × Progress} {value : Option α} {R : α → Prop}

theorem completeOption_holds (hc : ∀ a ∈ value, ∀ progress : Progress, progress.signatures.Read →
      R (complete a progress).1 ∧ (complete a progress).2.signatures.Read)
    (hm : progress.signatures.Read) :
    (∀ a ∈ (completeOption complete value progress).1, R a) ∧
      (completeOption complete value progress).2.signatures.Read := by
  cases value with
  | none => exact ⟨nofun, hm⟩
  | some a =>
    obtain ⟨ha, hr⟩ := hc a rfl progress hm
    refine ⟨fun other ho => ?_, hr⟩
    cases ho
    exact ha

end

/-- Completing a plugin touches no step. -/
theorem completePlugin_functions (plugin : Plugin) (progress : Progress) :
    (workspace.completePlugin plugin progress).1.functions = plugin.functions := by
  have hvalue (value : Value) (progress : Progress) :
      (workspace.completeValue value progress).1.functions = value.functions := by
    unfold completeValue
    split <;> rfl
  have hoption (value : Option Value) (progress : Progress) :
      (completeOption workspace.completeValue value progress).1.elim [] Value.functions =
        value.elim [] Value.functions := by
    cases value with
    | none => rfl
    | some value => exact hvalue value progress
  unfold completePlugin Plugin.functions
  dsimp only
  rw [hoption, hoption]

theorem completePlugin_targets (h : workspace.Grants P Q) {plugin : Plugin}
    (hp : ∀ target ∈ plugin.targets, P target) (hm : progress.signatures.Read) :
    (∀ target ∈ (workspace.completePlugin plugin progress).1.targets, P target) ∧
      (workspace.completePlugin plugin progress).2.signatures.Read := by
  obtain ⟨hcallable, hconfig, hstrategy, hreader⟩ := forall_targets hp
  obtain ⟨h1, hm⟩ := completeCallable_holds h hcallable hm
  obtain ⟨h2, hm⟩ := completeOption_holds
    (fun a ha _ hm => completeCallable_holds h (hconfig a ha) hm) hm
  obtain ⟨h3, hm⟩ := completeOption_holds
    (R := fun value : Value => ∀ target ∈ value.target?, P target)
    (fun a ha _ hm => completeValue_holds h (hstrategy a ha) hm) hm
  obtain ⟨h4, hm⟩ := completeOption_holds
    (R := fun value : Value => ∀ target ∈ value.target?, P target)
    (fun a ha _ hm => completeValue_holds h (hreader a ha) hm) hm
  refine ⟨fun target ht => ?_, hm⟩
  simp only [Plugin.targets, List.mem_append, List.mem_cons, Option.mem_toList,
    Option.bind_eq_some_iff] at ht
  rcases ht with ((rfl | ht) | ⟨value, hv, ht⟩) | ⟨value, hv, ht⟩
  · exact h1
  · exact h2 target ht
  · exact h3 value hv target ht
  · exact h4 value hv target ht

theorem buildPlugin_holds (h : workspace.Grants P Q) (registration : Registration)
    (hm : progress.signatures.Read) :
    (∀ plugin, (workspace.buildPlugin registration progress).1 = .ok plugin → plugin.Holds P Q) ∧
      (workspace.buildPlugin registration progress).2.signatures.Read := by
  unfold buildPlugin
  split
  · exact ⟨fun _ he => (by cases he), hm⟩
  · dsimp only
    split
    · exact ⟨fun _ he => (by cases he), hm⟩
    · have hs := @readArguments_signatures workspace registration.callee .empty [] progress
        (ArgumentList.ofCall registration.text).arguments
      rw [← hs] at hm
      split
      · rename_i he
        rw [he] at hm
        exact ⟨fun _ he => (by cases he), hm⟩
      · rename_i draft next he
        rw [he] at hm
        split
        · exact ⟨fun _ he => (by cases he), hm⟩
        · rename_i plugin hf
          have htargets := readArguments_targets h.reference (by simp [Draft.targets, Draft.empty])
            (congrArg Prod.fst he)
          have hfunctions := readArguments_functions h (by simp [Draft.functions, Draft.empty])
            (congrArg Prod.fst he)
          rw [← Draft.targets_finish hf] at htargets
          rw [← Draft.functions_finish hf] at hfunctions
          obtain ⟨ht, hr⟩ := completePlugin_targets h htargets hm
          refine ⟨fun other ho => ?_, hr⟩
          cases ho
          refine ⟨ht, ?_⟩
          rwa [completePlugin_functions]

theorem buildPlugins_holds (h : workspace.Grants P Q) {ordinal : Nat} {plugins : List Plugin}
    (hp : ∀ plugin ∈ plugins, plugin.Holds P Q) (hm : progress.signatures.Read)
    (registrations : List Registration) :
    ∀ plugin ∈ (workspace.buildPlugins ordinal plugins progress registrations).1,
      plugin.Holds P Q := by
  induction registrations generalizing ordinal plugins progress with
  | nil => exact hp
  | cons registration others ih =>
    obtain ⟨hb, hr⟩ := buildPlugin_holds h registration hm
    unfold buildPlugins
    generalize workspace.buildPlugin registration progress = built at hb hr
    obtain ⟨found, next⟩ := built
    cases found with
    | error failure => exact ih hp hr
    | ok plugin =>
      dsimp only [addPlugin]
      split
      · exact ih hp hr
      · refine ih (fun other ho => ?_) hr
        rcases List.mem_append.1 ho with ho | ho
        · exact hp other ho
        · rw [List.mem_singleton.1 ho]
          exact hb plugin rfl

end Workspace

theorem Extraction.outcome_of_manifest? {extraction : Extraction} {manifest : Manifest}
    (h : extraction.manifest? = some manifest) : extraction.outcome = .ok manifest := by
  unfold manifest? at h
  cases ho : extraction.outcome with
  | error failure =>
    rw [ho] at h
    cases h
  | ok found =>
    rw [ho] at h
    cases h
    rfl

namespace Extractor

variable {P Q : Callable → Prop} {extractor : Extractor} {tree : FileTree} {manifest : Manifest}

theorem extractSource_holds {source package : Bytes}
    (h : (extractor.workspaceOf tree source package).Grants P Q)
    (hm : (extractor.extractSource tree source package).1.manifest? = some manifest) :
    ∀ plugin ∈ manifest.plugins, plugin.Holds P Q := by
  have hm := Extraction.outcome_of_manifest? hm
  unfold extractSource at hm
  dsimp only at hm
  split at hm
  · cases hm
  · cases hm
    exact Workspace.buildPlugins_holds h (by simp) SignatureMemo.read_empty _

/-- The manifest of a located file is the manifest of its source. -/
theorem manifest?_extract (hm : (extractor.extract tree).1.manifest? = some manifest) :
    ∃ path package source, (extractor.locate tree).file = .ok (path, package) ∧
      tree.read? path = some source ∧
        (((extractor.locate tree).extractor.settleRoot path).extractSource tree source
          package).1.manifest? = some manifest := by
  unfold extract at hm
  dsimp only at hm
  split at hm
  · cases hm
  · rename_i path package hf
    split at hm
    · cases hm
    · rename_i source hs
      exact ⟨path, package, source, hf, hs, hm⟩

end Extractor

end ManifestScan
