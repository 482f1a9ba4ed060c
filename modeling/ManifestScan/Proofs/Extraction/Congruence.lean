import ManifestScan.Proofs.Extraction.Reference
import ManifestScan.Proofs.Lookup.Faithful

namespace ManifestScan

namespace Progress

variable {R : Progress → Progress → Prop} {α β : Type}

/-- Work that gives one result on related progress, and leaves related progress. -/
def Respects (R : Progress → Progress → Prop) (work : Progress → α × Progress) : Prop :=
  ∀ ⦃first second⦄, R first second →
    (work first).1 = (work second).1 ∧ R (work first).2 (work second).2

theorem Respects.pure (result : α) : Respects R fun progress => (result, progress) := by
  intro first second h
  exact ⟨rfl, h⟩

/-- Work that starts from a change to the progress. -/
theorem Respects.comp {work : Progress → α × Progress} {change : Progress → Progress}
    (h : Respects R work)
    (hc : ∀ ⦃first second⦄, R first second → R (change first) (change second)) :
    Respects R fun progress => work (change progress) := by
  intro first second hr
  exact h (hc hr)

/-- Work that goes on with the result of other work. -/
theorem Respects.bind {work : Progress → α × Progress} {next : α → Progress → β × Progress}
    (h : Respects R work) (hn : ∀ result, Respects R (next result)) :
    Respects R fun progress => next (work progress).1 (work progress).2 := by
  intro first second hr
  obtain ⟨he, hr'⟩ := h hr
  dsimp only
  rw [← he]
  exact hn _ hr'

/-- Work on related progress, taken apart. -/
theorem Respects.outcome {work : Progress → α × Progress} (h : Respects R work)
    {first second : Progress} (hr : R first second) :
    ∃ result next next', work first = (result, next) ∧ work second = (result, next') ∧
      R next next' := by
  obtain ⟨he, hr'⟩ := h hr
  refine ⟨(work first).1, (work first).2, (work second).2, rfl, ?_, hr'⟩
  rw [he]

end Progress

/-- Remarks and look-ups respect a relation of progress; of the callables, those are looked up for
which `P` holds. -/
structure Workspace.Respects (workspace : Workspace) (R : Progress → Progress → Prop)
    (P : Callable → Prop) : Prop where
  note : ∀ text ⦃first second⦄, R first second → R (first.note text) (second.note text)
  stepsOf : ∀ className, Progress.Respects R (workspace.stepsOf className)
  callable : ∀ {callable}, P callable → Progress.Respects R (workspace.completeCallable callable)

namespace Workspace

variable {workspace : Workspace} {R : Progress → Progress → Prop} {P : Callable → Prop}

theorem respects_completeOption {α : Type} {complete : α → Progress → α × Progress}
    {value : Option α} (h : ∀ a ∈ value, Progress.Respects R (complete a)) :
    Progress.Respects R (completeOption complete value) := by
  cases value with
  | none => exact .pure _
  | some a => exact (h a rfl).bind fun _ => .pure _

namespace Respects

theorem valueOf (h : workspace.Respects R P) (text : Bytes) :
    Progress.Respects R (workspace.valueOf text) := by
  unfold Workspace.valueOf
  cases Classification.ofText workspace.imports text with
  | classified value => exact .pure _
  | unsupported failure => exact .pure _
  | decorated className => exact (h.stepsOf className).bind fun _ => .pure _

theorem readArguments (h : workspace.Respects R P) (callee : Bytes) (draft : Draft)
    (seen : List Bytes) (arguments : List KeywordArgument) :
    Progress.Respects R fun progress =>
      workspace.readArguments callee draft seen progress arguments := by
  induction arguments generalizing draft seen with
  | nil => exact .pure _
  | cons argument others ih =>
    unfold Workspace.readArguments
    split
    · exact .pure _
    · cases Draft.Field.ofKeyword? argument.key with
      | none => exact (ih draft (argument.key :: seen)).comp (h.note _)
      | some field =>
        intro first second hr
        obtain ⟨result, next, next', hf, hs, hr'⟩ := (h.valueOf argument.value).outcome hr
        dsimp only
        rw [hf, hs]
        cases result with
        | error failure => exact ⟨rfl, hr'⟩
        | ok value =>
          dsimp only
          cases draft.set argument value field with
          | error failure => exact ⟨rfl, hr'⟩
          | ok draft => exact ih draft (argument.key :: seen) hr'

theorem completeValue (h : workspace.Respects R P) {value : Value}
    (hv : ∀ target ∈ value.target?, P target) :
    Progress.Respects R (workspace.completeValue value) := by
  unfold Workspace.completeValue
  cases value with
  | callable target => exact (h.callable (hv target rfl)).bind fun _ => .pure _
  | _ => exact .pure _

/-- The signatures of a plugin are looked up one after the other. -/
theorem completePlugin (h : workspace.Respects R P) {plugin : Plugin}
    (hp : ∀ target ∈ plugin.targets, P target) :
    Progress.Respects R (workspace.completePlugin plugin) := by
  obtain ⟨hc, hg, hs, hr⟩ := forall_targets hp
  intro first second h0
  obtain ⟨e1, h1⟩ := h.callable hc h0
  obtain ⟨e2, h2⟩ := respects_completeOption (fun a ha => h.callable (hg a ha)) h1
  obtain ⟨e3, h3⟩ := respects_completeOption (fun a ha => h.completeValue (hs a ha)) h2
  obtain ⟨e4, h4⟩ := respects_completeOption (fun a ha => h.completeValue (hr a ha)) h3
  refine ⟨?_, h4⟩
  unfold Workspace.completePlugin
  dsimp only
  rw [e1, e2, e3, e4]

/-- `P` holds of the callables of a registration when it holds of all that a name refers to. -/
theorem buildPlugin (h : workspace.Respects R P)
    (hP : ∀ name binding, workspace.imports.find? name = some binding →
      P (Classification.reference binding)) (registration : Registration) :
    Progress.Respects R (workspace.buildPlugin registration) := by
  unfold Workspace.buildPlugin
  cases PluginKind.ofConstructor? registration.callee with
  | none => exact .pure _
  | some kind =>
    dsimp only
    cases (ArgumentList.ofCall registration.text).failure with
    | some failure => exact .pure _
    | none =>
      intro first second hr
      obtain ⟨result, next, next', hf, hs, hr'⟩ := (h.readArguments registration.callee .empty []
        (ArgumentList.ofCall registration.text).arguments).outcome hr
      dsimp only at hf hs ⊢
      rw [hf, hs]
      cases result with
      | error failure => exact ⟨rfl, hr'⟩
      | ok draft =>
        dsimp only
        cases hd : draft.finish kind with
        | error failure => exact ⟨rfl, hr'⟩
        | ok plugin =>
          have hp : ∀ target ∈ plugin.targets, P target := by
            rw [Draft.targets_finish hd]
            exact readArguments_targets hP (by simp [Draft.targets, Draft.empty])
              (congrArg Prod.fst hf)
          obtain ⟨he, hr''⟩ := h.completePlugin hp hr'
          dsimp only
          rw [he]
          exact ⟨rfl, hr''⟩

/-- Registrations done one after the other, when warnings respect the relation as well. -/
theorem buildPlugins (h : workspace.Respects R P)
    (hP : ∀ name binding, workspace.imports.find? name = some binding →
      P (Classification.reference binding))
    (hw : ∀ warnings ⦃first second⦄, R first second →
      R (first.warn warnings) (second.warn warnings))
    (ordinal : Nat) (plugins : List Plugin) (found : List Registration) :
    Progress.Respects R fun progress => workspace.buildPlugins ordinal plugins progress found := by
  induction found generalizing ordinal plugins with
  | nil => exact .pure _
  | cons registration others ih =>
    have ha : ∀ plugin, Progress.Respects R
        (addPlugin ordinal registration.callee plugins plugin) := by
      intro plugin
      unfold addPlugin
      split
      · exact Progress.Respects.comp (.pure _) (hw _)
      · exact Progress.Respects.comp (.pure _) (h.note _)
    intro first second hr
    obtain ⟨result, next, next', hf, hs, hr'⟩ := (h.buildPlugin hP registration).outcome hr
    unfold Workspace.buildPlugins
    dsimp only
    rw [hf, hs]
    cases result with
    | error failure => exact ih _ _ (hw _ hr')
    | ok plugin =>
      obtain ⟨hp, hn⟩ := ha plugin hr'
      dsimp only
      rw [hp]
      exact ih _ _ hn

end Respects

end Workspace

namespace Progress

/-- Progress that knows the same signatures, by indexes of the tree. -/
structure Agrees (workspace : Workspace) (first second : Progress) : Prop where
  signatures : first.signatures = second.signatures
  faithful : first.indexes.Faithful workspace.tree
  faithful' : second.indexes.Faithful workspace.tree

/-- Progress that differs in its indexes at most. -/
structure Alike (workspace : Workspace) (first second : Progress) : Prop extends
    first.Agrees workspace second where
  reported : first.reported = second.reported
  warnings : first.warnings = second.warnings
  notes : first.notes = second.notes

variable {workspace : Workspace} {first second : Progress}

theorem Alike.note (h : first.Alike workspace second) (text : Bytes) :
    (first.note text).Alike workspace (second.note text) :=
  ⟨⟨h.signatures, h.faithful, h.faithful'⟩, h.reported, h.warnings,
    congrArg (· ++ [text]) h.notes⟩

theorem Alike.warn (h : first.Alike workspace second) (warnings : List Warning) :
    (first.warn warnings).Alike workspace (second.warn warnings) :=
  ⟨⟨h.signatures, h.faithful, h.faithful'⟩, h.reported, congrArg (· ++ warnings) h.warnings,
    h.notes⟩

end Progress

namespace Workspace

variable {workspace : Workspace}

theorem agrees_completeCallable {first second : Progress} (h : first.Agrees workspace second)
    (callable : Callable) :
    (workspace.completeCallable callable first).1 = (workspace.completeCallable callable second).1 ∧
      (workspace.completeCallable callable first).2.Agrees workspace
        (workspace.completeCallable callable second).2 := by
  unfold completeCallable
  rw [← h.signatures]
  obtain ⟨hc, hm⟩ := callable.complete_congr h.faithful h.faithful'
  exact ⟨hc, hm, callable.complete_indexes_faithful h.faithful,
    callable.complete_indexes_faithful h.faithful'⟩

/-- The signatures known so far settle those to come, whatever has been indexed and reported. -/
theorem respects_agrees (workspace : Workspace) :
    workspace.Respects (Progress.Agrees workspace) fun _ => True where
  note text := by
    intro first second h
    exact ⟨h.signatures, h.faithful, h.faithful'⟩
  stepsOf className := by
    intro first second h
    unfold stepsOf
    dsimp only
    rw [StepList.search_steps _ _ _ h.faithful, StepList.search_steps _ _ _ h.faithful']
    exact ⟨rfl, h.signatures, StepList.search_faithful _ _ _ h.faithful,
      StepList.search_faithful _ _ _ h.faithful'⟩
  callable _ := by
    intro first second h
    exact agrees_completeCallable h _

/-- Looking up signatures leaves the warnings that the look-ups before have left. -/
theorem respects_readable (workspace : Workspace) (warnings : List Warning) :
    workspace.Respects (fun first second => first = second ∧ first.signatures.warnings = warnings)
      fun _ => True where
  note text := by
    rintro first _ ⟨rfl, h⟩
    exact ⟨rfl, h⟩
  stepsOf className := by
    rintro first _ ⟨rfl, h⟩
    exact ⟨rfl, rfl, h⟩
  callable _ := by
    rintro first _ ⟨rfl, h⟩
    exact ⟨rfl, rfl, (Callable.complete_warnings _).trans h⟩

theorem signatures_warnings_buildPlugins (workspace : Workspace) (ordinal : Nat)
    (plugins : List Plugin) (progress : Progress) (found : List Registration) :
    (workspace.buildPlugins ordinal plugins progress found).2.signatures.warnings =
      progress.signatures.warnings := by
  have hr := workspace.respects_readable progress.signatures.warnings
  refine ((hr.buildPlugins (fun _ _ _ => trivial) ?_ ordinal plugins found) ⟨rfl, rfl⟩).2.2
  rintro added first _ ⟨rfl, h⟩
  exact ⟨rfl, h⟩

/-- What has been indexed decides nothing, nor does it show in what is reported. -/
theorem respects_alike (workspace : Workspace) :
    workspace.Respects (Progress.Alike workspace) fun _ => True where
  note text := by
    intro first second h
    exact h.note text
  stepsOf className := by
    intro first second h
    obtain ⟨hs, hr⟩ := StepList.search_congr className workspace.stepRoot first.reported h.faithful
      h.faithful'
    rw [h.reported] at hs hr
    unfold stepsOf
    dsimp only
    rw [h.reported, hs, hr]
    refine ⟨rfl, Progress.Alike.note (Progress.Alike.warn ?_ _) _⟩
    exact ⟨⟨h.signatures, StepList.search_faithful _ _ _ h.faithful,
      StepList.search_faithful _ _ _ h.faithful'⟩, rfl, h.warnings, h.notes⟩
  callable _ := by
    intro first second h
    obtain ⟨hc, ha⟩ := agrees_completeCallable h.toAgrees _
    exact ⟨hc, ha, h.reported, h.warnings, h.notes⟩

end Workspace

end ManifestScan
