import ManifestScan.Proofs.Extraction.Congruence
import ManifestScan.Proofs.Lookup.Steps

namespace ManifestScan

def Warning.ordinal? : Warning → Option Nat
  | .skippedRegistration ordinal _ _ | .duplicateName _ ordinal _ => some ordinal
  | _ => none

def Warning.AllUnnumbered (warnings : List Warning) : Prop :=
  ∀ warning ∈ warnings, warning.ordinal? = none

theorem Warning.AllUnnumbered.append {first second : List Warning} (h : AllUnnumbered first)
    (h' : AllUnnumbered second) : AllUnnumbered (first ++ second) := by
  intro warning hw
  exact (List.mem_append.1 hw).elim (h warning) (h' warning)

theorem Warning.allUnnumbered_nil : AllUnnumbered [] := by
  intro warning hw
  cases hw

open Warning (AllUnnumbered allUnnumbered_nil)

/-- Searching for steps judges no registration. -/
theorem StepList.allUnnumbered_search {tree : FileTree} {className : Bytes} (root : FilePath)
    (reported : List FilePath) (indexes : IndexCache) :
    AllUnnumbered (search tree className root reported indexes).1.warnings := by
  rw [search_fst rfl]
  refine AllUnnumbered.append ?_ fun warning hw => ?_
  · split
    · exact allUnnumbered_nil
    · intro warning hw
      obtain ⟨issue, -, rfl⟩ := List.mem_map.1 hw
      rfl
  · obtain ⟨file, -, hw⟩ := List.mem_flatMap.1 hw
    cases ofFile_warnings _ _ warning hw <;> rfl

namespace Progress

/-- What is known so far is what would be found now. -/
structure Faithful (workspace : Workspace) (progress : Progress) : Prop where
  indexes : progress.indexes.Faithful workspace.tree
  signatures : progress.signatures.Faithful workspace.tree workspace.roots

theorem faithful_start {workspace : Workspace} {indexes : IndexCache}
    (h : indexes.Faithful workspace.tree) (warnings : List Warning) (notes : List Bytes) :
    (start indexes warnings notes).Faithful workspace :=
  ⟨h, SignatureMemo.faithful_empty _ _⟩

/-- `next` comes from `progress` by work on one registration, which judges none. -/
structure Leads (workspace : Workspace) (progress next : Progress) : Prop where
  faithful : progress.Faithful workspace → next.Faithful workspace
  warnings : ∃ added, next.warnings = progress.warnings ++ added ∧
    AllUnnumbered added

variable {workspace : Workspace}

theorem Leads.refl (progress : Progress) : progress.Leads workspace progress :=
  ⟨id, [], by simp, allUnnumbered_nil⟩

theorem Leads.trans {first second third : Progress} (h : first.Leads workspace second)
    (h' : second.Leads workspace third) : first.Leads workspace third := by
  obtain ⟨added, ha, hn⟩ := h.warnings
  obtain ⟨more, hm, hn'⟩ := h'.warnings
  exact ⟨h'.faithful ∘ h.faithful, added ++ more, by rw [hm, ha, List.append_assoc], hn.append hn'⟩

theorem leads_note (progress : Progress) (text : Bytes) :
    progress.Leads workspace (progress.note text) :=
  ⟨fun h => ⟨h.indexes, h.signatures⟩, [], by simp [note], allUnnumbered_nil⟩

end Progress

namespace Workspace

variable {workspace : Workspace} {progress other : Progress}

theorem stepsOf_leads (className : Bytes) (progress : Progress) :
    progress.Leads workspace (workspace.stepsOf className progress).2 := by
  refine ⟨fun h => ⟨?_, h.signatures⟩, _, rfl, StepList.allUnnumbered_search _ _ _⟩
  exact StepList.search_faithful className workspace.stepRoot progress.reported h.indexes

theorem valueOf_leads (text : Bytes) (progress : Progress) :
    progress.Leads workspace (workspace.valueOf text progress).2 := by
  unfold valueOf
  split
  · exact .refl _
  · exact .refl _
  · exact stepsOf_leads _ _

theorem readArguments_leads (callee : Bytes) (draft : Draft) (seen : List Bytes)
    (progress : Progress) (arguments : List KeywordArgument) :
    progress.Leads workspace
      (workspace.readArguments callee draft seen progress arguments).2 := by
  induction arguments generalizing draft seen progress with
  | nil => exact .refl _
  | cons argument others ih =>
    unfold readArguments
    split
    · exact .refl _
    · split
      · exact (Progress.leads_note _ _).trans (ih _ _ _)
      · have hv := @valueOf_leads workspace argument.value progress
        split
        · rename_i he
          rwa [he] at hv
        · rename_i value next he
          rw [he] at hv
          split
          · exact hv
          · exact hv.trans (ih _ _ _)

theorem completeCallable_leads {callable : Callable} (hc : callable.FollowsName)
    (progress : Progress) :
    progress.Leads workspace (workspace.completeCallable callable progress).2 := by
  refine ⟨fun h => ⟨?_, ?_⟩, [], by simp [completeCallable], allUnnumbered_nil⟩
  · exact Callable.complete_indexes_faithful callable h.indexes
  · exact Callable.complete_memo_faithful hc h.signatures h.indexes

theorem completeValue_leads {value : Value} (hv : ∀ target ∈ value.target?, target.FollowsName)
    (progress : Progress) :
    progress.Leads workspace (workspace.completeValue value progress).2 := by
  unfold completeValue
  split
  · exact completeCallable_leads (hv _ rfl) progress
  · exact .refl _

section

variable {α : Type} {complete : α → Progress → α × Progress} {value : Option α}

theorem completeOption_leads
    (hl : ∀ a ∈ value, ∀ progress : Progress, progress.Leads workspace (complete a progress).2)
    (progress : Progress) :
    progress.Leads workspace (completeOption complete value progress).2 := by
  cases value with
  | none => exact .refl _
  | some a => exact hl a rfl progress

end

theorem completePlugin_leads {plugin : Plugin}
    (hp : ∀ target ∈ plugin.targets, target.FollowsName) (progress : Progress) :
    progress.Leads workspace (workspace.completePlugin plugin progress).2 := by
  obtain ⟨hc, hg, hs, hr⟩ := forall_targets hp
  refine (completeCallable_leads hc _).trans ?_
  refine (completeOption_leads (fun a ha => completeCallable_leads (hg a ha)) _).trans ?_
  refine (completeOption_leads (fun a ha => completeValue_leads (hs a ha)) _).trans ?_
  exact completeOption_leads (fun a ha => completeValue_leads (hr a ha)) _

/-- A name that an import binds tells the kind of what it refers to. -/
theorem followsName_reference (hn : workspace.imports.HasNames) (name : Bytes) (binding : Binding)
    (h : workspace.imports.find? name = some binding) :
    (Classification.reference binding).FollowsName :=
  ⟨rfl, notMem_of_isIdentifier (hn.of_find? h) rfl⟩

theorem followsName_targets (hn : workspace.imports.HasNames) {callee : Bytes}
    {arguments : List KeywordArgument} {draft : Draft} {kind : PluginKind} {plugin : Plugin}
    (hd : (workspace.readArguments callee .empty [] progress arguments).1 = .ok draft)
    (hf : draft.finish kind = .ok plugin) :
    ∀ target ∈ plugin.targets, target.FollowsName := by
  rw [Draft.targets_finish hf]
  exact readArguments_targets (followsName_reference hn) (by simp [Draft.targets, Draft.empty]) hd

theorem buildPlugin_leads (hn : workspace.imports.HasNames) (registration : Registration)
    (progress : Progress) :
    progress.Leads workspace (workspace.buildPlugin registration progress).2 := by
  unfold buildPlugin
  split
  · exact .refl _
  · dsimp only
    split
    · exact .refl _
    · have hr := @readArguments_leads workspace registration.callee .empty [] progress
        (ArgumentList.ofCall registration.text).arguments
      split
      · rename_i he
        rwa [he] at hr
      · rename_i draft next he
        rw [he] at hr
        split
        · exact hr
        · rename_i plugin hf
          exact hr.trans (completePlugin_leads (followsName_targets hn (by rw [he]) hf) _)

/-- Work does the same on any progress in which what is known so far is what would be found now. -/
theorem respects_faithful :
    workspace.Respects (fun first second => first.Faithful workspace ∧ second.Faithful workspace)
      Callable.FollowsName where
  note text := by
    intro first second h
    exact ⟨(Progress.leads_note _ text).faithful h.1, (Progress.leads_note _ text).faithful h.2⟩
  stepsOf className := by
    intro first second h
    refine ⟨?_, (stepsOf_leads className first).faithful h.1,
      (stepsOf_leads className second).faithful h.2⟩
    unfold stepsOf
    dsimp only
    rw [StepList.search_steps _ _ _ h.1.indexes, StepList.search_steps _ _ _ h.2.indexes]
  callable hc := by
    intro first second h
    refine ⟨?_, (completeCallable_leads hc first).faithful h.1,
      (completeCallable_leads hc second).faithful h.2⟩
    exact (Callable.complete_eq_afresh hc h.1.signatures h.1.indexes).trans
      (Callable.complete_eq_afresh hc h.2.signatures h.2.indexes).symm

/-- What a registration gives does not hang on the registrations before it. -/
theorem buildPlugin_eq (hn : workspace.imports.HasNames) (registration : Registration)
    (h : progress.Faithful workspace) (h' : other.Faithful workspace) :
    (workspace.buildPlugin registration progress).1 =
      (workspace.buildPlugin registration other).1 :=
  (respects_faithful.buildPlugin (followsName_reference hn) registration ⟨h, h'⟩).1

end Workspace

end ManifestScan
