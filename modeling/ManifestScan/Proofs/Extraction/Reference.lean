import ManifestScan.Extraction.Workspace
import ManifestScan.Proofs.Extraction.Draft
import ManifestScan.Proofs.Text.Split
import ManifestScan.Proofs.Text.Name

namespace ManifestScan

namespace Import

theorem nameOf?_isIdentifier {entry localName name : Bytes}
    (h : nameOf? entry = some (localName, name)) : isIdentifier localName ∧ isIdentifier name := by
  simp only [nameOf?, Option.ite_none_right_eq_some, Option.some.injEq, Prod.mk.injEq] at h
  obtain ⟨⟨hn, hl⟩, rfl, rfl⟩ := h
  exact ⟨hl, hn⟩

theorem names_isIdentifier {line : Nat} {statement : Statement} {found : List (Bytes × Bytes)}
    (h : names line statement = .ok found) :
    ∀ entry ∈ found, isIdentifier entry.1 ∧ isIdentifier entry.2 := by
  unfold names at h
  split at h
  · cases h
  · split at h
    · cases h
    · cases h
      intro entry he
      obtain ⟨field, -, hf⟩ := List.mem_filterMap.1 he
      exact nameOf?_isIdentifier hf

end Import

/-- A table as imports leave it: names on both sides of every binding. -/
def ImportTable.HasNames (table : ImportTable) : Prop :=
  ∀ entry ∈ table.entries, isIdentifier entry.1 ∧ isIdentifier entry.2.name

namespace ImportTable

theorem mem_of_find? {table : ImportTable} {name : Bytes} {binding : Binding}
    (h : table.find? name = some binding) : (name, binding) ∈ table.entries :=
  mem_of_lookup h

theorem HasNames.of_find? {table : ImportTable} {name : Bytes} {binding : Binding}
    (h : table.HasNames) (hf : table.find? name = some binding) : isIdentifier binding.name :=
  (h _ (mem_of_find? hf)).2

theorem forall_foldl {P : Bytes × Binding → Prop} (module : Bytes) (names : List (Bytes × Bytes))
    {table : ImportTable} (h : ∀ entry ∈ table.entries, P entry)
    (hn : ∀ entry ∈ names, P (entry.1, ⟨module, entry.2⟩)) :
    ∀ entry ∈ (names.foldl (fun table (localName, name) =>
      table.insert localName ⟨module, name⟩) table).entries, P entry := by
  induction names generalizing table with
  | nil => exact h
  | cons entry others ih =>
    refine ih (List.forall_mem_cons.2 ⟨hn entry List.mem_cons_self, fun other ho => ?_⟩)
      fun e he => hn e (List.mem_cons_of_mem _ he)
    exact h other (List.mem_filter.1 ho).1

end ImportTable

namespace Imports

/-- What holds of every name in the import lists of a source holds of every binding. -/
theorem forall_ofSource {P : Bytes × Binding → Prop} {package source : Bytes}
    (h : ∀ text ∈ lines source, ∀ statement, Import.statement? text = some statement →
      ∀ line names, Import.names line statement = .ok names →
        ∀ entry ∈ names, P (entry.1, ⟨Import.moduleOf package statement.module, entry.2⟩)) :
    ∀ entry ∈ (ofSource package source).table.entries, P entry := by
  have hl : ∀ (texts : List Bytes) (imports : Imports) (line : Nat), texts ⊆ lines source →
      (∀ entry ∈ imports.table.entries, P entry) →
        ∀ entry ∈ (addLines package imports line texts).table.entries, P entry := by
    intro texts
    induction texts with
    | nil => exact fun _ _ _ hi => hi
    | cons text rest ih =>
      intro imports line hs hi
      obtain ⟨ht, hs⟩ := List.cons_subset.1 hs
      refine ih _ _ hs ?_
      unfold addLine
      split
      · exact hi
      · rename_i statement hstatement
        split
        · exact hi
        · rename_i names hnames
          exact ImportTable.forall_foldl _ names hi
            (h text ht statement hstatement line names hnames)
  exact hl _ _ _ (List.Subset.refl _) nofun

theorem hasNames_ofSource (package source : Bytes) : (ofSource package source).table.HasNames :=
  forall_ofSource fun _ _ _ _ _ _ hn entry he => Import.names_isIdentifier hn entry he

/-- The warnings of imports are about imports. -/
theorem mem_warnings_ofSource {package source : Bytes} {warning : Warning}
    (h : warning ∈ (ofSource package source).warnings) :
    ∃ line, warning = .continuedImport line ∨ warning = .openImportList line := by
  have hl : ∀ (texts : List Bytes) (imports : Imports) (line : Nat),
      warning ∈ (addLines package imports line texts).warnings → warning ∈ imports.warnings ∨
        ∃ line, warning = .continuedImport line ∨ warning = .openImportList line := by
    intro texts
    induction texts with
    | nil => exact fun _ _ h => .inl h
    | cons text rest ih =>
      intro imports line h
      rcases ih _ _ h with h | h
      · unfold addLine at h
        split at h
        · exact .inl h
        · split at h
          · rename_i reason hr
            rcases List.mem_append.1 h with h | h
            · exact .inl h
            · obtain rfl := List.mem_singleton.1 h
              unfold Import.names at hr
              split at hr
              · cases hr; exact .inr ⟨line, .inl rfl⟩
              · split at hr
                · cases hr; exact .inr ⟨line, .inr rfl⟩
                · cases hr
          · exact .inl h
      · exact .inr h
  rcases hl _ _ _ h with h | h
  · cases h
  · exact h

end Imports

namespace Classification

/-- A callable is there only for a name that the imports bind. -/
theorem ofText_callable {table : ImportTable} {text : Bytes} {target : Callable}
    (h : ofText table text = .classified (.callable target)) :
    ∃ name binding, table.find? name = some binding ∧ target = reference binding := by
  have ha : ∀ name value : Bytes, ofAttribute name value ≠ .classified (.callable target) := by
    intro name value
    unfold ofAttribute
    repeat' split
    all_goals nofun
  simp only [ofText, ofExpression] at h
  -- Of all branches only that of a bound name classifies as a callable.
  repeat' split at h
  all_goals first
    | exact absurd h (ha _ _)
    | cases h
  rename_i binding hb _
  exact ⟨_, binding, hb, rfl⟩

end Classification

/-- The callables that a draft refers to; those in its steps are found elsewhere. -/
def Draft.targets (draft : Draft) : List Callable :=
  draft.callable.toList ++ draft.config.toList ++
    (draft.versionStrategy.bind Value.target?).toList ++
    (draft.versionReader.bind Value.target?).toList

def Plugin.targets (plugin : Plugin) : List Callable :=
  plugin.callable :: plugin.config.toList ++
    (plugin.versionStrategy.bind Value.target?).toList ++
      (plugin.versionReader.bind Value.target?).toList

namespace Draft

/-- A field takes no callable but the one of its value. -/
theorem mem_targets_set {draft next : Draft} {argument : KeywordArgument} {value : Value}
    {field : Field} (h : draft.set argument value field = .ok next) {target : Callable}
    (ht : target ∈ next.targets) : target ∈ draft.targets ∨ value.target? = some target := by
  rw [eq_update_of_set h] at ht
  cases field with
  | callable | config | versionStrategy | versionReader =>
    simp only [update, targets, List.mem_append, Option.mem_toList, Option.or_eq_some_iff,
      Option.bind_some] at ht ⊢
    grind
  | _ => exact .inl ht

theorem targets_finish {draft : Draft} {kind : PluginKind} {plugin : Plugin}
    (h : draft.finish kind = .ok plugin) : plugin.targets = draft.targets := by
  unfold finish at h
  split at h
  · cases h
  · cases h
  · rename_i name callable hn hc
    cases h
    simp [Plugin.targets, targets, hc]

end Draft

namespace Workspace

variable {workspace : Workspace} {progress : Progress}

/-- A value refers to an imported name or to nothing. -/
theorem valueOf_target? {text : Bytes} {value : Value} {target : Callable}
    (h : (workspace.valueOf text progress).1 = .ok value) (ht : value.target? = some target) :
    ∃ name binding, workspace.imports.find? name = some binding ∧
      target = Classification.reference binding := by
  unfold valueOf at h
  split at h
  · rename_i found hc
    cases h
    unfold Value.target? at ht
    split at ht
    · cases ht
      exact Classification.ofText_callable hc
    · cases ht
  · cases h
  · cases h
    cases ht

/-- Every callable of a draft refers to an imported name. -/
theorem readArguments_targets {P : Callable → Prop}
    (hP : ∀ name binding, workspace.imports.find? name = some binding →
      P (Classification.reference binding))
    {callee : Bytes} {draft next : Draft} {seen : List Bytes} {progress : Progress}
    {arguments : List KeywordArgument} (hd : ∀ target ∈ draft.targets, P target)
    (h : (workspace.readArguments callee draft seen progress arguments).1 = .ok next) :
    ∀ target ∈ next.targets, P target := by
  induction arguments generalizing draft seen progress with
  | nil => cases h; exact hd
  | cons argument others ih =>
    unfold readArguments at h
    split at h
    · cases h
    · split at h
      · exact ih hd h
      · split at h
        · cases h
        · rename_i value progress' hv
          split at h
          · cases h
          · rename_i draft' hs
            refine ih ?_ h
            intro target ht
            rcases Draft.mem_targets_set hs ht with ht | ht
            · exact hd target ht
            · obtain ⟨name, binding, hf, rfl⟩ := valueOf_target? (by rw [hv]) ht
              exact hP name binding hf

/-- The callables of a plugin one by one. -/
theorem forall_targets {P : Callable → Prop} {plugin : Plugin}
    (h : ∀ target ∈ plugin.targets, P target) :
    P plugin.callable ∧ (∀ target ∈ plugin.config, P target) ∧
      (∀ value ∈ plugin.versionStrategy, ∀ target ∈ value.target?, P target) ∧
      ∀ value ∈ plugin.versionReader, ∀ target ∈ value.target?, P target := by
  refine ⟨h _ (by simp [Plugin.targets]), fun target ht => h _ ?_, fun value hv target ht => h _ ?_,
    fun value hv target ht => h _ ?_⟩
  · simp [Plugin.targets, Option.mem_def.1 ht]
  · simp [Plugin.targets, Option.mem_def.1 hv, Option.mem_def.1 ht]
  · simp [Plugin.targets, Option.mem_def.1 hv, Option.mem_def.1 ht]

end Workspace

end ManifestScan
