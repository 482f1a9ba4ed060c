import ManifestScan.Proofs.Lookup.Faithful
import ManifestScan.Proofs.Outline.Decorators
import ManifestScan.Proofs.Text.Literal

namespace ManifestScan

theorem Extent.of_isInfix (range : Extent) (text : Bytes) : range.of text <:+: text :=
  (List.take_prefix _ _).isInfix.trans (List.drop_suffix _ _).isInfix

theorem mark_isPrefix_of_argumentsOf? {className decorator arguments : Bytes}
    (h : UpgradeStep.argumentsOf? className decorator = some arguments) :
    UpgradeStep.mark className <+: decorator := by
  unfold UpgradeStep.argumentsOf? at h
  split at h
  · cases h
  · rename_i rest hrest
    exact ⟨rest, (eq_append_of_afterWord? hrest).symm⟩

/-- The warnings about the files of an index, as against those about its root. -/
inductive Warning.OfFile : Warning → Prop
  | unreadable (file : FilePath) : OfFile (.unreadableFile file)
  | broken (module : Bytes) (fault : Fault) : OfFile (.brokenModule module fault)
  | priority (value step : Bytes) (used : Int) : OfFile (.invalidPriority value step used)

theorem Warning.OfFile.code_ne {warning : Warning} (h : warning.OfFile) :
    warning.code ≠ ascii "MEX-W2601" := by
  cases h with
  | unreadable => exact show ascii "MEX-W2602" ≠ ascii "MEX-W2601" by decide
  | broken => exact show ascii "MEX-W2603" ≠ ascii "MEX-W2601" by decide
  | priority => exact show ascii "MEX-W2604" ≠ ascii "MEX-W2601" by decide

namespace UpgradeStep.Draft

theorem add_warnings {draft : Draft} (h : ∀ warning ∈ draft.warnings, warning.OfFile)
    (argument : Bytes) : ∀ warning ∈ (draft.add argument).warnings, warning.OfFile := by
  unfold Draft.add
  split
  · exact h
  · simp only [Draft.set]
    repeat' split
    all_goals try exact h
    exact List.forall_mem_append.2 ⟨h, List.forall_mem_singleton.2 (.priority _ _ _)⟩

end UpgradeStep.Draft

namespace StepList

variable {tree : FileTree} {className : Bytes}

/-- A module in which the decorator's text does not stand has no steps. -/
theorem ofModule_steps {source : Bytes} (h : occursIn (UpgradeStep.mark className) source = false)
    (module : Bytes) : (ofModule source className module).steps = [] := by
  refine List.map_eq_nil_iff.2 (List.flatMap_eq_nil_iff.2 fun function hf => ?_)
  refine List.filterMap_eq_nil_iff.2 fun decorator hd => Option.map_eq_none_iff.2 ?_
  rw [Definition.decoratedIn_eq_filter] at hf
  have htext := (Outline.decorators_ofSource source).1 decorator
    (List.mem_flatMap.2 ⟨function, (List.mem_filter.1 hf).1, hd⟩)
  cases ha : UpgradeStep.argumentsOf? className decorator.text with
  | none => rfl
  | some arguments =>
    have hstarts := (mark_isPrefix_of_argumentsOf? ha).isInfix
    rw [htext] at hstarts
    rw [occursIn_of_isInfix (hstarts.trans (decorator.extent.of_isInfix source))] at h
    cases h

theorem ofModule_warnings (source className module : Bytes) :
    ∀ warning ∈ (ofModule source className module).warnings, warning.OfFile := by
  refine List.forall_mem_append.2 ⟨fun warning hw => ?_, fun warning hw => ?_⟩
  · obtain ⟨fault, -, rfl⟩ := Option.map_eq_some_iff.1 (Option.mem_toList.1 hw)
    exact .broken _ _
  · obtain ⟨draft, hd, hw⟩ := List.mem_flatMap.1 hw
    obtain ⟨function, -, hd⟩ := List.mem_flatMap.1 hd
    obtain ⟨decorator, -, hd⟩ := List.mem_filterMap.1 hd
    obtain ⟨arguments, -, rfl⟩ := Option.map_eq_some_iff.1 hd
    refine List.foldlRecOn (motive := fun draft : UpgradeStep.Draft =>
      ∀ warning ∈ draft.warnings, warning.OfFile) _ _ (List.forall_mem_nil _) ?_ warning hw
    intro draft h argument _
    exact UpgradeStep.Draft.add_warnings h argument

/-- Leaving out a file by its text leaves out no step. -/
theorem ofFile_steps (index : SourceIndex) (file : FilePath) :
    (ofFile tree index className file).steps = (tree.read? file).elim [] fun source =>
      (ofModule source className (index.modulePath file)).steps := by
  unfold ofFile
  cases tree.read? file with
  | none => rfl
  | some source =>
    dsimp only [Option.elim_some]
    split
    · rfl
    · rename_i h
      exact (ofModule_steps (Bool.not_eq_true _ ▸ h) _).symm

theorem ofFile_warnings (index : SourceIndex) (file : FilePath) :
    ∀ warning ∈ (ofFile tree index className file).warnings, warning.OfFile := by
  unfold ofFile
  split
  · exact List.forall_mem_singleton.2 (.unreadable _)
  · split
    · exact ofModule_warnings _ _ _
    · exact List.forall_mem_nil _

theorem foldl_append (lists : List StepList) (first : StepList) :
    lists.foldl append first =
      ⟨first.steps ++ lists.flatMap (·.steps), first.warnings ++ lists.flatMap (·.warnings)⟩ := by
  induction lists generalizing first with
  | nil => rw [List.foldl_nil, List.flatMap_nil, List.flatMap_nil, List.append_nil, List.append_nil]
  | cons list lists ih =>
    rw [List.foldl_cons, ih, List.flatMap_cons, List.flatMap_cons, append, List.append_assoc,
      List.append_assoc]

section

variable {indexes : IndexCache} {root : FilePath} {index : SourceIndex}

/-- A search gives the steps and warnings of the files one by one, and in front of these warnings
those about a root that has not been reported. -/
theorem search_fst (hi : (indexes.lookUp tree root).1 = index) (className : Bytes)
    (reported : List FilePath) :
    (search tree className root reported indexes).1 =
      ⟨index.files.flatMap fun file => (ofFile tree index className file).steps,
        (if index.root ∈ reported then [] else rootWarnings index) ++
          index.files.flatMap fun file => (ofFile tree index className file).warnings⟩ := by
  have hfound : (index.files.map (ofFile tree index className)).foldl append empty =
      ⟨index.files.flatMap fun file => (ofFile tree index className file).steps,
        index.files.flatMap fun file => (ofFile tree index className file).warnings⟩ := by
    rw [foldl_append, List.flatMap_map, List.flatMap_map]
    rfl
  unfold search
  dsimp only
  rw [hi]
  by_cases h : index.root ∈ reported
  · rw [if_pos (List.contains_iff_mem.2 h), if_pos h, List.nil_append]
    exact hfound
  · rw [if_neg (fun hc => h (List.contains_iff_mem.1 hc)), if_neg h]
    exact congrArg (append ⟨[], rootWarnings index⟩) hfound

theorem search_reported (hi : (indexes.lookUp tree root).1 = index) (className : Bytes)
    (reported : List FilePath) (other : FilePath) :
    other ∈ (search tree className root reported indexes).2.1 ↔
      other = index.root ∨ other ∈ reported := by
  unfold search
  dsimp only
  rw [hi]
  split
  · rename_i h
    exact ⟨.inr, (·.elim (fun he => he ▸ List.contains_iff_mem.1 h) id)⟩
  · exact List.mem_cons

end

end StepList

structure StepQuery where
  className : Bytes
  root : FilePath

structure StepStore where
  reported : List FilePath
  indexes : IndexCache

namespace StepQuery

def ask (tree : FileTree) (store : StepStore) (query : StepQuery) : StepList × StepStore :=
  let (answer, reported, indexes) :=
    StepList.search tree query.className query.root store.reported store.indexes
  (answer, ⟨reported, indexes⟩)

def askAll (tree : FileTree) (store : StepStore) : List StepQuery → List StepList
  | [] => []
  | query :: others =>
    let (answer, store) := query.ask tree store
    answer :: askAll tree store others

def index (tree : FileTree) (query : StepQuery) : SourceIndex :=
  .build tree (FilePath.normal query.root)

/-- The steps of every file that can be read, each read as a script. -/
def steps (tree : FileTree) (query : StepQuery) : List UpgradeStep :=
  (query.index tree).files.flatMap fun file => (tree.read? file).elim [] fun source =>
    (StepList.ofModule source query.className ((query.index tree).modulePath file)).steps

variable {tree : FileTree} {store : StepStore} {before : List StepQuery}

/-- The store after queries: the indexes are those of the tree, and the roots of the queries are the
ones that have been reported. -/
structure Reached (tree : FileTree) (store : StepStore) (before : List StepQuery) : Prop where
  faithful : store.indexes.Faithful tree
  mem_reported :
    ∀ root, root ∈ store.reported ↔ root ∈ before.map fun query => (query.index tree).root

theorem reached_empty : Reached tree ⟨[], .empty⟩ [] :=
  ⟨IndexCache.faithful_empty tree, fun _ => .rfl⟩

theorem Reached.index_eq (h : Reached tree store before) (query : StepQuery) :
    (store.indexes.lookUp tree query.root).1 = query.index tree :=
  h.faithful.lookUp_fst query.root

theorem Reached.ask (h : Reached tree store before) (query : StepQuery) :
    Reached tree (query.ask tree store).2 (before ++ [query]) := by
  refine ⟨StepList.search_faithful _ _ _ h.faithful, fun root => ?_⟩
  rw [List.map_append, List.mem_append, or_comm]
  refine (StepList.search_reported (h.index_eq query) query.className store.reported root).trans ?_
  exact or_congr List.mem_singleton.symm (h.mem_reported root)

theorem filter_rootWarnings (index : SourceIndex) :
    (StepList.rootWarnings index).filter (·.code = ascii "MEX-W2601") =
      StepList.rootWarnings index := by
  refine List.filter_eq_self.2 fun warning hw => ?_
  obtain ⟨issue, -, rfl⟩ := List.mem_map.1 hw
  rfl

theorem filter_fileWarnings (index : SourceIndex) (className : Bytes) :
    (index.files.flatMap fun file => (StepList.ofFile tree index className file).warnings).filter
      (·.code = ascii "MEX-W2601") = [] := by
  refine List.filter_eq_nil_iff.2 fun warning hw => ?_
  obtain ⟨file, -, hw⟩ := List.mem_flatMap.1 hw
  exact fun hc => (StepList.ofFile_warnings _ _ warning hw).code_ne (of_decide_eq_true hc)

/-- One answer: the steps of every file, and the warnings about the root when no query
before had it. -/
theorem Reached.answer (h : Reached tree store before) (query : StepQuery) :
    (query.ask tree store).1.steps = query.steps tree ∧
      (query.ask tree store).1.warnings.filter (·.code = ascii "MEX-W2601") =
        if (query.index tree).root ∈ before.map fun query => (query.index tree).root then []
        else StepList.rootWarnings (query.index tree) := by
  have hs : (query.ask tree store).1 = _ :=
    StepList.search_fst (h.index_eq query) query.className store.reported
  rw [hs]
  refine ⟨List.flatMap_congr fun file _ => StepList.ofFile_steps _ file, ?_⟩
  dsimp only
  rw [List.filter_append, filter_fileWarnings, List.append_nil]
  by_cases hr : (query.index tree).root ∈ store.reported
  · rw [if_pos hr, if_pos ((h.mem_reported _).1 hr), List.filter_nil]
  · rw [if_neg hr, if_neg fun hb => hr ((h.mem_reported _).2 hb), filter_rootWarnings]

end StepQuery

end ManifestScan
