import ManifestScan.Proofs.Text.Split
import ManifestScan.SignatureSearch
import ManifestScan.StepSearch

namespace ManifestScan

/-- Every index of the cache is the one that would be built now. -/
def IndexCache.Faithful (tree : FileTree) (cache : IndexCache) : Prop :=
  ∀ entry ∈ cache.entries, entry.2 = SourceIndex.build tree entry.1

theorem IndexCache.faithful_empty (tree : FileTree) : IndexCache.empty.Faithful tree := by
  intro entry he
  cases he

theorem IndexCache.Faithful.lookUp_fst {tree : FileTree} {cache : IndexCache}
    (h : cache.Faithful tree) (path : FilePath) :
    (cache.lookUp tree path).1 = SourceIndex.build tree (FilePath.normal path) := by
  dsimp only [IndexCache.lookUp]
  split
  · rename_i index hi
    exact h _ (mem_of_lookup hi)
  · rfl

theorem IndexCache.Faithful.lookUp_snd {tree : FileTree} {cache : IndexCache}
    (h : cache.Faithful tree) (path : FilePath) : (cache.lookUp tree path).2.Faithful tree := by
  dsimp only [IndexCache.lookUp]
  split
  · exact h
  · intro entry he
    rcases List.mem_cons.1 he with rfl | he
    · rfl
    · exact h entry he

namespace Signature

variable {tree : FileTree} {parts : List Bytes} {name : Bytes} {kind : CallableKind}
  {index : SourceIndex} {root path : FilePath}

theorem mem_collect (paths found : List FilePath) :
    path ∈ paths.foldl (fun found path =>
      if tree.isFile path ∧ !found.contains path then found ++ [path] else found) found ↔
      path ∈ found ∨ path ∈ paths ∧ tree.isFile path := by
  induction paths generalizing found with
  | nil => simp
  | cons first paths ih =>
    rw [List.foldl_cons, ih]
    split
    · rename_i h
      rw [List.mem_append, List.mem_singleton, List.mem_cons]
      constructor
      · rintro ((hm | rfl) | hm)
        · exact .inl hm
        · exact .inr ⟨.inl rfl, h.1⟩
        · exact .inr ⟨.inr hm.1, hm.2⟩
      · rintro (hm | ⟨rfl | hm, hf⟩)
        · exact .inl (.inl hm)
        · exact .inl (.inr rfl)
        · exact .inr ⟨hm, hf⟩
    · rename_i h
      rw [List.mem_cons]
      constructor
      · exact Or.imp_right fun hm => ⟨.inr hm.1, hm.2⟩
      · rintro (hm | ⟨rfl | hm, hf⟩)
        · exact .inl hm
        · exact .inl (by simpa [hf] using h)
        · exact .inr ⟨hm, hf⟩

/-- The three places where a module is looked for. -/
theorem mem_candidates : path ∈ candidates tree index root parts ↔ tree.isFile path ∧
    ∃ file, FilePath.normal file = path ∧ (file ∈ direct root parts ∨
      (some (ownName root) = parts.head? ∧ file ∈ direct root (parts.drop 1)) ∨
      ∃ last, parts.getLast? = some last ∧
        file ∈ index.filesNamed (last ++ SourceIndex.scriptExtension)) := by
  have hinside (file : FilePath) :
      (file ∈ if some (ownName root) = parts.head? then direct root (parts.drop 1) else []) ↔
        some (ownName root) = parts.head? ∧ file ∈ direct root (parts.drop 1) := by
    split <;> simp [*]
  unfold candidates
  dsimp only
  simp only [mem_collect, List.mem_map, List.mem_append, hinside, List.not_mem_nil, false_or,
    or_assoc]
  cases parts.getLast? with
  | none => simp [and_comm]
  | some last => simp [and_comm]

theorem exists_read?_of_isFile (h : tree.isFile path = true) :
    ∃ source, tree.read? path = some source := by
  unfold FileTree.isFile at h
  split at h
  · rename_i content hn
    exact ⟨content, by rw [FileTree.read?, hn]⟩
  · cases h

/-- What is a file can be read. -/
theorem inFiles_warnings {files : List FilePath} (h : ∀ file ∈ files, tree.isFile file = true) :
    (inFiles tree name kind files).warnings = [] := by
  induction files with
  | nil => rfl
  | cons file others ih =>
    obtain ⟨hf, hothers⟩ := List.forall_mem_cons.1 h
    obtain ⟨source, hr⟩ := exists_read?_of_isFile hf
    rw [inFiles, hr]
    dsimp only
    split
    · rfl
    · exact ih hothers

theorem search_faithful {cache : IndexCache} (h : cache.Faithful tree) (roots : List FilePath) :
    (search tree parts name kind cache roots).2.Faithful tree := by
  induction roots generalizing cache with
  | nil => exact h
  | cons root others ih =>
    unfold search
    split
    · exact ih h
    · dsimp only
      split
      · exact h.lookUp_snd root
      · exact ih (h.lookUp_snd root)

/-- A search finds the same whatever has been indexed before. -/
theorem search_fst_eq {cache other : IndexCache} (h : cache.Faithful tree)
    (h' : other.Faithful tree) (roots : List FilePath) :
    (search tree parts name kind cache roots).1 = (search tree parts name kind other roots).1 := by
  induction roots generalizing cache other with
  | nil => rfl
  | cons root others ih =>
    unfold search
    split
    · exact ih h h'
    · dsimp only
      rw [h.lookUp_fst, h'.lookUp_fst]
      -- Both caches give the index that is built now, and both stay faithful for the next root.
      split
      · rfl
      · rw [ih (h.lookUp_snd root) (h'.lookUp_snd root)]

/-- What a search without anything indexed before finds. -/
def afresh (tree : FileTree) (roots : List FilePath) (module name : Bytes) (kind : CallableKind) :
    Option Signature :=
  (search tree (moduleParts module) name kind .empty roots).1.found

/-- A search below roots whose scripts can all be read leaves no warnings. -/
theorem search_warnings (cache : IndexCache) (roots : List FilePath) :
    (search tree parts name kind cache roots).1.warnings = [] := by
  induction roots generalizing cache with
  | nil => rfl
  | cons root others ih =>
    unfold search
    split
    · exact ih cache
    · dsimp only
      have hread : ∀ file ∈ candidates tree (cache.lookUp tree root).1 root parts,
          tree.isFile file = true := fun file hf => (mem_candidates.1 hf).1
      split
      · exact inFiles_warnings hread
      · rw [SignatureSearch.behind, inFiles_warnings hread, ih]
        rfl

end Signature

/-- The kind is the one that the name tells, and the name is no part of a longer key. -/
structure Callable.FollowsName (callable : Callable) : Prop where
  kind_eq : callable.kind = .ofName callable.name
  colon_notMem : colon ∉ callable.name

namespace SignatureMemo

/-- A key tells module and name apart by its last colon. -/
theorem key_inj {module module' name name' : Bytes} (hn : colon ∉ name) (hn' : colon ∉ name')
    (h : key module name = key module' name') : module = module' ∧ name = name' := by
  rcases List.append_eq_append_iff.1 h with ⟨gap, hm, hg⟩ | ⟨gap, hm, hg⟩
  · cases gap with
    | nil => exact ⟨by simpa using hm.symm, (List.cons.inj hg).2⟩
    | cons b gap => exact absurd (by rw [(List.cons.inj hg).2]; simp) hn
  · cases gap with
    | nil => exact ⟨by simpa using hm, (List.cons.inj hg).2.symm⟩
    | cons b gap => exact absurd (by rw [(List.cons.inj hg).2]; simp) hn'

/-- Every signature kept for the name of a callable is the one that would be found now. -/
def Faithful (tree : FileTree) (roots : List FilePath) (memo : SignatureMemo) : Prop :=
  ∀ entry ∈ memo.entries, ∀ module name, entry.1 = key module name → colon ∉ name →
    entry.2 = Signature.afresh tree roots module name (.ofName name)

theorem faithful_empty (tree : FileTree) (roots : List FilePath) :
    SignatureMemo.empty.Faithful tree roots := by
  intro entry he
  cases he

end SignatureMemo

namespace Callable

variable {tree : FileTree} {roots : List FilePath} {memo : SignatureMemo} {indexes : IndexCache}

def completeAfresh (tree : FileTree) (roots : List FilePath) (callable : Callable) : Callable :=
  (callable.complete tree roots .empty .empty).1

theorem completeAfresh_eq (tree : FileTree) (roots : List FilePath) (callable : Callable) :
    callable.completeAfresh tree roots =
      if callable.module.isEmpty ∨ callable.name.isEmpty then callable
      else (Signature.afresh tree roots callable.module callable.name callable.kind).elim callable
        callable.withSignature := by
  unfold completeAfresh complete
  split <;> rfl

/-- The memo and the indexes save work and decide nothing. -/
theorem complete_eq_afresh {callable : Callable} (hc : callable.FollowsName)
    (hm : memo.Faithful tree roots) (hi : indexes.Faithful tree) :
    (callable.complete tree roots memo indexes).1 = callable.completeAfresh tree roots := by
  rw [completeAfresh_eq]
  unfold complete
  split
  · rfl
  · dsimp only [Signature.lookUp]
    split
    · rename_i known hk
      -- What the memo knows was found for this module and name, and so for this kind.
      have := hm _ (mem_of_lookup hk) callable.module callable.name rfl hc.colon_notMem
      dsimp only at this
      rw [this, hc.kind_eq]
    · dsimp only
      rw [Signature.search_fst_eq hi (IndexCache.faithful_empty tree)]
      rfl

theorem complete_memo_faithful {callable : Callable} (hc : callable.FollowsName)
    (hm : memo.Faithful tree roots) (hi : indexes.Faithful tree) :
    (callable.complete tree roots memo indexes).2.1.Faithful tree roots := by
  unfold complete
  split
  · exact hm
  · dsimp only [Signature.lookUp]
    split
    · exact hm
    · intro entry he module name hk hn
      rcases List.mem_cons.1 he with rfl | he
      · obtain ⟨rfl, rfl⟩ := SignatureMemo.key_inj hc.colon_notMem hn hk
        dsimp only
        rw [hc.kind_eq]
        exact congrArg SignatureSearch.found
          (Signature.search_fst_eq hi (IndexCache.faithful_empty tree) roots)
      · exact hm entry he module name hk hn

/-- What one memo makes of a callable does not hang on the indexes. -/
theorem complete_congr (callable : Callable) {other : IndexCache} (h : indexes.Faithful tree)
    (h' : other.Faithful tree) :
    (callable.complete tree roots memo indexes).1 = (callable.complete tree roots memo other).1 ∧
      (callable.complete tree roots memo indexes).2.1 =
        (callable.complete tree roots memo other).2.1 := by
  unfold complete
  split
  · exact ⟨rfl, rfl⟩
  · dsimp only [Signature.lookUp]
    split
    · exact ⟨rfl, rfl⟩
    · dsimp only
      rw [Signature.search_fst_eq h h']
      exact ⟨rfl, rfl⟩

/-- Completing a callable leaves no warnings, for every candidate is a file. -/
theorem complete_warnings (callable : Callable) :
    (callable.complete tree roots memo indexes).2.1.warnings = memo.warnings := by
  unfold complete
  split
  · rfl
  · dsimp only [Signature.lookUp]
    split
    · rfl
    · dsimp only
      rw [Signature.search_warnings, List.append_nil]

theorem complete_indexes_faithful (callable : Callable) (hi : indexes.Faithful tree) :
    (callable.complete tree roots memo indexes).2.2.Faithful tree := by
  unfold complete
  split
  · exact hi
  · dsimp only [Signature.lookUp]
    split
    · exact hi
    · exact Signature.search_faithful hi roots

end Callable

namespace StepList

variable {tree : FileTree} {indexes : IndexCache}

def afresh (tree : FileTree) (className : Bytes) (root : FilePath) : List UpgradeStep :=
  (search tree className root [] .empty).1.steps

theorem search_steps (className : Bytes) (root : FilePath) (reported : List FilePath)
    (hi : indexes.Faithful tree) :
    (search tree className root reported indexes).1.steps = afresh tree className root := by
  have hs : ∀ first second : StepList, first.steps = [] → (append first second).steps =
      second.steps := by
    intro first second h
    simp [append, h]
  unfold afresh search
  simp only [hi.lookUp_fst, (IndexCache.faithful_empty tree).lookUp_fst]
  split <;> simp [hs]

/-- What is found and what is reported does not hang on the indexes. -/
theorem search_congr (className : Bytes) (root : FilePath) (reported : List FilePath)
    {other : IndexCache} (h : indexes.Faithful tree) (h' : other.Faithful tree) :
    (search tree className root reported indexes).1 =
        (search tree className root reported other).1 ∧
      (search tree className root reported indexes).2.1 =
        (search tree className root reported other).2.1 := by
  unfold search
  dsimp only
  rw [h.lookUp_fst, h'.lookUp_fst]
  split <;> exact ⟨rfl, rfl⟩

theorem search_faithful (className : Bytes) (root : FilePath) (reported : List FilePath)
    (hi : indexes.Faithful tree) :
    (search tree className root reported indexes).2.2.Faithful tree := by
  unfold search
  dsimp only
  split <;> exact hi.lookUp_snd root

end StepList

end ManifestScan
