import ManifestScan.Proofs.Extraction.Independence

namespace ManifestScan

namespace Extractor

variable {tree : FileTree} {request : ExtractionRequest} {first second extractor : Extractor}

/-- Extractors that differ in their indexes at most, which are those of the tree. -/
structure Alike (tree : FileTree) (first second : Extractor) : Prop where
  request : first.request = second.request
  convention : first.convention = second.convention
  faithful : first.indexes.Faithful tree
  faithful' : second.indexes.Faithful tree

theorem Alike.trans {third : Extractor} (h : first.Alike tree second)
    (h' : second.Alike tree third) :
    first.Alike tree third :=
  ⟨h.request.trans h'.request, h.convention.trans h'.convention, h.faithful, h'.faithful'⟩

theorem Alike.eq_with (h : first.Alike tree second) :
    first = { second with indexes := first.indexes } := by
  rw [← h.request, ← h.convention]

theorem alike_extractSource (h : extractor.indexes.Faithful tree) (source package : Bytes) :
    (extractor.extractSource tree source package).2.Alike tree extractor := by
  refine ⟨?_, ?_, faithful_extractSource h source package, h⟩
  · unfold extractSource
    dsimp only
    split <;> rfl
  · unfold extractSource
    dsimp only
    split <;> rfl

/-- What is made of a source does not hang on what has been indexed. -/
theorem Alike.extractSource_eq (h : first.Alike tree second) (source package : Bytes) :
    (first.extractSource tree source package).1 = (second.extractSource tree source package).1 := by
  rw [h.eq_with]
  unfold extractSource
  dsimp only
  split
  · rfl
  · rename_i found notes _
    have hstart : ∀ warnings remarks, (Progress.start first.indexes warnings remarks).Alike
        (second.workspaceOf tree source package)
        (Progress.start second.indexes warnings remarks) := by
      intro warnings remarks
      exact ⟨⟨rfl, h.faithful, h.faithful'⟩, rfl, rfl, rfl⟩
    obtain ⟨hp, hn⟩ := (Workspace.respects_alike _).buildPlugins (fun _ _ _ => trivial)
      (fun warnings _ _ ha => ha.warn warnings) 1 [] found (hstart _ _)
    rw [Extraction.mk.injEq]
    have hunread := congrArg SignatureMemo.warnings hn.signatures
    refine ⟨?_, congrArg₂ (· ++ ·) hn.warnings hunread, hn.notes⟩
    exact congrArg (fun plugins => Except.ok (Manifest.mk second.request.packageName plugins)) hp

section

variable (extractor : Extractor)

/-- The function of an entry point counts where none was asked for. -/
theorem withFunction_eq (function : Option Bytes) :
    extractor.withFunction function =
      { extractor with convention := { extractor.convention with
          function := (if extractor.request.function.isSome then none else function).getD
            extractor.convention.function } } := by
  unfold withFunction
  cases extractor.request.function with
  | some asked => rfl
  | none => cases function <;> rfl

theorem withFunction_withFunction (function : Option Bytes) :
    (extractor.withFunction function).withFunction function = extractor.withFunction function := by
  simp only [withFunction_eq]
  cases extractor.request.function with
  | some asked => rfl
  | none => cases function <;> rfl

theorem withFunction_settleRoot (file : FilePath) (function : Option Bytes) :
    (extractor.settleRoot file).withFunction function =
      (extractor.withFunction function).settleRoot file := by
  rw [withFunction_eq, withFunction_eq]
  rfl

/-- A search root that is settled stays. -/
theorem settleRoot_settleRoot (file : FilePath) :
    (extractor.settleRoot file).settleRoot file = extractor.settleRoot file := by
  have hr : ∀ root other : FilePath, (if !(if !root.isEmpty then root else other).isEmpty then
      if !root.isEmpty then root else other else other) =
        if !root.isEmpty then root else other := by
    intro root other
    split
    · rfl
    · exact ite_self other
  unfold settleRoot
  dsimp only
  rw [hr]

def entryFunction? (tree : FileTree) : Option Bytes :=
  let request := extractor.request
  if request.entryFile.isEmpty then
    match (EntryFile.find tree ⟨request.packageDirectory, request.packageName, request.version,
      request.environment, request.group⟩).1 with
    | .error _ => none
    | .ok file => file.function
  else none

end

/-- Where the registration file lies hangs on the request, but not on its search root. -/
theorem locate_congr {root : FilePath}
    (h : first.request = { second.request with searchRoot := root }) :
    first.locate tree = { second.locate tree with
      extractor := first.withFunction (second.entryFunction? tree) } := by
  have hn : first.withFunction none = first := by
    rw [withFunction_eq]
    split <;> rfl
  unfold locate entryFunction?
  rw [h]
  dsimp only
  split
  · generalize EntryFile.find tree _ = found
    obtain ⟨outcome, warnings⟩ := found
    cases outcome with
    | error failure =>
      dsimp only
      rw [hn]
    | ok file => rfl
  · rw [hn]

/-- The extractor that an extraction leaves, but for its indexes. -/
def settled (extractor : Extractor) (tree : FileTree) : Extractor :=
  match (extractor.locate tree).file with
  | .error _ => (extractor.locate tree).extractor
  | .ok (path, _) => (extractor.locate tree).extractor.settleRoot path

theorem indexes_settled (extractor : Extractor) (tree : FileTree) :
    (extractor.settled tree).indexes = extractor.indexes := by
  rw [← indexes_locate extractor tree]
  unfold settled
  split <;> rfl

/-- What the extractor settles before it reads the source stays, and so does what it reads later. -/
theorem alike_extract (h : extractor.indexes.Faithful tree) :
    (extractor.extract tree).2.Alike tree (extractor.settled tree) := by
  have hs : (extractor.settled tree).indexes.Faithful tree := by
    rw [indexes_settled]
    exact h
  unfold extract
  dsimp only
  unfold settled at hs ⊢
  cases hl : (extractor.locate tree).file with
  | error failure =>
    rw [hl] at hs
    exact ⟨rfl, rfl, hs, hs⟩
  | ok file =>
    rw [hl] at hs
    dsimp only at hs ⊢
    split
    · exact ⟨rfl, rfl, hs, hs⟩
    · exact alike_extractSource hs _ _

/-- Extractors that find the same file, and from there on differ in their indexes at most. -/
structure Agrees (tree : FileTree) (first second : Extractor) : Prop where
  file : (first.locate tree).file = (second.locate tree).file
  warnings : (first.locate tree).warnings = (second.locate tree).warnings
  notes : (first.locate tree).notes = (second.locate tree).notes
  alike : (first.settled tree).Alike tree (second.settled tree)

theorem Agrees.trans {third : Extractor} (h : first.Agrees tree second)
    (h' : second.Agrees tree third) : first.Agrees tree third :=
  ⟨h.file.trans h'.file, h.warnings.trans h'.warnings, h.notes.trans h'.notes,
    h.alike.trans h'.alike⟩

/-- Extractors that agree extract the same. -/
theorem Agrees.extract_eq (h : first.Agrees tree second) :
    (first.extract tree).1 = (second.extract tree).1 := by
  have hs := h.alike
  unfold settled at hs
  unfold extract
  dsimp only
  rw [h.file] at hs
  rw [h.file, h.warnings, h.notes]
  cases hl : (second.locate tree).file with
  | error failure => rfl
  | ok file =>
    rw [hl] at hs
    dsimp only at hs ⊢
    split
    · rfl
    · rw [hs.extractSource_eq]

/-- What is settled hangs on the search root of the extractor itself. -/
theorem settled_congr {root : FilePath}
    (h : first.request = { second.request with searchRoot := root }) :
    first.settled tree =
      match (second.locate tree).file with
      | .error _ => first.withFunction (second.entryFunction? tree)
      | .ok (path, _) => (first.withFunction (second.entryFunction? tree)).settleRoot path := by
  unfold settled
  rw [locate_congr h]

theorem Alike.agrees (h : first.Alike tree second) : first.Agrees tree second := by
  have hf : first.request = { second.request with searchRoot := second.request.searchRoot } :=
    h.request
  have hs : second.request = { second.request with searchRoot := second.request.searchRoot } := rfl
  refine ⟨by rw [locate_congr hf], by rw [locate_congr hf], by rw [locate_congr hf], ?_, ?_, ?_, ?_⟩
  · rw [settled_congr hf, settled_congr hs, withFunction_eq, withFunction_eq, h.request,
      h.convention]
    split <;> rfl
  · rw [settled_congr hf, settled_congr hs, withFunction_eq, withFunction_eq, h.request,
      h.convention]
    split <;> rfl
  · rw [indexes_settled]
    exact h.faithful
  · rw [indexes_settled]
    exact h.faithful'

/-- Settling twice is settling once. -/
theorem agrees_settled (h : extractor.indexes.Faithful tree) :
    (extractor.settled tree).Agrees tree extractor := by
  have he : extractor.request =
      { extractor.request with searchRoot := extractor.request.searchRoot } := rfl
  have hr : (extractor.settled tree).request =
      { extractor.request with searchRoot := (extractor.settled tree).request.searchRoot } := by
    rw [settled_congr he, withFunction_eq]
    split <;> rfl
  have hs : (extractor.settled tree).settled tree = extractor.settled tree := by
    rw [settled_congr hr, settled_congr he]
    split
    · exact withFunction_withFunction _ _
    · rw [withFunction_settleRoot, withFunction_withFunction, settleRoot_settleRoot]
  refine ⟨by rw [locate_congr hr], by rw [locate_congr hr], by rw [locate_congr hr], ?_⟩
  rw [hs]
  have hi : (extractor.settled tree).indexes.Faithful tree := by
    rw [indexes_settled]
    exact h
  exact ⟨rfl, rfl, hi, hi⟩

/-- However often a request has been served, and whatever sources have been read in between, the
extractor stands as it stood first. -/
theorem Reached.agrees (h : Reached tree request extractor) :
    extractor.Agrees tree (ofRequest request) := by
  induction h with
  | start =>
    have hi := IndexCache.faithful_empty tree
    exact Alike.agrees ⟨rfl, rfl, hi, hi⟩
  | source source package h ih =>
    exact (alike_extractSource h.faithful source package).agrees.trans ih
  | file h ih =>
    exact (alike_extract h.faithful).agrees.trans ((agrees_settled h.faithful).trans ih)

def extractions (extractor : Extractor) (tree : FileTree) : Nat → List Extraction
  | 0 => []
  | n + 1 => (extractor.extract tree).1 :: extractions (extractor.extract tree).2 tree n

theorem Reached.extractions_eq (h : Reached tree request extractor) (n : Nat) :
    extractor.extractions tree n = List.replicate n ((ofRequest request).extract tree).1 := by
  induction n generalizing extractor with
  | zero => rfl
  | succ n ih =>
    rw [extractions, h.agrees.extract_eq, ih h.file]
    rfl

/-- An extraction from an unchanged tree can be repeated: each time it gives the same manifest or
failure, the same warnings and the same notes. -/
theorem extractions_eq_replicate (tree : FileTree) (request : ExtractionRequest) (n : Nat) :
    (ofRequest request).extractions tree n =
      List.replicate n ((ofRequest request).extract tree).1 := by
  exact Reached.extractions_eq .start n

end Extractor

end ManifestScan
