import ManifestScan.Proofs.File.Normal
import ManifestScan.Proofs.Lookup.Walk
import ManifestScan.Proofs.Text.Name
import ManifestScan.SignatureSearch

namespace ManifestScan

/-- A directory called by a name, or anything else called by a name with the
extension of scripts. -/
def Node.IsModule (name : Bytes) (node : Node) : Prop :=
  if node.isDirectory then isIdentifier name = true
  else ∃ stem, isIdentifier stem ∧ name = stem ++ SourceIndex.scriptExtension

inductive Node.HasModuleNames : Node → Prop
  | file (content : Bytes) : HasModuleNames (.file content)
  | link (target : FilePath) : HasModuleNames (.link target)
  | directory {entries : List (Bytes × Node)} (hn : ∀ entry ∈ entries, entry.2.IsModule entry.1)
      (h : ∀ entry ∈ entries, HasModuleNames entry.2) : HasModuleNames (.directory entries)

theorem isStep_of_isIdentifier {name : Bytes} (h : isIdentifier name) : FilePath.IsStep name := by
  have hd : dot ∉ name := notMem_of_isIdentifier h (by decide)
  refine ⟨⟨?_, notMem_of_isIdentifier h (by decide)⟩, ?_, ?_⟩
  · rintro rfl
    cases h
  · rintro rfl
    exact hd (by decide)
  · rintro rfl
    exact hd (by decide)

theorem isStep_extended {stem : Bytes} (h : isIdentifier stem) :
    FilePath.IsStep (stem ++ SourceIndex.scriptExtension) := by
  have hs := isStep_of_isIdentifier h
  have hl : 3 < (stem ++ SourceIndex.scriptExtension).length := by
    have := List.length_pos_iff.2 hs.ne_nil
    rw [List.length_append]
    exact Nat.lt_add_of_pos_left this
  refine ⟨⟨by simp [hs.ne_nil], ?_⟩, ?_, ?_⟩
  · rw [List.mem_append, not_or]
    exact ⟨hs.slash_notMem, by decide⟩
  · intro he
    rw [he] at hl
    contradiction
  · intro he
    rw [he] at hl
    contradiction

/-- Where a module lies: identifiers for the directories that lead to it and for its own name. -/
structure ModulePlace where
  directories : List Bytes
  stem : Bytes
  isIdentifier_directory : ∀ name ∈ directories, isIdentifier name
  isIdentifier_stem : isIdentifier stem

namespace ModulePlace

variable (place : ModulePlace)

def names : List Bytes := place.directories ++ [place.stem]

def script : List Bytes := place.directories ++ [place.stem ++ SourceIndex.scriptExtension]

/-- The names that module paths do not leave out. -/
def kept : List Bytes := place.names.filter (· != ascii "__init__")

def below (path : FilePath) : FilePath := FilePath.joinAll path place.script

theorem isIdentifier_names : ∀ name ∈ place.names, isIdentifier name := by
  intro name hm
  rcases List.mem_append.1 hm with hm | hm
  · exact place.isIdentifier_directory name hm
  · rw [List.mem_singleton.1 hm]
    exact place.isIdentifier_stem

theorem isStep_names : ∀ name ∈ place.names, FilePath.IsStep name :=
  fun name hm => isStep_of_isIdentifier (place.isIdentifier_names name hm)

theorem isStep_script : ∀ name ∈ place.script, FilePath.IsStep name := by
  intro name hm
  rcases List.mem_append.1 hm with hm | hm
  · exact isStep_of_isIdentifier (place.isIdentifier_directory name hm)
  · rw [List.mem_singleton.1 hm]
    exact isStep_extended place.isIdentifier_stem

theorem isName_script : ∀ name ∈ place.script, FilePath.IsName name :=
  fun name hm => (place.isStep_script name hm).toIsName

theorem names_ne_nil : place.names ≠ [] := List.concat_ne_nil _ _

theorem script_ne_nil : place.script ≠ [] := List.concat_ne_nil _ _

theorem fileName_below (path : FilePath) :
    FilePath.fileName (place.below path) = place.stem ++ SourceIndex.scriptExtension :=
  FilePath.fileName_joinAll _ _ (isStep_extended place.isIdentifier_stem).toIsName

theorem dropExtension_below (path : FilePath) :
    FilePath.dropExtension (place.below path) = FilePath.joinAll path place.names := by
  have hstep := isStep_of_isIdentifier place.isIdentifier_stem
  have he : FilePath.extension (place.below path) = SourceIndex.scriptExtension := by
    unfold FilePath.extension
    rw [place.fileName_below]
    exact congrArg Prod.snd (FilePath.splitExtension_append hstep.ne_nil (by decide)
      (isStep_extended place.isIdentifier_stem).ne_dots)
  unfold FilePath.dropExtension
  rw [he, below, script, names, FilePath.joinAll_concat, FilePath.joinAll_concat,
    FilePath.join_append _ hstep.toIsName, List.length_append, Nat.add_sub_cancel, List.take_left]

/-- Different modules have scripts in different places. -/
theorem normal_below_inj {place other : ModulePlace} {path : FilePath}
    (h : FilePath.normal (place.below path) = FilePath.normal (other.below path)) :
    place.directories = other.directories ∧ place.stem = other.stem := by
  have hs : place.script = other.script := FilePath.normal_joinAll_inj place.script_ne_nil
    other.script_ne_nil place.isStep_script other.isStep_script h
  have hstem := List.singleton_inj.1 (List.append_inj_right' hs rfl)
  exact ⟨List.append_inj_left' hs rfl, List.append_cancel_right hstem⟩

end ModulePlace

namespace SourceIndex

variable {tree : FileTree} {path file root : FilePath}

/-- Where the scripts of a walk lie. -/
theorem scripts_of_hasModuleNames {node : Node} (h : node.HasModuleNames)
    (hf : file ∈ scriptsAt tree path node) :
    if node.isDirectory then ∃ place : ModulePlace, file = place.below path else file = path := by
  induction h generalizing path with
  | file content =>
    rw [scriptsAt_leaf _ _ rfl] at hf
    split at hf
    · exact List.mem_singleton.1 hf
    · cases hf
  | link target =>
    rw [scriptsAt_leaf _ _ rfl] at hf
    split at hf
    · exact List.mem_singleton.1 hf
    · cases hf
  | @directory entries hn h ih =>
    rw [if_pos (show (Node.directory entries).isDirectory = true from rfl)]
    rw [scriptsAt_directory] at hf
    obtain ⟨entry, hm, hfile⟩ := List.mem_flatMap.1 hf
    obtain ⟨-, hentry, -⟩ := mem_opened.1 hm
    have hinner := ih entry hentry hfile
    have hname := hn entry hentry
    unfold Node.IsModule at hname
    split at hinner
    · rename_i hd
      obtain ⟨⟨directories, stem, hdirectories, hstem⟩, rfl⟩ := hinner
      rw [if_pos hd] at hname
      exact ⟨⟨entry.1 :: directories, stem, List.forall_mem_cons.2 ⟨hname, hdirectories⟩, hstem⟩,
        rfl⟩
    · rename_i hd
      rw [if_neg hd] at hname
      obtain ⟨stem, hstem, he⟩ := hname
      rw [hinner, he]
      exact ⟨⟨[], stem, List.forall_mem_nil _, hstem⟩, rfl⟩

theorem rootOf_eq (hp : root ≠ []) :
    rootOf root =
      FilePath.Trail.render (FilePath.isAbsolute root) ⟨FilePath.trail root, false⟩ := by
  obtain ⟨slashed, hr⟩ := FilePath.normal_eq hp
  have hs := FilePath.isSettled_trail root
  unfold rootOf
  rw [hr]
  generalize FilePath.trail root = chain at *
  cases chain with
  | nil =>
    rw [FilePath.Trail.render_nil]
    cases FilePath.isAbsolute root <;> rfl
  | cons name chain =>
    have hf := FilePath.Trail.fileName_render (FilePath.isAbsolute root) hs.isName
    have hname : name ≠ [] := (hs.isName name List.mem_cons_self).ne_nil
    rcases FilePath.Trail.render_cases (FilePath.isAbsolute root) ⟨name :: chain, slashed⟩ with
      he | ⟨hn, he⟩
    · rw [he]
      exact if_neg (by simpa [hf] using hname)
    · rw [he]
      dsimp only
      rw [FilePath.fileName_slash]
      refine (if_pos rfl).trans (FilePath.parent_slash (by rwa [hf]) ?_)
      rw [FilePath.Trail.names_render _ hn hs.isName]
      simp

theorem ownName_eq (root : FilePath) : Signature.ownName root = FilePath.fileName (rootOf root) :=
  (apply_ite FilePath.fileName _ _ _).symm

/-- The root of an index leads where the path leads that it is built for. -/
theorem trail_rootOf (hp : root ≠ []) :
    FilePath.trail (rootOf root) = FilePath.trail root ∧
      FilePath.isAbsolute (rootOf root) = FilePath.isAbsolute root := by
  have hs := FilePath.isSettled_trail root
  rw [rootOf_eq hp]
  exact ⟨FilePath.trail_render hs, FilePath.Trail.isAbsolute_render _ hs.isName⟩

theorem rootOf_normal (hp : root ≠ []) : rootOf (FilePath.normal root) = rootOf root := by
  obtain ⟨ht, ha⟩ := FilePath.trail_normal root
  rw [rootOf_eq hp, rootOf_eq (FilePath.normal_ne_nil hp), ht, ha]

/-- A path and its normal form have one index. -/
theorem build_normal (tree : FileTree) (hp : root ≠ []) :
    build tree (FilePath.normal root) = build tree root := by
  unfold build
  rw [rootOf_normal hp]

theorem normal_joinAll_rootOf (hp : root ≠ []) {inner : List Bytes} (hn : inner ≠ [])
    (hi : ∀ name ∈ inner, FilePath.IsStep name) :
    FilePath.normal (FilePath.joinAll (rootOf root) inner) =
      FilePath.normal (FilePath.joinAll root inner) := by
  obtain ⟨ht, ha⟩ := trail_rootOf hp
  rw [FilePath.normal_joinAll _ hn hi, FilePath.normal_joinAll _ hn hi, ht, ha]

theorem relativeTo_joinAll (hp : root ≠ []) {inner : List Bytes} (hn : inner ≠ [])
    (hi : ∀ name ∈ inner, FilePath.IsStep name) :
    FilePath.relativeTo (FilePath.normal (FilePath.joinAll (rootOf root) inner)) (rootOf root) =
      FilePath.joinAll [] inner := by
  rw [normal_joinAll_rootOf hp hn hi, FilePath.normal_joinAll _ hn hi, rootOf_eq hp]
  exact FilePath.relativeTo_render (FilePath.isSettled_trail root) hn hi

theorem normal_below (hp : root ≠ []) (place : ModulePlace) :
    FilePath.normal (place.below (rootOf root)) = FilePath.normal (place.below root) :=
  normal_joinAll_rootOf hp place.script_ne_nil place.isStep_script

theorem relativeTo_below (hp : root ≠ []) (place : ModulePlace) :
    FilePath.relativeTo (FilePath.normal (place.below (rootOf root))) (rootOf root) =
      place.below [] := relativeTo_joinAll hp place.script_ne_nil place.isStep_script

theorem filter_isSilentPart (place : ModulePlace) :
    place.names.filter (!isSilentPart ·) = place.kept := by
  refine List.filter_congr fun name hm => ?_
  have hname := place.isStep_names name hm
  simp [isSilentPart, hname.ne_nil, hname.ne_dot, bne]

/-- The module path of a script: the names that lead to it, behind that of a root that
is a package. -/
theorem modulePath_below {index : SourceIndex} (hp : root ≠ []) (hr : index.root = rootOf root)
    (place : ModulePlace) : index.modulePath (place.below (rootOf root)) =
      joinWith [dot] ((if index.isPackage ∧ Signature.ownName root ≠ [] then
        [Signature.ownName root] else []) ++ place.kept) := by
  have hparts : FilePath.parts (place.below []) = place.script :=
    FilePath.parts_joinAll [] place.script_ne_nil place.isName_script
  have hmodule : FilePath.parts (FilePath.joinAll [] place.names) = place.names :=
    FilePath.parts_joinAll [] place.names_ne_nil
      fun name hm => (place.isStep_names name hm).toIsName
  have hinside : ¬((place.below []).isEmpty = true ∨
      (FilePath.parts (place.below [])).head? = some [dot, dot]) := by
    rw [hparts]
    rintro (he | he)
    · rw [List.isEmpty_iff.1 he] at hparts
      exact place.script_ne_nil hparts.symm
    · exact (place.isStep_script _ (List.mem_of_mem_head? he)).ne_dots rfl
  unfold modulePath
  dsimp only
  rw [hr, relativeTo_below hp, if_neg hinside, place.dropExtension_below, hmodule,
    filter_isSilentPart, ownName_eq]
  cases index.isPackage with
  | false => rfl
  | true =>
    by_cases hname : FilePath.fileName (rootOf root) = []
    · simp [hname]
    · simp [hname]

end SourceIndex

namespace Signature

/-- The parts of joined texts are those of each text. -/
theorem moduleParts_joinWith (texts : List Bytes) :
    moduleParts (joinWith [dot] texts) = texts.flatMap moduleParts := by
  induction texts with
  | nil => rfl
  | cons text others ih =>
    rw [List.flatMap_cons]
    by_cases ho : others = []
    · rw [ho]
      exact (List.append_nil _).symm
    · rw [← ih, joinWith_cons _ ho, List.singleton_append]
      unfold moduleParts
      rw [fields_append, List.filter_append]

theorem moduleParts_identifier {name : Bytes} (h : isIdentifier name) :
    moduleParts name = [name] := by
  unfold moduleParts
  rw [fields_of_notMem (notMem_of_isIdentifier h (by decide))]
  simpa using (isStep_of_isIdentifier h).ne_nil

/-- Dots alone name no module. -/
theorem moduleParts_dots {text : Bytes} (h : ∀ b ∈ text, b = dot) : moduleParts text = [] := by
  induction text with
  | nil => rfl
  | cons b text ih =>
    obtain ⟨rfl, ht⟩ := List.forall_mem_cons.1 h
    exact ih ht

/-- The parts that the module paths of an index start with. -/
def rootParts (index : SourceIndex) (root : FilePath) : List Bytes :=
  if index.isPackage then moduleParts (ownName root) else []

/-- What the module path of a script leads through. -/
theorem moduleParts_below {index : SourceIndex} {root : FilePath} (hp : root ≠ [])
    (hr : index.root = SourceIndex.rootOf root) (place : ModulePlace) :
    moduleParts (index.modulePath (place.below (SourceIndex.rootOf root))) =
      rootParts index root ++ place.kept := by
  have hself : place.kept.flatMap moduleParts = place.kept := by
    refine (List.flatMap_congr fun name hm => ?_).trans (List.flatMap_singleton' _)
    exact moduleParts_identifier (place.isIdentifier_names name (List.mem_filter.1 hm).1)
  rw [SourceIndex.modulePath_below hp hr, moduleParts_joinWith, List.flatMap_append, hself]
  unfold rootParts
  congr 1
  cases index.isPackage with
  | false => rfl
  | true =>
    by_cases hname : ownName root = []
    · simp [hname, moduleParts, fields]
    · simp [hname]

end Signature

end ManifestScan
