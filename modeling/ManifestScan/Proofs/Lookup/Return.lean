import ManifestScan.Proofs.File.Walk
import ManifestScan.Proofs.Lookup.Faithful
import ManifestScan.Proofs.Lookup.Scripts

namespace ManifestScan

namespace SourceIndex

/-- The markers that their module path does not lead back to: that of the root, and those below a
directory called `__init__`, which module paths leave out. -/
def IsLost (index : SourceIndex) (file : FilePath) : Prop :=
  let inner := (FilePath.names file).drop (FilePath.names index.root).length
  inner.getLast? = some packageMarker ∧
    (inner.dropLast = [] ∨ ascii "__init__" ∈ inner.dropLast)

instance (index : SourceIndex) (file : FilePath) : Decidable (index.IsLost file) :=
  inferInstanceAs (Decidable (_ ∧ _))

variable {tree : FileTree} {index : SourceIndex} {root file : FilePath} {node : Node}

theorem script_eq_marker {stem : Bytes} :
    stem ++ scriptExtension = packageMarker ↔ stem = ascii "__init__" := by
  have hm : packageMarker = ascii "__init__" ++ scriptExtension := by decide
  rw [hm, List.append_left_inj]

theorem isLost_below (hr : index.root = rootOf root) (place : ModulePlace) :
    index.IsLost (place.below (rootOf root)) ↔ place.stem = ascii "__init__" ∧
      (place.directories = [] ∨ ascii "__init__" ∈ place.directories) := by
  unfold IsLost ModulePlace.below
  dsimp only
  rw [FilePath.names_joinAll _ place.isName_script, hr, List.drop_left, ModulePlace.script,
    List.getLast?_concat, List.dropLast_concat, Option.some_inj, script_eq_marker]

/-- A script is the same file by its path below the root and by its normal form. -/
theorem node_normal (hp : root ≠ []) (place : ModulePlace)
    (h : tree.node (place.below (rootOf root)) = .ok node) :
    tree.node (FilePath.normal (place.below root)) = .ok node := by
  have hnames := place.isName_script
  have hn := place.script_ne_nil
  have hroot := FilePath.isSettled_trail root
  unfold ModulePlace.below at h ⊢
  rw [rootOf_eq hp] at h
  rw [FilePath.normal_joinAll _ hn place.isStep_script]
  by_cases hc : FilePath.trail root ≠ [] ∨ FilePath.isAbsolute root = true
  · rwa [FilePath.joinAll_render hc hroot.isName hn hnames] at h
  · -- From the path `.` the spelling starts with `./`.
    obtain ⟨ht, ha⟩ := not_or.1 hc
    rw [not_not.1 ht, Bool.eq_false_iff.2 ha] at h ⊢
    have hz : 0 ∉ joinWith [slash] place.script := by
      refine notMem_joinWith (by decide) fun name hm => ?_
      rcases List.mem_append.1 hm with hm | hm
      · exact notMem_of_isIdentifier (place.isIdentifier_directory name hm) (by decide)
      · rw [List.mem_singleton.1 hm, List.mem_append, not_or]
        exact ⟨notMem_of_isIdentifier place.isIdentifier_stem (by decide), by decide⟩
    rw [FilePath.joinAll_eq_join _ hn hnames, FilePath.Trail.render_nil,
      FilePath.join_of_fileName (by decide) (FilePath.isAbsolute_joinWith hn hnames)] at h
    rw [List.append_nil, FilePath.Trail.render_eq_joinAll _ (List.reverse_ne_nil_iff.2 hn)
      fun name hm => hnames name (List.mem_reverse.1 hm), List.reverse_reverse]
    exact (congrArg tree.node (FilePath.joinAll_nil hn hnames)).trans (FileTree.node_dot
      (FilePath.joinWith_ne_nil hn hnames) (FilePath.isAbsolute_joinWith hn hnames) hz h)

theorem root_build (tree : FileTree) (root : FilePath) : (build tree root).root = rootOf root := by
  unfold build
  dsimp only
  split <;> rfl

/-- Where the files of an index lie. -/
theorem files_build (hr : tree.node (rootOf root) = .ok node) (hn : node.HasModuleNames)
    (hf : file ∈ (build tree root).files) :
    ∃ place : ModulePlace, file = place.below (rootOf root) := by
  cases node with
  | file content =>
    rw [build, hr] at hf
    cases hf
  | link target =>
    rw [build, hr] at hf
    cases hf
  | directory entries =>
    rw [build_eq hr] at hf
    have hs := scripts_of_hasModuleNames hn hf
    rwa [if_pos (show (Node.directory entries).isDirectory = true from rfl)] at hs

end SourceIndex

namespace Signature

variable {tree : FileTree} {index : SourceIndex} {root path : FilePath} {parts : List Bytes}

theorem ne_nil_of_mem_candidates (h : path ∈ candidates tree index root parts) : parts ≠ [] := by
  rintro rfl
  obtain ⟨-, file, -, h | ⟨h, -⟩ | ⟨last, h, -⟩⟩ := mem_candidates.1 h <;> cases h

theorem mem_direct {directory file : FilePath} {front : List Bytes} {last : Bytes}
    (hl : FilePath.IsName last) : file ∈ direct directory (front ++ [last]) ↔
      file = FilePath.joinAll directory (front ++ [last ++ SourceIndex.scriptExtension]) ∨
        file = FilePath.joinAll directory (front ++ [last] ++ [SourceIndex.packageMarker]) := by
  unfold direct
  rw [if_neg (by simp)]
  dsimp only
  rw [FilePath.joinAll_concat, FilePath.joinAll_concat, FilePath.join_append _ hl,
    FilePath.joinAll_concat, FilePath.joinAll_concat]
  simp

/-- Files give a signature if one of them does. -/
theorem isSome_inFiles {files : List FilePath} {source name : Bytes} {kind : CallableKind}
    (hp : path ∈ files) (hr : tree.read? path = some source)
    (hs : (find? source name kind).isSome) :
    (inFiles tree name kind files).found.isSome := by
  induction files with
  | nil => cases hp
  | cons file others ih =>
    rw [inFiles]
    rcases List.mem_cons.1 hp with rfl | hm
    · rw [hr]
      dsimp only
      split
      · rfl
      · rename_i hn
        rw [hn] at hs
        cases hs
    · split
      · exact ih hm
      · split
        · rfl
        · exact ih hm

/-- A look-up below one root finds what one of the candidates gives. -/
theorem lookUp_of_mem_candidates {module source name : Bytes} {kind : CallableKind}
    (hp : root ≠ [])
    (hc : path ∈ candidates tree (SourceIndex.build tree root) root (moduleParts module))
    (hr : tree.read? path = some source) (hs : (find? source name kind).isSome) :
    (lookUp tree [root] module name kind .empty .empty).1.isSome := by
  have hfound : (inFiles tree name kind
      (candidates tree (SourceIndex.build tree root) root (moduleParts module))).found.isSome :=
    isSome_inFiles hc hr hs
  have hindex : (IndexCache.empty.lookUp tree root).1 = SourceIndex.build tree root :=
    ((IndexCache.faithful_empty tree).lookUp_fst root).trans (SourceIndex.build_normal tree hp)
  have hsearch : (search tree (moduleParts module) name kind .empty [root]).1.found.isSome := by
    unfold search
    rw [if_neg (by simp [hp, ne_nil_of_mem_candidates hc])]
    dsimp only
    rw [hindex, if_pos hfound]
    exact hfound
  unfold lookUp
  dsimp only [SignatureMemo.empty, List.lookup_nil]
  exact hsearch

theorem rootParts_cases (index : SourceIndex)
    (ho : isIdentifier (ownName root) ∨ ∀ b ∈ ownName root, b = dot) :
    rootParts index root = [] ∨
      isIdentifier (ownName root) ∧ rootParts index root = [ownName root] := by
  unfold rootParts
  split
  · rcases ho with ho | ho
    · exact .inr ⟨ho, moduleParts_identifier ho⟩
    · exact .inl (moduleParts_dots ho)
  · exact .inl rfl

/-- A script that is not lost is a candidate for its own module path. -/
theorem normal_mem_candidates (hp : root ≠ []) (hr : index.root = SourceIndex.rootOf root)
    (ho : isIdentifier (ownName root) ∨ ∀ b ∈ ownName root, b = dot) {place : ModulePlace}
    (hf : place.below (SourceIndex.rootOf root) ∈ index.files)
    (hfile : tree.isFile (FilePath.normal (place.below root)))
    (hl : ¬index.IsLost (place.below (SourceIndex.rootOf root))) :
    FilePath.normal (place.below root) ∈ candidates tree index root
      (moduleParts (index.modulePath (place.below (SourceIndex.rootOf root)))) := by
  rw [moduleParts_below hp hr, ModulePlace.kept, ModulePlace.names, List.filter_append]
  rw [SourceIndex.isLost_below hr] at hl
  refine mem_candidates.2 ⟨hfile, ?_⟩
  by_cases hstem : place.stem = ascii "__init__"
  · -- A marker is the one of the package that the module path names.
    obtain ⟨hne, hno⟩ := not_or.1 fun h => hl ⟨hstem, h⟩
    have hkept : place.directories.filter (· != ascii "__init__") = place.directories :=
      List.filter_eq_self.2 fun name hm => bne_iff_ne.2 fun he => hno (he ▸ hm)
    have hdropped : [place.stem].filter (· != ascii "__init__") = [] := by
      rw [hstem]
      rfl
    obtain ⟨front, last, he⟩ := (List.eq_nil_or_concat' place.directories).resolve_left hne
    have hlast : isIdentifier last := place.isIdentifier_directory last (by simp [he])
    have hdirect : place.below root ∈ direct root place.directories := by
      rw [he, mem_direct (isStep_of_isIdentifier hlast).toIsName, ModulePlace.below,
        ModulePlace.script, SourceIndex.script_eq_marker.2 hstem, he]
      exact .inr rfl
    rw [hkept, hdropped, List.append_nil]
    refine ⟨_, rfl, ?_⟩
    rcases rootParts_cases index ho with h | ⟨-, h⟩
    · rw [h, List.nil_append]
      exact .inl hdirect
    · rw [h]
      exact .inr (.inl ⟨rfl, hdirect⟩)
  · -- Any other script goes by the last name of its module path.
    refine ⟨_, SourceIndex.normal_below hp place, .inr (.inr ⟨place.stem, ?_, ?_⟩)⟩
    · rw [List.filter_cons_of_pos (by simpa using hstem), ← List.append_assoc]
      exact List.getLast?_concat
    · exact List.mem_filter.2 ⟨hf, beq_iff_eq.2 (place.fileName_below _)⟩

/-- Parts that are all kept lead directly to a marker only when they are its directories. -/
theorem directories_of_mem_direct {place : ModulePlace} {file : FilePath}
    (hparts : ∀ part ∈ parts, isIdentifier part ∧ part ≠ ascii "__init__")
    (hf : file ∈ direct root parts) (hs : place.stem = ascii "__init__")
    (hn : FilePath.normal file = FilePath.normal (place.below root)) :
    place.directories = parts ∧ parts ≠ [] := by
  have hne : parts ≠ [] := by
    rintro rfl
    cases hf
  obtain ⟨front, last, rfl⟩ := (List.eq_nil_or_concat' parts).resolve_left hne
  have hlast := hparts last (by simp)
  have hfront : ∀ name ∈ front, isIdentifier name := fun name hm => (hparts name (by simp [hm])).1
  refine ⟨?_, hne⟩
  rcases (mem_direct (isStep_of_isIdentifier hlast.1).toIsName).1 hf with rfl | rfl
  · let other : ModulePlace := ⟨front, last, hfront, hlast.1⟩
    obtain ⟨-, hstem⟩ := @ModulePlace.normal_below_inj other place root hn
    exact absurd (hstem.trans hs) hlast.2
  · let other : ModulePlace :=
      ⟨front ++ [last], ascii "__init__", fun name hm => (hparts name hm).1, by decide⟩
    rw [← SourceIndex.script_eq_marker.2 rfl] at hn
    exact (@ModulePlace.normal_below_inj other place root hn).1.symm

/-- A marker that is lost is no candidate for its own module path. -/
theorem normal_notMem_candidates (hp : root ≠ []) (hr : index.root = SourceIndex.rootOf root)
    (ho : isIdentifier (ownName root) ∨ ∀ b ∈ ownName root, b = dot)
    (hown : ownName root ≠ ascii "__init__")
    (hfiles : ∀ file ∈ index.files,
      ∃ place : ModulePlace, file = place.below (SourceIndex.rootOf root))
    {place : ModulePlace} (hl : index.IsLost (place.below (SourceIndex.rootOf root))) :
    FilePath.normal (place.below root) ∉ candidates tree index root
      (moduleParts (index.modulePath (place.below (SourceIndex.rootOf root)))) := by
  obtain ⟨hs, hl⟩ := (SourceIndex.isLost_below hr place).1 hl
  rw [moduleParts_below hp hr]
  have hparts : ∀ part ∈ rootParts index root ++ place.kept,
      isIdentifier part ∧ part ≠ ascii "__init__" := by
    intro part hm
    rcases List.mem_append.1 hm with hm | hm
    · rcases rootParts_cases index ho with h | ⟨hname, h⟩
      · rw [h] at hm
        cases hm
      · rw [h] at hm
        rw [List.mem_singleton.1 hm]
        exact ⟨hname, hown⟩
    · obtain ⟨hm, hne⟩ := List.mem_filter.1 hm
      exact ⟨place.isIdentifier_names part hm, bne_iff_ne.1 hne⟩
  generalize rootParts index root ++ place.kept = parts at hparts ⊢
  -- No place named by such parts is below a directory called `__init__` or right below the root.
  have hplace : ∀ {inner : List Bytes}, (∀ part ∈ inner, part ∈ parts) → ∀ {file : FilePath},
      file ∈ direct root inner → FilePath.normal file ≠ FilePath.normal (place.below root) := by
    intro inner hsub file hf hn
    obtain ⟨rfl, hne⟩ :=
      directories_of_mem_direct (fun part hm => hparts part (hsub part hm)) hf hs hn
    rcases hl with h | h
    · exact hne h
    · exact (hparts _ (hsub _ h)).2 rfl
  intro hm
  obtain ⟨-, file, hn, hm⟩ := mem_candidates.1 hm
  rcases hm with hm | ⟨-, hm⟩ | ⟨last, hlast, hm⟩
  · exact hplace (fun _ => id) hm hn
  · exact hplace (fun _ => List.mem_of_mem_drop) hm hn
  · -- A file that goes by the last part is called otherwise.
    obtain ⟨hfile, hname⟩ := List.mem_filter.1 hm
    obtain ⟨other, rfl⟩ := hfiles file hfile
    rw [other.fileName_below, beq_iff_eq] at hname
    rw [SourceIndex.normal_below hp] at hn
    obtain ⟨-, hstem⟩ := ModulePlace.normal_below_inj hn
    rw [List.append_cancel_right hname, hs] at hstem
    exact (hparts last (List.mem_of_getLast? hlast)).2 hstem

/-- A script is found by its module path, whatever it defines, unless it is a lost marker. A lost
marker is not even looked at. -/
theorem lookUp_modulePath {tree : FileTree} {root file : FilePath} {node : Node} {source : Bytes}
    (hr : tree.node (SourceIndex.rootOf root) = .ok node) (hn : node.HasModuleNames)
    (ho : isIdentifier (ownName root) ∨ ∀ b ∈ ownName root, b = dot)
    (hf : file ∈ (SourceIndex.build tree root).files) (hs : tree.node file = .ok (.file source)) :
    let index := SourceIndex.build tree root
    (¬index.IsLost file → ∀ name kind, (find? source name kind).isSome →
        (lookUp tree [root] (index.modulePath file) name kind .empty .empty).1.isSome) ∧
      (index.IsLost file → ownName root ≠ ascii "__init__" →
        FilePath.normal file ∉
          candidates tree index root (moduleParts (index.modulePath file))) := by
  have hp : root ≠ [] := by
    rintro rfl
    cases hr
  have hroot := SourceIndex.root_build tree root
  have hfiles := fun file => @SourceIndex.files_build tree root file node hr hn
  obtain ⟨place, rfl⟩ := hfiles file hf
  have hnode := SourceIndex.node_normal hp place hs
  have hfile : tree.isFile (FilePath.normal (place.below root)) := by
    rw [FileTree.isFile, hnode]
  have hread : tree.read? (FilePath.normal (place.below root)) = some source := by
    rw [FileTree.read?, hnode]
  refine ⟨fun hl name kind hfind => ?_, fun hl hown => ?_⟩
  · exact lookUp_of_mem_candidates hp (normal_mem_candidates hp hroot ho hf hfile hl) hread hfind
  · rw [SourceIndex.normal_below hp]
    exact normal_notMem_candidates hp hroot ho hown hfiles hl

def packages : List (Bytes × Node) :=
  [(ascii "__init__.py", .file (ascii "def f(a):\n    return a\n")),
    (ascii "sub", .directory [(ascii "__init__.py", .file (ascii "def g(b):\n    return b\n"))])]

def packageTree : FileTree :=
  ⟨.directory [(ascii "work", .directory [(ascii "pkg", .directory packages)])],
    ascii "/work", none⟩

theorem node_packages :
    packageTree.node (SourceIndex.rootOf (ascii "pkg")) = .ok (.directory packages) := by
  have hr : SourceIndex.rootOf (ascii "pkg") = ascii "pkg" := by decide +kernel
  rw [hr]
  rfl

theorem hasModuleNames_packages : (Node.directory packages).HasModuleNames := by
  have hmarker (content : Bytes) : (Node.file content).IsModule (ascii "__init__.py") := by
    unfold Node.IsModule
    rw [if_neg (show ¬(Node.file content).isDirectory = true from Bool.false_ne_true)]
    exact ⟨ascii "__init__", by decide, by decide⟩
  have hsub : ∀ entry ∈ [(ascii "__init__.py", Node.file (ascii "def g(b):\n    return b\n"))],
      entry.2.IsModule entry.1 := List.forall_mem_singleton.2 (hmarker _)
  have hdirectory (entries : List (Bytes × Node)) :
      (Node.directory entries).IsModule (ascii "sub") := by
    unfold Node.IsModule
    rw [if_pos (show (Node.directory entries).isDirectory = true from rfl)]
    decide
  refine .directory ?_ ?_
  · exact List.forall_mem_cons.2 ⟨hmarker _, List.forall_mem_singleton.2 (hdirectory _)⟩
  · refine List.forall_mem_cons.2 ⟨.file _, List.forall_mem_singleton.2 (.directory hsub ?_)⟩
    exact List.forall_mem_singleton.2 (.file _)

theorem lookUp_modulePath_inner :
    let root := ascii "pkg"
    let index := SourceIndex.build packageTree root
    let file := ascii "pkg/sub/__init__.py"
    file ∈ index.files ∧ ¬index.IsLost file ∧
      (lookUp packageTree [root] (index.modulePath file) (ascii "g") .function .empty
        .empty).1.isSome := by
  intro root index file
  have hf : file ∈ index.files := by decide +kernel
  have hs : packageTree.node file = .ok (.file (ascii "def g(b):\n    return b\n")) := rfl
  have hl : ¬index.IsLost file := by decide +kernel
  have ho : isIdentifier (ownName root) := by decide +kernel
  exact ⟨hf, hl, (lookUp_modulePath node_packages hasModuleNames_packages (.inl ho) hf hs).1 hl
    (ascii "g") .function (by decide +kernel)⟩

/-- The marker of the root defines `f`, and is not found by the module path that it has. -/
theorem lookUp_modulePath_lost :
    let root := ascii "pkg"
    let index := SourceIndex.build packageTree root
    let file := ascii "pkg/__init__.py"
    packageTree.node (SourceIndex.rootOf root) = .ok (.directory packages) ∧
      (Node.directory packages).HasModuleNames ∧ isIdentifier (ownName root) ∧
      file ∈ index.files ∧
      ((packageTree.read? file).bind (find? · (ascii "f") .function)).isSome ∧
      (lookUp packageTree [root] (index.modulePath file) (ascii "f") .function .empty
        .empty).1 = none := by
  intro root index file
  exact ⟨node_packages, hasModuleNames_packages, by decide +kernel, by decide +kernel,
    by decide +kernel, by decide +kernel⟩

end Signature

end ManifestScan
