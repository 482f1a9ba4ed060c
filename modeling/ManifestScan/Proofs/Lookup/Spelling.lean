import ManifestScan.Proofs.File.Spelling
import ManifestScan.Proofs.Lookup.Scripts

namespace ManifestScan

namespace FileTree

def Shows (tree : FileTree) (path : FilePath) (node : Node) : Prop :=
  ∀ inner below, node.at? inner = some below → tree.node (FilePath.joinAll path inner) = .ok below

variable {tree : FileTree} {path : FilePath}

theorem Shows.node {node : Node} (h : tree.Shows path node) : tree.node path = .ok node :=
  h [] node rfl

theorem Shows.child {entries : List (Bytes × Node)} {entry : Bytes × Node}
    (h : tree.Shows path (.directory entries)) (hd : (entries.map (·.1)).Nodup)
    (hm : entry ∈ entries) : tree.Shows (FilePath.join path entry.1) entry.2 := by
  intro inner below hb
  refine h (entry.1 :: inner) below ?_
  have hc : (Node.directory entries).child? entry.1 = some entry.2 := lookup_of_mem hd hm
  rw [Node.at?, hc]
  exact hb

end FileTree

namespace Node

open FileTree SourceIndex

mutual

/-- The chains of names that lead from a node with the given name to the scripts below it, in the
order of a walk. -/
def scripts (name : Bytes) : Node → List (List Bytes)
  | .directory entries =>
    (sortByName (namedScripts entries)).flatMap fun entry => entry.2.map (entry.1 :: ·)
  | .file _ => if (FilePath.splitExtension name).2 = scriptExtension then [[]] else []
  | .link _ => []

def namedScripts : List (Bytes × Node) → List (Bytes × List (List Bytes))
  | [] => []
  | (name, node) :: others =>
    (if isExcluded name then [] else [(name, scripts name node)]) ++ namedScripts others

end

theorem namedScripts_eq (entries : List (Bytes × Node)) :
    namedScripts entries = (entries.filter (!isExcluded ·.1)).map
      fun entry => (entry.1, entry.2.scripts entry.1) := by
  induction entries with
  | nil => rw [namedScripts, List.filter_nil, List.map_nil]
  | cons entry others ih =>
    rw [namedScripts, ih, List.filter_cons]
    cases isExcluded entry.1 <;> rfl

theorem scripts_directory (name : Bytes) (entries : List (Bytes × Node)) :
    (Node.directory entries).scripts name = (visited entries).flatMap
      fun entry => (entry.2.scripts entry.1).map (entry.1 :: ·) := by
  rw [scripts, namedScripts_eq, sortByName_map, List.flatMap_map]
  rfl

/-- A directory with the marker of packages. -/
def hasMarker (node : Node) : Bool :=
  match node.child? packageMarker with
  | some (.file _) => true
  | _ => false

end Node

namespace SourceIndex

variable {tree : FileTree} {path : FilePath} {node : Node}

/-- The scripts of a walk are those of the node, whatever path leads to it. -/
theorem scriptsAt_of_shows (hp : node.IsPlain) (hs : tree.Shows path node) :
    scriptsAt tree path node =
      (node.scripts (FilePath.fileName path)).map (FilePath.joinAll path) := by
  induction hp generalizing path with
  | file content =>
    rw [scriptsAt_leaf _ _ rfl, Node.scripts]
    have hs : isScript tree path (.file content) =
        ((FilePath.splitExtension (FilePath.fileName path)).2 == scriptExtension) := rfl
    rw [hs, ite_congr (propext beq_iff_eq) (fun _ => rfl) (fun _ => rfl)]
    exact (apply_ite (List.map (FilePath.joinAll path)) _ [[]] []).symm
  | @directory entries hn hd hi ih =>
    have hdirectory : tree.isDirectory path = true := by
      unfold FileTree.isDirectory
      rw [hs.node]
    rw [scriptsAt_directory, opened, if_pos hdirectory, Node.scripts_directory, List.map_flatMap]
    refine List.flatMap_congr fun entry hm => ?_
    replace hm := (mem_visited.1 hm).1
    rw [ih entry hm (hs.child hd hm), FilePath.fileName_join path (hn entry hm).toIsName,
      List.map_map]
    rfl

theorem closedAt_of_shows (hp : node.IsPlain) (hs : tree.Shows path node) :
    closedAt tree path node = [] := by
  induction hp generalizing path with
  | file content => exact closedAt_leaf _ _ rfl
  | @directory entries hn hd hi ih =>
    have hdirectory : tree.isDirectory path = true := by
      unfold FileTree.isDirectory
      rw [hs.node]
    rw [closedAt_directory hdirectory, List.flatMap_eq_nil_iff]
    intro entry hm
    replace hm := (mem_visited.1 hm).1
    exact ih entry hm (hs.child hd hm)

end SourceIndex

namespace Node

open SourceIndex

/-- What is listed is there. -/
theorem at?_of_mem_scripts {node : Node} (hp : node.IsPlain) {name : Bytes} {inner : List Bytes}
    (h : inner ∈ node.scripts name) : ∃ content, node.at? inner = some (.file content) := by
  induction hp generalizing name inner with
  | file content =>
    rw [scripts] at h
    split at h
    · rw [List.mem_singleton.1 h]
      exact ⟨content, rfl⟩
    · cases h
  | @directory entries hn hd hi ih =>
    rw [scripts_directory] at h
    obtain ⟨entry, hentry, hinner⟩ := List.mem_flatMap.1 h
    obtain ⟨rest, hrest, rfl⟩ := List.mem_map.1 hinner
    have hm := (mem_visited.1 hentry).1
    have hc : (Node.directory entries).child? entry.1 = some entry.2 := lookup_of_mem hd hm
    rw [at?, hc]
    exact ih entry hm hrest

theorem ne_nil_of_mem_scripts {entries : List (Bytes × Node)} {name : Bytes} {inner : List Bytes}
    (h : inner ∈ (Node.directory entries).scripts name) : inner ≠ [] := by
  rw [scripts_directory] at h
  obtain ⟨entry, -, hinner⟩ := List.mem_flatMap.1 h
  obtain ⟨rest, -, rfl⟩ := List.mem_map.1 hinner
  exact List.cons_ne_nil _ _

end Node

namespace FileTree

open FilePath SourceIndex

/-- The path is a text that leads to the directory at the chain of names, and no path below it is
too long for the tree. -/
structure Denotes (tree : FileTree) (path : FilePath) (chain : List Bytes)
    (entries : List (Bytes × Node)) : Prop where
  zero_notMem : 0 ∉ path
  locate : tree.locate true path = .ok (.found chain (.directory entries))
  length_le : ∀ inner below, (Node.directory entries).at? inner = some below →
    (joinAll (rootOf path) inner).length ≤ maxPathLength

variable {tree : FileTree} {path : FilePath} {chain steps inner : List Bytes}
  {entries : List (Bytes × Node)} {k : Nat}

/-- A walk that reaches something starts from a directory or ends where it starts. -/
theorem hasDirectory_of_walks {jump : List Bytes → List Bytes → Except FileError Spot}
    {todo found : List Bytes} (h : Walks tree jump chain todo (.found found (.directory entries))) :
    tree.HasDirectory chain := by
  cases h with
  | here h => exact ⟨entries, h⟩
  | stay hd => exact hd
  | up hd => exact hd
  | jump _ h => exact hasDirectory_of_nodeAt?_cons h
  | down _ h => exact hasDirectory_of_nodeAt?_cons h

theorem Denotes.hasDirectory (h : tree.Denotes path chain entries) :
    tree.HasDirectory (tree.startOf path) := by
  have hl := h.locate
  unfold FileTree.locate at hl
  rw [beforeZero_eq h.zero_notMem] at hl
  dsimp only at hl
  split at hl
  · cases hl
  split at hl
  · cases hl
  exact hasDirectory_of_walks (walks_of_walk hl)

theorem Denotes.ne_nil (hp : tree.root.IsPlain) (h : tree.Denotes path chain entries) : path ≠ [] :=
  (resolve_of_locate hp h.zero_notMem h.locate).1

theorem Denotes.nodeAt? (hp : tree.root.IsPlain) (h : tree.Denotes path chain entries) :
    tree.nodeAt? chain = some (.directory entries) :=
  (resolve_of_locate hp h.zero_notMem h.locate).2.2

/-- How the trail of a path and the directory that it leads to hang together. -/
theorem Denotes.exists_steps (hp : tree.root.IsPlain) (h : tree.Denotes path chain entries) :
    ∃ k steps, trail path = steps ++ List.replicate k [dot, dot] ∧ (∀ name ∈ steps, IsStep name) ∧
      (isAbsolute path = true → k = 0) ∧ chain = steps ++ (tree.startOf path).drop k := by
  obtain ⟨-, hc, -⟩ := resolve_of_locate hp h.zero_notMem h.locate
  obtain ⟨k, steps, ht, hs, hk⟩ := (isSettled_trail path).exists_steps
  have hstart : isAbsolute path = true → tree.startOf path = [] := fun ha => if_pos ha
  rw [← resolve_trail hstart, ht, List.reverse_append, List.reverse_replicate, resolve_append,
    resolve_ups, resolve_steps _ (by simpa using hs), List.reverse_reverse] at hc
  exact ⟨k, steps, ht, hs, hk, hc⟩

/-- The root `.` is spelled by a name that leads nowhere. -/
theorem names_rootOf (hn : path ≠ []) (ht : trail path = steps ++ List.replicate k [dot, dot]) :
    ∃ front, (front = List.replicate k [dot, dot] ∨ front = [[dot]] ∧ k = 0) ∧
      names (rootOf path) = front ++ steps.reverse := by
  have hs := (isSettled_trail path).isName
  rw [rootOf_eq hn]
  by_cases he : trail path = []
  · rw [he] at ht ⊢
    obtain ⟨hsteps, hk⟩ := List.append_eq_nil_iff.1 ht.symm
    obtain rfl : k = 0 := by simpa using hk
    rw [Trail.render_nil, hsteps]
    cases isAbsolute path with
    | true => exact ⟨[], .inl rfl, rfl⟩
    | false => exact ⟨[[dot]], .inr ⟨rfl, rfl⟩, rfl⟩
  · refine ⟨List.replicate k [dot, dot], .inl rfl, ?_⟩
    rw [Trail.names_render _ he hs, ht, List.reverse_append, List.reverse_replicate]

theorem rootOf_ne_nil (hn : path ≠ []) : rootOf path ≠ [] := by
  rw [rootOf_eq hn]
  by_cases he : trail path = []
  · rw [he, Trail.render_nil]
    cases isAbsolute path <;> exact List.cons_ne_nil _ _
  · exact Trail.render_ne_nil _ he (isSettled_trail path).isName

theorem startOf_joinAll (hn : path ≠ []) (hi : ∀ name ∈ inner, IsName name) :
    tree.startOf (joinAll (rootOf path) inner) = tree.startOf path := by
  unfold startOf
  rw [isAbsolute_joinAll _ hi, (trail_rootOf hn).2]

/-- What lies below the directory is found below every spelling of it. -/
theorem Denotes.shows (hp : tree.root.IsPlain) (h : tree.Denotes path chain entries) :
    tree.Shows (rootOf path) (.directory entries) := by
  intro inner below hb
  obtain ⟨k, steps, ht, hs, hk, hc⟩ := h.exists_steps hp
  obtain ⟨front, hfront, hnames⟩ := names_rootOf (h.ne_nil hp) ht
  have hbelow : tree.nodeAt? (inner.reverse ++ chain) = some below := by
    rw [nodeAt?_append, h.nodeAt? hp]
    exact hb
  have hi : ∀ name ∈ inner, IsName name := fun name hm =>
    ((plain_of_nodeAt? hp hbelow).2 name (List.mem_append_left _ (List.mem_reverse.2 hm))).toIsName
  have hstart : tree.startOf (joinAll (rootOf path) inner) = tree.startOf path :=
    startOf_joinAll (h.ne_nil hp) hi
  have hlast : (joinAll (rootOf path) inner).getLast? = some slash → below.isDirectory = true := by
    intro hl
    rcases List.eq_nil_or_concat' inner with rfl | ⟨front, name, rfl⟩
    · cases hb
      rfl
    · have hname := hi name (by simp)
      refine absurd hl (getLast?_of_fileName ?_)
      rw [fileName_joinAll _ _ hname]
      exact hname.ne_nil
  have hparts : names (joinAll (rootOf path) inner) = front ++ (steps.reverse ++ inner) := by
    rw [names_joinAll _ hi, hnames, List.append_assoc]
  have hplace : tree.nodeAt? ((steps.reverse ++ inner).reverse ++
      (tree.startOf (joinAll (rootOf path) inner)).drop k) = some below := by
    rw [hstart, List.reverse_append, List.reverse_reverse, List.append_assoc, ← hc]
    exact hbelow
  have hlocate := locate_of_nodeAt? hp (joinAll_ne_nil (rootOf_ne_nil (h.ne_nil hp)) hi)
    (h.length_le inner below hb) hfront hparts (hstart ▸ h.hasDirectory) hplace hlast
  unfold FileTree.node
  rw [hlocate]

/-- Nothing else is found below a spelling of the directory. -/
theorem Denotes.at?_of_node (hp : tree.root.IsPlain) (h : tree.Denotes path chain entries)
    (hi : ∀ name ∈ inner, IsFileName name) {below : Node}
    (hb : tree.node (joinAll (rootOf path) inner) = .ok below) :
    (Node.directory entries).at? inner = some below := by
  obtain ⟨k, steps, ht, hs, hk, hc⟩ := h.exists_steps hp
  obtain ⟨front, hfront, hnames⟩ := names_rootOf (h.ne_nil hp) ht
  have hchain := (plain_of_nodeAt? hp (h.nodeAt? hp)).2
  have hn : ∀ name ∈ inner, IsName name := fun name hm => (hi name hm).toIsName
  have hparts : names (joinAll (rootOf path) inner) = front ++ (steps.reverse ++ inner) := by
    rw [names_joinAll _ hn, hnames, List.append_assoc]
  have hz : 0 ∉ joinAll (rootOf path) inner := by
    refine notMem_of_names (by decide) fun name hm => ?_
    rw [hparts, List.mem_append, List.mem_append, List.mem_reverse] at hm
    rcases hm with hm | hm | hm
    · rcases hfront with rfl | ⟨rfl, -⟩
      · rw [List.eq_of_mem_replicate hm]
        decide
      · rw [List.mem_singleton.1 hm]
        decide
    · exact (hchain name (hc ▸ List.mem_append_left _ hm)).zero_notMem
    · exact (hi name hm).zero_notMem
  -- The names in front go up from the start, and all others go down.
  have hups : resolve (tree.startOf path) front = (tree.startOf path).drop k := by
    rcases hfront with rfl | ⟨rfl, rfl⟩
    · exact resolve_ups _ k
    · rfl
  unfold FileTree.node at hb
  split at hb
  · cases hb
  · rename_i found other hl
    cases hb
    obtain ⟨-, hfound, hnode⟩ := resolve_of_locate hp hz hl
    rw [startOf_joinAll (h.ne_nil hp) hn, hparts, resolve_append, hups, resolve_append,
      resolve_steps _ fun name hm => (hi name hm).toIsStep, resolve_steps _ (by simpa using hs),
      List.reverse_reverse, ← hc] at hfound
    rw [hfound, nodeAt?_append, h.nodeAt? hp] at hnode
    exact hnode
  · cases hb

theorem Denotes.isFile_marker (hp : tree.root.IsPlain) (h : tree.Denotes path chain entries) :
    tree.isFile (join (rootOf path) packageMarker) = (Node.directory entries).hasMarker := by
  have hmarker : ∀ name ∈ [packageMarker], IsFileName name :=
    List.forall_mem_singleton.2
      ⟨⟨⟨by decide, by decide⟩, by decide, by decide⟩, by decide, by decide⟩
  have hat : (Node.directory entries).at? [packageMarker] =
      (Node.directory entries).child? packageMarker := by
    rw [Node.at?]
    cases (Node.directory entries).child? packageMarker <;> rfl
  rw [Bool.eq_iff_iff]
  unfold isFile Node.hasMarker
  constructor
  · split
    · rename_i content hf
      rw [← hat, h.at?_of_node hp hmarker hf]
      exact id
    · intro hn
      cases hn
  · split
    · rename_i content hf
      have hshown : tree.node (join (rootOf path) packageMarker) = .ok (.file content) :=
        h.shows hp [packageMarker] (.file content) (hat.trans hf)
      rw [hshown]
      exact id
    · intro hn
      cases hn

/-- The own name of a path is that of the directory, unless its normal form ends with
`.` or `..`. -/
theorem Denotes.ownName_eq_iff (hp : tree.root.IsPlain) (h : tree.Denotes path chain entries) :
    Signature.ownName path = chain.headD [] ↔
      Signature.ownName path ≠ [dot] ∧ Signature.ownName path ≠ [dot, dot] := by
  obtain ⟨k, steps, ht, hs, hk, hc⟩ := h.exists_steps hp
  have hchain := (plain_of_nodeAt? hp (h.nodeAt? hp)).2
  have hhead : chain.headD [] ≠ [dot] ∧ chain.headD [] ≠ [dot, dot] := by
    cases chain with
    | nil => exact ⟨by decide, by decide⟩
    | cons name outer =>
      have hname := hchain name List.mem_cons_self
      exact ⟨hname.ne_dot, hname.ne_dots⟩
  refine ⟨fun he => by rwa [he], fun ⟨hdot, hdots⟩ => ?_⟩
  rw [ownName_eq, rootOf_eq (h.ne_nil hp), ht] at hdot hdots ⊢
  cases steps with
  | cons name steps =>
    have hn := (isSettled_trail path).isName
    rw [ht] at hn
    rw [hc]
    exact Trail.fileName_render _ hn
  | nil =>
    cases k with
    | succ k =>
      have hn := (isSettled_trail path).isName
      rw [ht, List.nil_append, List.replicate_succ] at hn
      exact absurd (Trail.fileName_render _ hn) hdots
    | zero =>
      cases ha : isAbsolute path with
      | true =>
        have hstart : tree.startOf path = [] := if_pos ha
        rw [hc, hstart]
        rfl
      | false =>
        rw [ha] at hdot
        exact absurd rfl hdot

end FileTree

namespace SourceIndex

open FilePath FileTree

def moduleNames (inner : List Bytes) : List Bytes :=
  (parts (dropExtension (joinAll [] inner))).filter (!isSilentPart ·)

def moduleBelow (package : Bytes) (inner : List Bytes) : Bytes :=
  joinWith [dot] ((if package.isEmpty then [] else [package]) ++ moduleNames inner)

theorem moduleBelow_inj {package other : Bytes} {inner : List Bytes}
    (h : moduleBelow package inner = moduleBelow other inner) : package = other := by
  unfold moduleBelow at h
  by_cases hm : moduleNames inner = []
  · have hself (package : Bytes) :
        joinWith [dot] ((if package.isEmpty then [] else [package]) ++ []) = package := by
      cases package <;> rfl
    rwa [hm, hself, hself] at h
  · have hfront (package : Bytes) :
        joinWith [dot] ((if package.isEmpty then [] else [package]) ++ moduleNames inner) =
          (if package.isEmpty then [] else package ++ [dot]) ++
            joinWith [dot] (moduleNames inner) := by
      split
      · rfl
      · rw [List.singleton_append, joinWith_cons _ hm, List.append_assoc]
    rw [hfront, hfront] at h
    have hp := List.append_cancel_right h
    split at hp <;> split at hp
    · rename_i hn ho
      rw [List.isEmpty_iff.1 hn, List.isEmpty_iff.1 ho]
    · exact absurd hp (List.concat_ne_nil _ _).symm
    · exact absurd hp (List.concat_ne_nil _ _)
    · exact List.append_cancel_right hp

/-- The index has the scripts of the node in the order of a walk, without an issue, and the module
path of each is that of the names that lead to it. -/
structure Lists (index : SourceIndex) (node : Node) (package : Bytes) : Prop where
  issues : index.issues = []
  isPackage : index.isPackage = node.hasMarker
  files : index.files = (node.scripts []).map (joinAll index.root)
  modulePath : ∀ inner ∈ node.scripts [], index.modulePath (joinAll index.root inner) =
    moduleBelow (if node.hasMarker then package else []) inner

variable {tree : FileTree} {path other : FilePath} {chain : List Bytes}
  {entries : List (Bytes × Node)}

theorem modulePath_joinAll {index : SourceIndex} (hn : path ≠ []) (hr : index.root = rootOf path)
    {inner : List Bytes} (hne : inner ≠ []) (hi : ∀ name ∈ inner, IsStep name) :
    index.modulePath (joinAll index.root inner) =
      moduleBelow (if index.isPackage then Signature.ownName path else []) inner := by
  have hparts : parts (joinAll [] inner) = inner :=
    parts_joinAll [] hne fun name hm => (hi name hm).toIsName
  have hinside : ¬((joinAll [] inner).isEmpty = true ∨
      (parts (joinAll [] inner)).head? = some [dot, dot]) := by
    rw [hparts]
    rintro (he | he)
    · rw [List.isEmpty_iff.1 he] at hparts
      exact hne hparts.symm
    · exact (hi _ (List.mem_of_mem_head? he)).ne_dots rfl
  unfold SourceIndex.modulePath moduleBelow moduleNames
  dsimp only
  rw [hr, relativeTo_joinAll hn hne hi, if_neg hinside, ownName_eq]

theorem lists_build (hp : tree.root.IsPlain) (h : tree.Denotes path chain entries) :
    (build tree path).Lists (.directory entries) (Signature.ownName path) := by
  have hplain := (plain_of_nodeAt? hp (h.nodeAt? hp)).1
  have hshown := h.shows hp
  have hscripts := scriptsAt_of_shows hplain hshown
  have hbuild : build tree path = ⟨rootOf path, (Node.directory entries).hasMarker,
      ((Node.directory entries).scripts []).map (joinAll (rootOf path)), []⟩ := by
    rw [build_eq hshown.node, h.isFile_marker hp, closedAt_of_shows hplain hshown, hscripts,
      Node.scripts_directory, Node.scripts_directory, List.map_nil]
  rw [hbuild]
  refine ⟨rfl, rfl, rfl, fun inner hm => modulePath_joinAll (h.ne_nil hp) rfl
    (Node.ne_nil_of_mem_scripts hm) fun name hname => ?_⟩
  obtain ⟨content, hat⟩ := Node.at?_of_mem_scripts hplain hm
  have hbelow : tree.nodeAt? (inner.reverse ++ chain) = some (.file content) := by
    rw [nodeAt?_append, h.nodeAt? hp]
    exact hat
  exact ((plain_of_nodeAt? hp hbelow).2 name
    (List.mem_append_left _ (List.mem_reverse.2 hname))).toIsStep

/-- Two spellings of one directory give the same scripts in the same order. Their module paths are
the same unless the directory is a package that the spellings call by different names, and the name
of a spelling is that of the directory unless its normal form ends with `.` or `..`. -/
theorem build_spellings (hp : tree.root.IsPlain) (h : tree.Denotes path chain entries)
    (ho : tree.Denotes other chain entries) :
    (build tree path).Lists (.directory entries) (Signature.ownName path) ∧
      (build tree other).Lists (.directory entries) (Signature.ownName other) ∧
      (∀ inner ∈ (Node.directory entries).scripts [],
        (build tree path).modulePath (joinAll (build tree path).root inner) =
            (build tree other).modulePath (joinAll (build tree other).root inner) ↔
          ((Node.directory entries).hasMarker → Signature.ownName path = Signature.ownName other)) ∧
      (Signature.ownName path = chain.headD [] ↔
        Signature.ownName path ≠ [dot] ∧ Signature.ownName path ≠ [dot, dot]) := by
  have hl := lists_build hp h
  have hlo := lists_build hp ho
  refine ⟨hl, hlo, fun inner hm => ?_, h.ownName_eq_iff hp⟩
  rw [hl.modulePath inner hm, hlo.modulePath inner hm]
  cases (Node.directory entries).hasMarker with
  | false => exact ⟨fun _ => nofun, fun _ => rfl⟩
  | true => exact ⟨fun he _ => moduleBelow_inj he, fun he => by rw [he rfl]⟩

def workPackage : List (Bytes × Node) :=
  [(ascii "__init__.py", .file []), (ascii "a.py", .file [])]

/-- A package, which is the current directory, and nothing else. -/
def workTree : FileTree :=
  ⟨.directory [(ascii "work", .directory workPackage)], ascii "/work", none⟩

theorem isFileName_work {name : Bytes}
    (h : name ∈ [ascii "work", ascii "__init__.py", ascii "a.py"]) : IsFileName name := by
  revert name
  rw [List.forall_mem_cons, List.forall_mem_cons, List.forall_mem_singleton]
  refine ⟨?_, ?_, ?_⟩ <;>
    exact ⟨⟨⟨by decide, by decide⟩, by decide, by decide⟩, by decide, by decide⟩

theorem isPlain_workTree : workTree.root.IsPlain := by
  refine .directory ?_ (by decide) (List.forall_mem_singleton.2 (.directory ?_ (by decide) ?_))
  · exact List.forall_mem_singleton.2 (isFileName_work (by decide))
  · exact List.forall_mem_cons.2 ⟨isFileName_work (by decide),
      List.forall_mem_singleton.2 (isFileName_work (by decide))⟩
  · exact List.forall_mem_cons.2 ⟨.file _, List.forall_mem_singleton.2 (.file _)⟩

theorem mem_of_at?_workPackage {inner : List Bytes} {below : Node}
    (h : (Node.directory workPackage).at? inner = some below) :
    inner ∈ [[], [ascii "__init__.py"], [ascii "a.py"]] := by
  cases inner with
  | nil => decide
  | cons name rest =>
    obtain ⟨entries, child, he, hl, hr⟩ := Node.at?_cons h
    cases he
    have hm := mem_of_lookup hl
    have hfile : ∃ content, child = .file content := by
      rcases List.mem_cons.1 hm with he | hm
      · exact ⟨[], (Prod.mk.inj he).2⟩
      · exact ⟨[], (Prod.mk.inj (List.mem_singleton.1 hm)).2⟩
    obtain ⟨content, rfl⟩ := hfile
    cases rest with
    | cons other rest => cases hr
    | nil =>
      rcases List.mem_cons.1 hm with he | hm
      · rw [(Prod.mk.inj he).1]
        decide
      · rw [(Prod.mk.inj (List.mem_singleton.1 hm)).1]
        decide

theorem denotes_work {path : FilePath} (hz : 0 ∉ path)
    (hl : workTree.locate true path = .ok (.found [ascii "work"] (.directory workPackage)))
    (h : ∀ inner ∈ [[], [ascii "__init__.py"], [ascii "a.py"]],
      (joinAll (rootOf path) inner).length ≤ maxPathLength) :
    workTree.Denotes path [ascii "work"] workPackage :=
  ⟨hz, hl, fun inner _ hb => h inner (mem_of_at?_workPackage hb)⟩

theorem build_spellings_climbing :
    let path := ascii "../work/"
    let other := ascii "/work/."
    workTree.Denotes path [ascii "work"] workPackage ∧
      workTree.Denotes other [ascii "work"] workPackage ∧
      ∀ inner ∈ (Node.directory workPackage).scripts [],
        (build workTree path).modulePath (joinAll (build workTree path).root inner) =
          (build workTree other).modulePath (joinAll (build workTree other).root inner) := by
  intro path other
  have hp : workTree.Denotes path [ascii "work"] workPackage :=
    denotes_work (by decide) rfl (by decide +kernel)
  have ho : workTree.Denotes other [ascii "work"] workPackage :=
    denotes_work (by decide) rfl (by decide +kernel)
  refine ⟨hp, ho, fun inner hm => ?_⟩
  exact ((build_spellings isPlain_workTree hp ho).2.2.1 inner hm).2 fun _ => by decide +kernel

/-- Called by `.`, the package gives no name to its modules. -/
theorem build_spellings_current :
    let path := ascii "."
    let other := ascii "/work"
    workTree.Denotes path [ascii "work"] workPackage ∧
      workTree.Denotes other [ascii "work"] workPackage ∧
      (build workTree path).files.map (build workTree path).modulePath =
        [ascii ".", ascii "..a"] ∧
      (build workTree other).files.map (build workTree other).modulePath =
        [ascii "work", ascii "work.a"] := by
  intro path other
  exact ⟨denotes_work (by decide) rfl (by decide +kernel),
    denotes_work (by decide) rfl (by decide +kernel), by decide +kernel, by decide +kernel⟩

end SourceIndex

end ManifestScan
