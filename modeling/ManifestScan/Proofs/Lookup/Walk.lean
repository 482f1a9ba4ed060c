import ManifestScan.Proofs.File.Sort
import ManifestScan.SourceIndex

namespace ManifestScan.SourceIndex

variable {tree : FileTree} {opens : FilePath → Bool} {takes : FilePath → Node → Bool}
  {path : FilePath} {node : Node}

def opened (opens : FilePath → Bool) (path : FilePath) (node : Node) : List (Bytes × Node) :=
  if opens path then visited node.entries else []

theorem mem_visited {entry : Bytes × Node} {entries : List (Bytes × Node)} :
    entry ∈ visited entries ↔ entry ∈ entries ∧ isExcluded entry.1 = false := by
  unfold visited
  rw [FileTree.mem_sortByName, List.mem_filter, Bool.not_eq_true']

theorem mem_opened {entry : Bytes × Node} :
    entry ∈ opened opens path node ↔
      opens path = true ∧ entry ∈ node.entries ∧ isExcluded entry.1 = false := by
  unfold opened
  split
  · rename_i h
    rw [mem_visited]
    exact (and_iff_right h).symm
  · rename_i h
    exact ⟨nofun, fun hm => absurd hm.1 h⟩

theorem sizeOf_lt_of_mem_entries {entry : Bytes × Node} (h : entry ∈ node.entries) :
    sizeOf entry.2 < sizeOf node := by
  cases node with
  | directory entries =>
    have hentries : entry ∈ entries := h
    have hm := List.sizeOf_lt_of_mem hentries
    obtain ⟨name, node⟩ := entry
    simp only [Prod.mk.sizeOf_spec, Node.directory.sizeOf_spec] at hm ⊢
    omega
  | file content => cases h
  | link target => cases h

/-- The recursive walk: the path of a node, where `takes` picks it, and then what the walk picks at
each entry of the node, in the byte order of the names. A directory is walked where `opens` lets it
be, a link never is. -/
def walkAt (opens : FilePath → Bool) (takes : FilePath → Node → Bool) (path : FilePath)
    (node : Node) : List FilePath :=
  (if takes path node then [path] else []) ++
    (opened opens path node).attach.flatMap fun entry =>
      walkAt opens takes (FilePath.join path entry.1.1) entry.1.2
termination_by sizeOf node
decreasing_by exact sizeOf_lt_of_mem_entries (mem_opened.1 entry.2).2.1

theorem walkAt_eq (opens : FilePath → Bool) (takes : FilePath → Node → Bool) (path : FilePath)
    (node : Node) : walkAt opens takes path node = (if takes path node then [path] else []) ++
      (opened opens path node).flatMap fun entry =>
        walkAt opens takes (FilePath.join path entry.1) entry.2 := by
  rw [walkAt]
  have hattach := @List.flatMap_map _ _ _ Subtype.val
    (fun entry : Bytes × Node => walkAt opens takes (FilePath.join path entry.1) entry.2)
    (opened opens path node).attach
  rw [List.attach_map_subtype_val] at hattach
  exact congrArg _ hattach.symm

/-- Nothing is below a file or a link. -/
theorem opened_leaf (opens : FilePath → Bool) (path : FilePath) (h : node.isDirectory = false) :
    opened opens path node = [] := by
  unfold opened
  cases node with
  | directory entries => cases h
  | file content => exact ite_self _
  | link target => exact ite_self _

theorem walkAt_leaf (opens : FilePath → Bool) (takes : FilePath → Node → Bool)
    (path : FilePath) (h : node.isDirectory = false) :
    walkAt opens takes path node = if takes path node then [path] else [] := by
  rw [walkAt_eq, opened_leaf _ _ h]
  exact List.append_nil _

theorem walkAt_closed (takes : FilePath → Node → Bool) (node : Node) (h : opens path = false) :
    walkAt opens takes path node = if takes path node then [path] else [] := by
  rw [walkAt_eq, opened, h]
  exact List.append_nil _

def isListed (tree : FileTree) (path : FilePath) (node : Node) : Bool :=
  !node.isDirectory && isScript tree path node

def isClosed (opens : FilePath → Bool) (path : FilePath) (node : Node) : Bool :=
  node.isDirectory && !opens path

namespace Walk

def ahead (tree : FileTree) (takes : FilePath → Node → Bool) (walk : Walk) : List FilePath :=
  walk.stack.flatMap fun frame => frame.entries.flatMap fun entry =>
    walkAt tree.isDirectory takes (FilePath.join frame.directory entry.1) entry.2

def listed (walk : Walk) (tree : FileTree) : List FilePath :=
  walk.files.reverse ++ walk.ahead tree (isListed tree)

def reported (walk : Walk) (tree : FileTree) : List (FilePath × Bytes) :=
  walk.issues.reverse ++
    (walk.ahead tree (isClosed tree.isDirectory)).map (·, ascii "failed to enumerate directory")

variable {walk : Walk}

theorem ahead_cons (walk : Walk) (directory : FilePath) (name : Bytes) (node : Node)
    (others : List (Bytes × Node)) (outer : List Frame) :
    { walk with stack := ⟨directory, (name, node) :: others⟩ :: outer }.ahead tree takes =
      walkAt tree.isDirectory takes (FilePath.join directory name) node ++
        { walk with stack := ⟨directory, others⟩ :: outer }.ahead tree takes := by
  unfold ahead
  rw [List.flatMap_cons, List.flatMap_cons, List.append_assoc, List.flatMap_cons]

theorem visit_leaf (walk : Walk) (tree : FileTree) (path : FilePath)
    (h : node.isDirectory = false) : walk.visit tree path node =
      if isScript tree path node then { walk with files := path :: walk.files } else walk := by
  cases node with
  | directory entries => cases h
  | file content => rfl
  | link target => rfl

/-- An entry is visited as the recursive walk goes through it. -/
theorem listed_visit (walk : Walk) (tree : FileTree) (path : FilePath) (node : Node) :
    (walk.visit tree path node).listed tree =
      walk.files.reverse ++ (walkAt tree.isDirectory (isListed tree) path node ++
        walk.ahead tree (isListed tree)) := by
  by_cases hd : node.isDirectory = true
  · cases node with
    | directory entries =>
      rw [walkAt_eq]
      unfold visit enter opened
      dsimp only
      split <;> rfl
    | file content => cases hd
    | link target => cases hd
  · rw [Bool.not_eq_true] at hd
    have hl : isListed tree path node = isScript tree path node := by
      unfold isListed
      rw [hd, Bool.not_false, Bool.true_and]
    rw [walkAt_leaf _ _ _ hd, visit_leaf _ _ _ hd, hl]
    split
    · unfold listed
      rw [List.reverse_cons, List.append_assoc]
      rfl
    · rfl

theorem reported_visit (walk : Walk) (tree : FileTree) (path : FilePath) (node : Node) :
    (walk.visit tree path node).reported tree =
      walk.issues.reverse ++
        (walkAt tree.isDirectory (isClosed tree.isDirectory) path node ++
          walk.ahead tree (isClosed tree.isDirectory)).map
            (·, ascii "failed to enumerate directory") := by
  by_cases hd : node.isDirectory = true
  · cases node with
    | directory entries =>
      rw [walkAt_eq]
      unfold visit enter opened isClosed
      dsimp only
      by_cases ho : tree.isDirectory path = true
      · rw [if_pos ho, if_pos ho, ho]
        rfl
      · have hclosed : tree.isDirectory path = false := Bool.not_eq_true _ ▸ ho
        rw [if_neg ho, if_neg ho, hclosed]
        unfold reported
        rw [List.reverse_cons, List.append_assoc]
        rfl
    | file content => cases hd
    | link target => cases hd
  · rw [Bool.not_eq_true] at hd
    have hc : isClosed tree.isDirectory path node = false := by
      unfold isClosed
      rw [hd, Bool.false_and]
    rw [walkAt_leaf _ _ _ hd, visit_leaf _ _ _ hd, hc]
    split <;> rfl

/-- A step changes nothing of what the walk ends with. -/
theorem step_listed {frame : Frame} {outer : List Frame} (h : walk.stack = frame :: outer)
    (tree : FileTree) :
    (walk.step tree frame outer).listed tree = walk.listed tree ∧
      (walk.step tree frame outer).reported tree = walk.reported tree := by
  obtain ⟨stack, files, issues⟩ := walk
  obtain rfl : stack = frame :: outer := h
  obtain ⟨directory, entries⟩ := frame
  cases entries with
  | nil => exact ⟨rfl, rfl⟩
  | cons entry others =>
    obtain ⟨name, node⟩ := entry
    unfold step
    dsimp only
    rw [listed_visit, reported_visit]
    unfold listed reported
    rw [ahead_cons ⟨[], files, issues⟩, ahead_cons ⟨[], files, issues⟩]
    exact ⟨rfl, rfl⟩

/-- The walk with its stack ends with what the recursive walk takes. -/
theorem run_listed (walk : Walk) (tree : FileTree) :
    (walk.run tree).files.reverse = walk.listed tree ∧
      (walk.run tree).issues.reverse = walk.reported tree := by
  fun_induction run walk tree with
  | case1 walk h =>
    unfold listed reported ahead
    rw [h]
    exact ⟨(List.append_nil _).symm, (List.append_nil _).symm⟩
  | case2 walk frame outer h ih =>
    obtain ⟨hl, hr⟩ := step_listed h tree
    exact ⟨ih.1.trans hl, ih.2.trans hr⟩

end Walk

def scriptsAt (tree : FileTree) : FilePath → Node → List FilePath :=
  walkAt tree.isDirectory (isListed tree)

def closedAt (tree : FileTree) : FilePath → Node → List FilePath :=
  walkAt tree.isDirectory (isClosed tree.isDirectory)

theorem scriptsAt_leaf (tree : FileTree) (path : FilePath) (h : node.isDirectory = false) :
    scriptsAt tree path node = if isScript tree path node then [path] else [] := by
  unfold scriptsAt
  rw [walkAt_leaf _ _ _ h, isListed, h, Bool.not_false, Bool.true_and]

theorem scriptsAt_directory (tree : FileTree) (path : FilePath) (entries : List (Bytes × Node)) :
    scriptsAt tree path (.directory entries) =
      (opened tree.isDirectory path (.directory entries)).flatMap fun entry =>
        scriptsAt tree (FilePath.join path entry.1) entry.2 := by
  unfold scriptsAt
  rw [walkAt_eq]
  rfl

theorem closedAt_leaf (tree : FileTree) (path : FilePath) (h : node.isDirectory = false) :
    closedAt tree path node = [] := by
  unfold closedAt
  rw [walkAt_leaf _ _ _ h, isClosed, h, Bool.false_and]
  rfl

theorem closedAt_directory (h : tree.isDirectory path = true) (entries : List (Bytes × Node)) :
    closedAt tree path (.directory entries) = (visited entries).flatMap fun entry =>
      closedAt tree (FilePath.join path entry.1) entry.2 := by
  unfold closedAt
  rw [walkAt_eq, isClosed, opened, if_pos h, h]
  rfl

theorem build_eq {root : FilePath} {entries : List (Bytes × Node)}
    (h : tree.node (rootOf root) = .ok (.directory entries)) :
    build tree root = ⟨rootOf root, tree.isFile (FilePath.join (rootOf root) packageMarker),
      scriptsAt tree (rootOf root) (.directory entries),
      (closedAt tree (rootOf root) (.directory entries)).map
        (·, ascii "failed to enumerate directory")⟩ := by
  obtain ⟨hfiles, hissues⟩ := Walk.run_listed
    (Walk.enter ⟨[], [], []⟩ tree (rootOf root) entries) tree
  have hl := Walk.listed_visit ⟨[], [], []⟩ tree (rootOf root) (.directory entries)
  have hr := Walk.reported_visit ⟨[], [], []⟩ tree (rootOf root) (.directory entries)
  replace hfiles := (hfiles.trans hl).trans (List.append_nil _)
  replace hissues := (hissues.trans hr).trans (congrArg (List.map _) (List.append_nil _))
  unfold build
  dsimp only
  rw [h]
  dsimp only
  rw [hfiles, hissues]
  rfl

end ManifestScan.SourceIndex
