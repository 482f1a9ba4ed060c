import ManifestScan.File.Tree

namespace ManifestScan

/-- The scripts below a root, in the order of a walk through sorted directories. -/
structure SourceIndex where
  root : FilePath
  /-- The root is itself a package. -/
  isPackage : Bool
  files : List FilePath
  /-- The directories that could not be walked, each with the reason. -/
  issues : List (FilePath × Bytes)
deriving DecidableEq, Repr

namespace SourceIndex

def scriptExtension : Bytes := ascii ".py"

def packageMarker : Bytes := ascii "__init__.py"

/-- Hidden entries and the directories of caches and environments are left out. -/
def isExcluded (name : Bytes) : Bool :=
  name.isEmpty || name.head? == some dot ||
    [ascii "__pycache__", ascii "venv", ascii "node_modules"].contains name

/-- Whether a file is listed; a link counts as what it leads to. -/
def isScript (tree : FileTree) (path : FilePath) (node : Node) : Bool :=
  (!node.isLink || tree.isFile path) && FilePath.extension path == scriptExtension

def visited (entries : List (Bytes × Node)) : List (Bytes × Node) :=
  FileTree.sortByName (entries.filter (!isExcluded ·.1))

/-- An open directory and the entries in it that a walk has not come to yet. -/
structure Frame where
  directory : FilePath
  entries : List (Bytes × Node)

structure Walk where
  /-- The open directories, innermost first. -/
  stack : List Frame
  /-- Latest first. -/
  files : List FilePath
  /-- Latest first. -/
  issues : List (FilePath × Bytes)

namespace Walk

/-- Opens a directory, unless its path leads nowhere since it is too long. -/
def enter (walk : Walk) (tree : FileTree) (path : FilePath) (entries : List (Bytes × Node)) :
    Walk :=
  if tree.isDirectory path then { walk with stack := ⟨path, visited entries⟩ :: walk.stack }
  else { walk with issues := (path, ascii "failed to enumerate directory") :: walk.issues }

/-- Links to directories are not followed. -/
def visit (walk : Walk) (tree : FileTree) (path : FilePath) (node : Node) : Walk :=
  match node with
  | .directory entries => walk.enter tree path entries
  | _ => if isScript tree path node then { walk with files := path :: walk.files } else walk

/-- Takes the next entry of the innermost directory, or leaves the directory. -/
def step (walk : Walk) (tree : FileTree) (frame : Frame) (outer : List Frame) : Walk :=
  match frame.entries with
  | [] => { walk with stack := outer }
  | (name, node) :: others =>
    { walk with stack := ⟨frame.directory, others⟩ :: outer }.visit tree
      (FilePath.join frame.directory name) node

mutual

def stepsAt : Node → Nat
  | .directory entries => stepsIn entries + 2
  | _ => 1

def stepsIn : List (Bytes × Node) → Nat
  | [] => 0
  | (_, node) :: others => stepsAt node + stepsIn others

end

/-- How many steps are left at most: a directory is left in a step of its own. -/
def work (walk : Walk) : Nat :=
  walk.stack.foldr (fun frame rest => stepsIn frame.entries + 1 + rest) 0

theorem stepsIn_insertByName (entry : Bytes × Node) (entries : List (Bytes × Node)) :
    stepsIn (FileTree.insertByName entry entries) = stepsAt entry.2 + stepsIn entries := by
  induction entries with
  | nil => rfl
  | cons other rest ih =>
    rw [FileTree.insertByName]
    split
    · rfl
    · rw [stepsIn, ih, stepsIn]
      exact Nat.add_left_comm _ _ _

theorem stepsIn_visited_le (entries : List (Bytes × Node)) :
    stepsIn (visited entries) ≤ stepsIn entries := by
  induction entries with
  | nil => exact Nat.le_refl _
  | cons entry others ih =>
    unfold visited at ih ⊢
    rw [List.filter_cons, stepsIn]
    split
    · rw [FileTree.sortByName, List.foldr_cons, stepsIn_insertByName]
      exact Nat.add_le_add_left ih _
    · exact Nat.le_add_left_of_le ih

theorem work_visit_lt (walk : Walk) (tree : FileTree) (path : FilePath) (node : Node) :
    (walk.visit tree path node).work < walk.work + stepsAt node := by
  cases node with
  | directory entries =>
    have hv := stepsIn_visited_le entries
    unfold visit enter
    dsimp only
    split
    · simp only [work, List.foldr_cons, stepsAt]
      omega
    · exact Nat.lt_add_of_pos_right (Nat.succ_pos _)
  | _ =>
    unfold visit
    dsimp only
    split <;> exact Nat.lt_add_one _

theorem work_step_lt {walk : Walk} {frame : Frame} {outer : List Frame}
    (h : walk.stack = frame :: outer) (tree : FileTree) :
    (walk.step tree frame outer).work < walk.work := by
  obtain ⟨directory, entries⟩ := frame
  have hw : walk.work = stepsIn entries + 1 +
      outer.foldr (fun frame rest => stepsIn frame.entries + 1 + rest) 0 := by
    rw [work, h]
    rfl
  cases entries with
  | nil =>
    rw [hw]
    exact Nat.lt_add_of_pos_left (Nat.succ_pos _)
  | cons entry others =>
    have hv := work_visit_lt { walk with stack := ⟨directory, others⟩ :: outer } tree
      (FilePath.join directory entry.1) entry.2
    refine Nat.lt_of_lt_of_eq hv ?_
    rw [hw]
    simp only [work, List.foldr_cons, stepsIn]
    omega

def run (walk : Walk) (tree : FileTree) : Walk :=
  match _h : walk.stack with
  | [] => walk
  | frame :: outer => run (walk.step tree frame outer) tree
termination_by walk.work
decreasing_by exact work_step_lt _h tree

end Walk

/-- The root of the index for a path: its normal form without a slash at its end. -/
def rootOf (path : FilePath) : FilePath :=
  let root := FilePath.normal path
  if (FilePath.fileName root).isEmpty then FilePath.parent root else root

def build (tree : FileTree) (path : FilePath) : SourceIndex :=
  let root := rootOf path
  match tree.node root with
  | .ok (.directory entries) =>
    let walk := (Walk.enter ⟨[], [], []⟩ tree root entries).run tree
    ⟨root, tree.isFile (FilePath.join root packageMarker), walk.files.reverse, walk.issues.reverse⟩
  | .ok _ => ⟨root, false, [], [(root, ascii "search root is not a directory")]⟩
  | .error _ => ⟨root, false, [], [(root, ascii "search root does not exist")]⟩

def filesNamed (index : SourceIndex) (name : Bytes) : List FilePath :=
  index.files.filter (FilePath.fileName · == name)

def isSilentPart (part : Bytes) : Bool :=
  part.isEmpty || part == [dot] || part == ascii "__init__"

/-- The dotted module path of a file. A root that is a package gives its name in front, and a file
outside the root goes by its name alone. -/
def modulePath (index : SourceIndex) (file : FilePath) : Bytes :=
  let relative := FilePath.relativeTo (FilePath.normal file) index.root
  let relative :=
    if relative.isEmpty ∨ (FilePath.parts relative).head? = some [dot, dot] then
      FilePath.fileName file
    else relative
  let parts := (FilePath.parts (FilePath.dropExtension relative)).filter (!isSilentPart ·)
  let package := if index.isPackage then FilePath.fileName index.root else []
  joinWith [dot] ((if package.isEmpty then [] else [package]) ++ parts)

end SourceIndex

/-- The indexes built so far, by the normal form of the path they were built for. -/
structure IndexCache where
  entries : List (FilePath × SourceIndex)
deriving Repr

namespace IndexCache

def empty : IndexCache := ⟨[]⟩

/-- The index for a path, which is built when it is first asked for and kept from then on. -/
def lookUp (cache : IndexCache) (tree : FileTree) (path : FilePath) : SourceIndex × IndexCache :=
  let key := FilePath.normal path
  match cache.entries.lookup key with
  | some index => (index, cache)
  | none =>
    let index := SourceIndex.build tree key
    (index, ⟨(key, index) :: cache.entries⟩)

end IndexCache

end ManifestScan
