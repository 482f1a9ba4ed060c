import ManifestScan.File.Tree
import ManifestScan.Proofs.File.Path

namespace ManifestScan

namespace Node

theorem at?_append (node : Node) (names others : List Bytes) :
    node.at? (names ++ others) = (node.at? names).bind (·.at? others) := by
  induction names generalizing node with
  | nil => rfl
  | cons name names ih =>
    rw [List.cons_append, at?, at?]
    cases node.child? name with
    | none => rfl
    | some child => exact ih child

/-- Only a directory has something below it. -/
theorem at?_cons {node found : Node} {name : Bytes} {names : List Bytes}
    (h : node.at? (name :: names) = some found) : ∃ entries child, node = .directory entries ∧
      entries.lookup name = some child ∧ child.at? names = some found := by
  rw [at?] at h
  split at h
  · cases h
  · rename_i child hc
    cases node with
    | file content => cases hc
    | directory entries => exact ⟨entries, child, rfl, hc, h⟩
    | link target => cases hc

end Node

namespace FileTree

theorem nodeAt?_cons (tree : FileTree) (name : Bytes) (chain : List Bytes) :
    tree.nodeAt? (name :: chain) = (tree.nodeAt? chain).bind (·.child? name) := by
  rw [nodeAt?, List.reverse_cons, Node.at?_append]
  unfold nodeAt?
  congr 1
  funext node
  rw [Node.at?]
  cases node.child? name <;> rfl

theorem nodeAt?_append (tree : FileTree) (chain inner : List Bytes) :
    tree.nodeAt? (inner.reverse ++ chain) = (tree.nodeAt? chain).bind (·.at? inner) := by
  unfold nodeAt?
  rw [List.reverse_append, List.reverse_reverse, Node.at?_append]

def HasDirectory (tree : FileTree) (chain : List Bytes) : Prop :=
  ∃ entries, tree.nodeAt? chain = some (.directory entries)

structure IsEntryName (name : Bytes) : Prop where
  ne_dot : name ≠ [dot]
  ne_dots : name ≠ [dot, dot]
  length_le : name.length ≤ maxNameLength

theorem hasDirectory_of_nodeAt?_cons {tree : FileTree} {name : Bytes} {chain : List Bytes}
    {node : Node} (h : tree.nodeAt? (name :: chain) = some node) : tree.HasDirectory chain := by
  rw [nodeAt?_cons] at h
  obtain ⟨outer, ho, hc⟩ := Option.bind_eq_some_iff.1 h
  cases outer with
  | file content => cases hc
  | directory entries => exact ⟨entries, ho⟩
  | link target => cases hc

/-- The walks that follow every link and end well, step by step. -/
inductive Walks (tree : FileTree) (jump : List Bytes → List Bytes → Except FileError Spot) :
    List Bytes → List Bytes → Spot → Prop
  | here {chain node} (h : tree.nodeAt? chain = some node) : Walks tree jump chain []
      (.found chain node)
  | stay {chain rest spot} (hd : tree.HasDirectory chain) (hw : Walks tree jump chain rest spot) :
      Walks tree jump chain ([dot] :: rest) spot
  | up {chain rest spot} (hd : tree.HasDirectory chain)
      (hw : Walks tree jump chain.tail rest spot) :
      Walks tree jump chain ([dot, dot] :: rest) spot
  | free {chain name} (hd : tree.HasDirectory chain) (hn : IsEntryName name)
      (h : tree.nodeAt? (name :: chain) = none) : Walks tree jump chain [name] (.free chain name)
  | jump {chain name rest target spot} (hn : IsEntryName name)
      (h : tree.nodeAt? (name :: chain) = some (.link target)) (ht : target ≠ [])
      (hj : jump (if FilePath.isAbsolute target then [] else chain)
        (walk.targetNames target ++ rest) = .ok spot) : Walks tree jump chain (name :: rest) spot
  | down {chain name rest node spot} (hn : IsEntryName name)
      (h : tree.nodeAt? (name :: chain) = some node) (hl : node.isLink = false)
      (hw : Walks tree jump (name :: chain) rest spot) : Walks tree jump chain (name :: rest) spot

variable {tree : FileTree} {jump : List Bytes → List Bytes → Except FileError Spot}
  {chain todo : List Bytes} {spot : Spot}

theorem walks_of_walk (h : walk tree true jump chain todo = .ok spot) :
    Walks tree jump chain todo spot := by
  induction todo generalizing chain with
  | nil =>
    unfold walk at h
    split at h
    · cases h
    · rename_i node hn
      cases h
      exact .here hn
  | cons name rest ih =>
    unfold walk at h
    split at h
    · cases h
    rename_i node hnode
    -- What the walk refuses goes branch by branch, and each rule is left with what it asks for.
    have hchild : tree.nodeAt? (name :: chain) = node.child? name := by
      rw [nodeAt?_cons, hnode]
      rfl
    split at h
    · cases h
    rename_i hdirectory
    have hd : tree.HasDirectory chain := by
      cases node with
      | directory entries => exact ⟨entries, hnode⟩
      | file content => exact absurd rfl hdirectory
      | link target => exact absurd rfl hdirectory
    split at h
    · rename_i hdot
      rw [hdot]
      exact .stay hd (ih h)
    rename_i hdot
    split at h
    · rename_i hdots
      rw [hdots]
      exact .up hd (ih h)
    rename_i hdots
    split at h
    · cases h
    rename_i hlength
    have hn : IsEntryName name := ⟨hdot, hdots, Nat.le_of_not_lt hlength⟩
    split at h
    · rename_i hc
      split at h
      · rename_i hrest
        cases h
        rw [List.isEmpty_iff.1 hrest]
        exact .free hd hn (hchild.trans hc)
      · cases h
    · rename_i target hc
      rw [if_neg (by simp)] at h
      split at h
      · cases h
      · rename_i htarget
        exact .jump hn (hchild.trans hc) (fun ht => htarget (List.isEmpty_iff.2 ht)) h
    · rename_i child hl hc
      refine .down hn (hchild.trans hc) ?_ (ih h)
      cases child with
      | link target => exact absurd rfl (hl target)
      | file content => rfl
      | directory entries => rfl

theorem walk_name {name : Bytes} (rest : List Bytes) (hd : tree.HasDirectory chain)
    (hn : IsEntryName name) : walk tree true jump chain (name :: rest) =
      match tree.nodeAt? (name :: chain) with
      | none => if rest.isEmpty then .ok (.free chain name) else .error .missing
      | some (.link target) =>
        if target.isEmpty then .error .missing
        else jump (if FilePath.isAbsolute target then [] else chain)
          (walk.targetNames target ++ rest)
      | some _ => walk tree true jump (name :: chain) rest := by
  obtain ⟨entries, hd⟩ := hd
  have hc : tree.nodeAt? (name :: chain) = (Node.directory entries).child? name := by
    rw [nodeAt?_cons, hd]
    rfl
  rw [walk, hd, hc]
  dsimp only
  rw [if_neg (show ¬(!(Node.directory entries).isDirectory) = true from Bool.false_ne_true),
    if_neg hn.ne_dot, if_neg hn.ne_dots, if_neg (Nat.not_lt.2 hn.length_le)]
  cases (Node.directory entries).child? name with
  | none => rfl
  | some child =>
    cases child with
    | link target => exact if_neg (by simp)
    | file content => rfl
    | directory others => rfl

theorem walk_of_walks (h : Walks tree jump chain todo spot) :
    walk tree true jump chain todo = .ok spot := by
  induction h with
  | here h => rw [walk, h]
  | stay hd hw ih =>
    obtain ⟨entries, hd⟩ := hd
    rw [walk, hd]
    exact ih
  | up hd hw ih =>
    obtain ⟨entries, hd⟩ := hd
    rw [walk, hd]
    exact ih
  | free hd hn h =>
    rw [walk_name _ hd hn, h]
    rfl
  | jump hn h ht hj =>
    rw [walk_name _ (hasDirectory_of_nodeAt?_cons h) hn, h]
    dsimp only
    rw [if_neg (by simpa using ht), hj]
  | @down chain name rest node spot hn h hl hw ih =>
    rw [walk_name _ (hasDirectory_of_nodeAt?_cons h) hn, h]
    cases node with
    | link target => cases hl
    | file content => exact ih
    | directory entries => exact ih

theorem exists_nodeAt? {inner : List Bytes} {node : Node}
    (h : tree.nodeAt? (inner ++ chain) = some node) (hl : node.isLink = false) :
    ∃ outer, tree.nodeAt? chain = some outer ∧ outer.isLink = false := by
  induction inner generalizing node with
  | nil => exact ⟨node, h, hl⟩
  | cons name inner ih =>
    obtain ⟨entries, hd⟩ := hasDirectory_of_nodeAt?_cons h
    exact ih hd rfl

/-- What is there is reached through its names. -/
theorem Walks.steps {inner : List Bytes} {node : Node} (hi : ∀ name ∈ inner, IsEntryName name)
    (h : tree.nodeAt? (inner.reverse ++ chain) = some node) (hl : node.isLink = false)
    (hw : Walks tree jump (inner.reverse ++ chain) todo spot) :
    Walks tree jump chain (inner ++ todo) spot := by
  induction inner generalizing chain with
  | nil => exact hw
  | cons name inner ih =>
    obtain ⟨hn, hi⟩ := List.forall_mem_cons.1 hi
    rw [List.reverse_cons, List.append_assoc, List.singleton_append] at h hw
    obtain ⟨outer, ho, hlink⟩ := exists_nodeAt? h hl
    exact .down hn ho hlink (ih hi h hw)

/-- From a directory, `.` leads nowhere else. -/
theorem walk_dot {last : Bool} (h : walk tree last jump chain ([dot] :: todo) = .ok spot) :
    walk tree last jump chain todo = .ok spot := by
  rw [walk] at h
  split at h
  · cases h
  · split at h
    · cases h
    · exact h

/-- A relative path may start with `./`. -/
theorem locate_dot {last : Bool} {path : FilePath} (hp : path ≠ [])
    (ha : FilePath.isAbsolute path = false) (hz : 0 ∉ path)
    (h : tree.locate last (dot :: slash :: path) = .ok spot) :
    tree.locate last path = .ok spot := by
  have hb (text : Bytes) (ht : 0 ∉ text) : beforeZero text = text :=
    List.takeWhile_eq_self_iff.2 fun b hm => by simpa using fun he : b = 0 => ht (he ▸ hm)
  have hn : walk.targetNames (dot :: slash :: path) = [dot] :: walk.targetNames path := by
    obtain ⟨b, rest, rfl⟩ := List.exists_cons_of_ne_nil hp
    have he : FilePath.names (dot :: slash :: b :: rest) = [dot] :: FilePath.names (b :: rest) :=
      FilePath.names_append [dot] (b :: rest)
    unfold walk.targetNames
    rw [he, List.getLast?_cons_cons, List.getLast?_cons_cons]
    rfl
  have hz' : 0 ∉ dot :: slash :: path := by
    rw [List.mem_cons, List.mem_cons, not_or, not_or]
    exact ⟨by decide, by decide, hz⟩
  unfold locate at h ⊢
  rw [hb _ hz'] at h
  rw [hb _ hz]
  dsimp only at h ⊢
  rw [hn, if_neg (by simp)] at h
  rw [if_neg (by simpa using hp)]
  split at h
  · cases h
  · rename_i hl
    rw [List.length_cons, List.length_cons] at hl
    rw [if_neg (by omega), ha]
    exact walk_dot h

theorem node_dot {path : FilePath} {node : Node} (hp : path ≠ [])
    (ha : FilePath.isAbsolute path = false) (hz : 0 ∉ path)
    (h : tree.node (dot :: slash :: path) = .ok node) : tree.node path = .ok node := by
  unfold FileTree.node at h ⊢
  split at h
  · cases h
  · rename_i hl
    rw [locate_dot hp ha hz hl]
    exact h
  · cases h

end FileTree

end ManifestScan
