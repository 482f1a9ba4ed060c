import ManifestScan.Proofs.File.Spelling

namespace ManifestScan

namespace Node

/-- Each directory at the node or below it has entries with names that files may
have, one a name. -/
inductive IsNamed : Node → Prop
  | file (content : Bytes) : IsNamed (.file content)
  | link (target : FilePath) : IsNamed (.link target)
  | directory {entries : List (Bytes × Node)} (hn : ∀ entry ∈ entries, IsFileName entry.1)
    (hd : (entries.map (·.1)).Nodup) (h : ∀ entry ∈ entries, IsNamed entry.2) :
    IsNamed (.directory entries)

variable {node below : Node} {inner : List Bytes}

theorem IsNamed.isFileName (h : node.IsNamed) (hb : node.at? inner = some below) :
    ∀ name ∈ inner, IsFileName name := by
  induction h generalizing inner with
  | @directory entries hn hd h ih =>
    cases inner with
    | nil => exact List.forall_mem_nil _
    | cons name inner =>
      obtain ⟨_, child, he, hl, hc⟩ := at?_cons hb
      cases he
      have hm := mem_of_lookup hl
      exact List.forall_mem_cons.2 ⟨hn _ hm, ih _ hm hc⟩
  | _ =>
    cases inner with
    | nil => exact List.forall_mem_nil _
    | cons name inner => cases hb

theorem IsNamed.isName (h : node.IsNamed) (hb : node.at? inner = some below) :
    ∀ name ∈ inner, FilePath.IsName name := fun name hm => (h.isFileName hb name hm).toIsName

end Node

namespace FilePath

variable {path : FilePath} {inner : List Bytes}

theorem zero_notMem_joinAll (hp : 0 ∉ path) (hi : ∀ name ∈ inner, 0 ∉ name) :
    0 ∉ joinAll path inner := by
  induction inner generalizing path with
  | nil => exact hp
  | cons name inner ih =>
    obtain ⟨hn, hi⟩ := List.forall_mem_cons.1 hi
    refine ih ?_ hi
    unfold join
    split
    · exact hn
    · split
      · exact List.mem_append.not.2 (not_or.2 ⟨hp, hn⟩)
      · exact List.mem_append.not.2
          (not_or.2 ⟨hp, List.not_mem_cons_of_ne_of_not_mem (by decide) hn⟩)

end FilePath

namespace FileTree

variable {tree : FileTree} {jump : List Bytes → List Bytes → Except FileError Spot}
  {links : Nat} {chain todo found inner tail : List Bytes} {node below : Node} {path : FilePath}

theorem Walks.nodeAt?_found {spot : Spot}
    (hj : ∀ chain todo, jump chain todo = .ok (.found found node) → tree.nodeAt? found = some node)
    (h : Walks tree jump chain todo spot) (hs : spot = .found found node) :
    tree.nodeAt? found = some node := by
  induction h with
  | here h =>
    cases hs
    exact h
  | stay _ _ ih => exact ih hs
  | up _ _ ih => exact ih hs
  | free => cases hs
  | jump _ _ _ h => exact hj _ _ (hs ▸ h)
  | down _ _ _ _ ih => exact ih hs

theorem nodeAt?_of_follow (h : follow tree true links chain todo = .ok (.found found node)) :
    tree.nodeAt? found = some node := by
  induction links generalizing chain todo with
  | zero =>
    refine (walks_of_walk h).nodeAt?_found (fun chain todo hjump => ?_) rfl
    cases hjump
  | succ links ih => exact (walks_of_walk h).nodeAt?_found (fun _ _ => ih) rfl

/-- What stands at the end of a path may be replaced where it leads. -/
theorem Walks.replace {others : List Bytes} {spot : Spot}
    (hj : ∀ chain todo, jump chain (todo ++ tail) = .ok (.found found node) →
      jump chain (todo ++ others) = .ok spot)
    (ht : ∀ chain, Walks tree jump chain tail (.found found node) →
      Walks tree jump chain others spot)
    (h : Walks tree jump chain (todo ++ tail) (.found found node)) :
    Walks tree jump chain (todo ++ others) spot := by
  induction todo generalizing chain with
  | nil => exact ht chain h
  | cons name todo ih =>
    rw [List.cons_append] at h ⊢
    generalize hrest : todo ++ tail = rest at h
    cases h with
    | stay hd hw => exact .stay hd (ih (hrest ▸ hw))
    | up hd hw => exact .up hd (ih (hrest ▸ hw))
    | jump hn h hne hjump =>
      rw [← hrest, ← List.append_assoc] at hjump
      have hothers := hj _ _ hjump
      rw [List.append_assoc] at hothers
      exact .jump hn h hne hothers
    | down hn h hl hw => exact .down hn h hl (ih (hrest ▸ hw))

/-- A path that leads to a directory may be carried on through the names below it: no more links
are followed. -/
theorem follow_below (hi : ∀ name ∈ inner, IsEntryName name) (hb : node.at? inner = some below)
    (hl : below.isLink = false) (ht : tail = [] ∨ tail = [[dot]])
    (h : follow tree true links chain (todo ++ tail) = .ok (.found found node)) :
    follow tree true links chain (todo ++ inner) = .ok (.found (inner.reverse ++ found) below) := by
  have hbelow : tree.nodeAt? (inner.reverse ++ found) = some below := by
    rw [nodeAt?_append, nodeAt?_of_follow h]
    exact hb
  have hend : ∀ {jump} chain, Walks tree jump chain tail (.found found node) →
      Walks tree jump chain inner (.found (inner.reverse ++ found) below) := by
    intro jump chain hw
    obtain rfl : chain = found := by
      rcases ht with rfl | rfl
      · cases hw
        rfl
      · cases hw with
        | stay _ hw =>
          cases hw
          rfl
        | jump hn => exact absurd rfl hn.ne_dot
        | down hn => exact absurd rfl hn.ne_dot
    have hsteps : Walks tree jump chain (inner ++ []) (.found (inner.reverse ++ chain) below) :=
      .steps hi hbelow hl (.here hbelow)
    rwa [List.append_nil] at hsteps
  induction links generalizing chain todo with
  | zero => exact walk_of_walks ((walks_of_walk h).replace (fun _ _ => nofun) hend)
  | succ links ih => exact walk_of_walks ((walks_of_walk h).replace (fun _ _ => ih) hend)

theorem follow_stay {spot : Spot} (hd : tree.HasDirectory chain)
    (h : follow tree true links chain todo = .ok spot) :
    follow tree true links chain ([dot] :: todo) = .ok spot := by
  cases links <;> exact walk_of_walks (.stay hd (walks_of_walk h))

/-- A link to the directory that it is in may be followed again and again. -/
theorem follow_replicate {name : Bytes} {spot : Spot} (hn : IsEntryName name)
    (hl : tree.nodeAt? (name :: chain) = some (.link [dot])) (n : Nat)
    (h : follow tree true links chain todo = .ok spot) :
    follow tree true (links + n) chain (List.replicate n name ++ todo) = .ok spot := by
  induction n with
  | zero => exact h
  | succ n ih =>
    have hstay := follow_stay (hasDirectory_of_nodeAt?_cons hl) ih
    exact walk_of_walks (.jump hn hl (List.cons_ne_nil _ _) hstay)

theorem exists_locate (h : tree.node path = .ok node) :
    ∃ found, tree.locate true path = .ok (.found found node) := by
  unfold FileTree.node at h
  split at h
  · cases h
  · rename_i found other hl
    cases h
    exact ⟨found, hl⟩
  · cases h

theorem node_of_long (hz : 0 ∉ path) (hl : maxPathLength < path.length) :
    tree.node path = .error .nameTooLong := by
  have hn : path ≠ [] := by
    rintro rfl
    cases hl
  unfold FileTree.node
  rw [locate_eq true hn hz, if_pos hl]

theorem targetNames_joinAll (path : FilePath) (hn : inner ≠ [])
    (hi : ∀ name ∈ inner, FilePath.IsName name) :
    walk.targetNames (FilePath.joinAll path inner) = FilePath.names path ++ inner := by
  have hlast : (FilePath.joinAll path inner).getLast? ≠ some slash := by
    obtain ⟨front, name, rfl⟩ := (List.eq_nil_or_concat' inner).resolve_left hn
    have hname := hi name (by simp)
    refine FilePath.getLast?_of_fileName ?_
    rw [FilePath.fileName_joinAll _ _ hname]
    exact hname.ne_nil
  unfold walk.targetNames
  rw [if_neg hlast, List.append_nil, FilePath.names_joinAll _ hi]

/-- What is below a directory through real directories is found by its path, unless that
is too long. -/
theorem node_joinAll (hz : 0 ∉ path) (hp : tree.node path = .ok node)
    (hi : ∀ name ∈ inner, IsFileName name) (hb : node.at? inner = some below)
    (hl : below.isLink = false) :
    tree.node (FilePath.joinAll path inner) =
      if (FilePath.joinAll path inner).length ≤ maxPathLength then .ok below
      else .error .nameTooLong := by
  obtain ⟨found, hfound⟩ := exists_locate hp
  have hne : path ≠ [] := by
    rintro rfl
    cases hp
  rw [locate_eq true hne hz] at hfound
  split at hfound
  · cases hfound
  rename_i hlen
  by_cases hinner : inner = []
  · subst hinner
    cases hb
    exact hp.trans (if_pos (Nat.not_lt.1 hlen)).symm
  have hnames : ∀ name ∈ inner, FilePath.IsName name := fun name hm => (hi name hm).toIsName
  have hstart : tree.startOf (FilePath.joinAll path inner) = tree.startOf path := by
    unfold startOf
    rw [FilePath.isAbsolute_joinAll _ hnames]
  have hzero : 0 ∉ FilePath.joinAll path inner :=
    FilePath.zero_notMem_joinAll hz fun name hm => (hi name hm).zero_notMem
  have hbelow := follow_below (fun name hm => (hi name hm).isEntryName) hb hl
    (ite_eq_or_eq _ _ _).symm hfound
  by_cases hlong : (FilePath.joinAll path inner).length ≤ maxPathLength
  · rw [if_pos hlong, FileTree.node, locate_eq true (FilePath.joinAll_ne_nil hne hnames) hzero,
      if_neg (Nat.not_lt.2 hlong), hstart, targetNames_joinAll path hinner hnames, hbelow]
  · rw [if_neg hlong]
    exact node_of_long hzero (Nat.lt_of_not_le hlong)

theorem isDirectory_joinAll {entries : List (Bytes × Node)} (hz : 0 ∉ path)
    (hp : tree.node path = .ok node) (hn : node.IsNamed)
    (hb : node.at? inner = some (.directory entries)) :
    tree.isDirectory (FilePath.joinAll path inner) =
      decide ((FilePath.joinAll path inner).length ≤ maxPathLength) := by
  unfold isDirectory
  rw [node_joinAll hz hp (hn.isFileName hb) hb rfl]
  by_cases hlen : (FilePath.joinAll path inner).length ≤ maxPathLength
  · rw [if_pos hlen, decide_eq_true hlen]
  · rw [if_neg hlen, decide_eq_false hlen]

end FileTree

end ManifestScan
