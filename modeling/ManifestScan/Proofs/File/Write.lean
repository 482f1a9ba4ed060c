import ManifestScan.Manifest.Document
import ManifestScan.Proofs.File.Walk
import ManifestScan.Proofs.Text.Split

namespace ManifestScan

theorem Node.lookup_setEntry (name other : Bytes) (child : Node) (entries : List (Bytes × Node)) :
    (setEntry name (some child) entries).lookup other =
      if other = name then some child else entries.lookup other := by
  unfold setEntry
  rw [List.lookup_append, Option.toList_some, List.map_singleton, List.lookup_cons]
  by_cases h : other = name
  · have hn : (entries.filter (·.1 != name)).lookup other = none := by
      rw [h, List.lookup_eq_none_iff]
      intro entry he
      rw [bne_comm]
      exact (List.mem_filter.1 he).2
    rw [if_pos h, hn, beq_iff_eq.2 h, Option.none_or]
  · rw [if_neg h, lookup_filter_ne h, beq_eq_false_iff_ne.2 h]
    exact Option.or_none

namespace Node

/-- Both are files with one content, links to one target, or directories. -/
inductive Alike : Node → Node → Prop
  | file (content : Bytes) : Alike (.file content) (.file content)
  | directory (entries others : List (Bytes × Node)) :
      Alike (.directory entries) (.directory others)
  | link (target : FilePath) : Alike (.link target) (.link target)

theorem Alike.refl (node : Node) : node.Alike node := by
  cases node with
  | file content => exact .file content
  | directory entries => exact .directory entries entries
  | link target => exact .link target

theorem Alike.isLink {node other : Node} (h : node.Alike other) : other.isLink = node.isLink := by
  cases h <;> rfl

variable {node child : Node} {names : List Bytes} {name : Bytes} {entries : List (Bytes × Node)}

theorem set_nil (entries : List (Bytes × Node)) (name : Bytes) (child : Option Node) :
    (Node.directory entries).set [] name child = .directory (setEntry name child entries) := by
  rw [set]

theorem set_cons {first : Bytes} {inner : Node} (hi : entries.lookup first = some inner)
    (names : List Bytes) (name : Bytes) (child : Option Node) :
    (Node.directory entries).set (first :: names) name child =
      .directory (setEntry first (some (inner.set names name child)) entries) := by
  have hc : (Node.directory entries).child? first = some inner := hi
  rw [set]
  exact hc

theorem at?_setEntry (name first : Bytes) (child : Node) (names : List Bytes) :
    (Node.directory (setEntry name (some child) entries)).at? (first :: names) =
      if first = name then child.at? names
      else (Node.directory entries).at? (first :: names) := by
  rw [at?, at?, child?, child?, Node.entries, Node.entries, lookup_setEntry]
  by_cases h : first = name
  · rw [if_pos h, if_pos h]
  · rw [if_neg h, if_neg h]

theorem at?_set_self (h : node.at? names = some (.directory entries)) (child : Node) :
    (node.set names name (some child)).at? (names ++ [name]) = some child := by
  induction names generalizing node with
  | nil =>
    cases h
    rw [set_nil, List.nil_append, at?_setEntry, if_pos rfl]
    rfl
  | cons first names ih =>
    obtain ⟨siblings, inner, rfl, hi, hd⟩ := at?_cons h
    rw [set_cons hi, List.cons_append, at?_setEntry, if_pos rfl]
    exact ih hd

/-- Setting an entry that is no directory leaves what stands elsewhere. -/
theorem at?_set_other (h : node.at? names = some (.directory entries))
    (hn : ∀ others, node.at? (names ++ [name]) ≠ some (.directory others)) {path : List Bytes}
    (hp : path ≠ names ++ [name]) {found : Node} (hf : node.at? path = some found) :
    ∃ found', (node.set names name (some child)).at? path = some found' ∧ found.Alike found' := by
  induction names generalizing node path with
  | nil =>
    cases h
    rw [set_nil]
    cases path with
    | nil =>
      cases hf
      exact ⟨_, rfl, .directory _ _⟩
    | cons first path =>
      refine ⟨found, ?_, .refl found⟩
      rw [at?_setEntry]
      refine (if_neg ?_).trans hf
      rintro rfl
      -- Nothing stands below what is no directory.
      have ha := at?_append (Node.directory entries) [first] path
      rw [List.singleton_append, hf] at ha
      obtain ⟨inner, hi, hf⟩ := Option.bind_eq_some_iff.1 ha.symm
      cases path with
      | nil => exact hp rfl
      | cons second path =>
        obtain ⟨others, -, rfl, -, -⟩ := at?_cons hf
        exact hn others hi
  | cons last names ih =>
    obtain ⟨siblings, inner, rfl, hi, hd⟩ := at?_cons h
    rw [set_cons hi]
    cases path with
    | nil =>
      cases hf
      exact ⟨_, rfl, .directory _ _⟩
    | cons first path =>
      rw [at?_setEntry]
      by_cases hfirst : first = last
      · subst hfirst
        have hinner (path : List Bytes) :
            (Node.directory siblings).at? (first :: path) = inner.at? path := by
          rw [at?, child?, Node.entries, hi]
        rw [hinner] at hf
        rw [if_pos rfl]
        refine ih hd (fun others ho => hn others ?_) (fun he => hp ?_) hf
        · rw [List.cons_append, hinner]
          exact ho
        · rw [he, List.cons_append]
      · rw [if_neg hfirst]
        exact ⟨found, hf, .refl found⟩

end Node

namespace FileTree

variable {tree : FileTree} {directory chain todo : List Bytes} {name : Bytes} {node found : Node}
  {entries : List (Bytes × Node)}

/-- The name is free in the directory or that of a file. -/
structure Writable (tree : FileTree) (directory : List Bytes) (name : Bytes) : Prop where
  hasDirectory : tree.HasDirectory directory
  isFile : ∀ node, tree.nodeAt? (name :: directory) = some node → ∃ content, node = .file content

theorem Writable.nodeAt?_put_self (h : tree.Writable directory name) (node : Node) :
    (tree.put directory name node).nodeAt? (name :: directory) = some node := by
  obtain ⟨entries, hd⟩ := h.hasDirectory
  rw [nodeAt?, List.reverse_cons]
  exact Node.at?_set_self hd node

theorem Writable.nodeAt?_put_other (h : tree.Writable directory name) (node : Node)
    (hc : chain ≠ name :: directory) (hf : tree.nodeAt? chain = some found) :
    ∃ found', (tree.put directory name node).nodeAt? chain = some found' ∧ found.Alike found' := by
  obtain ⟨entries, hd⟩ := h.hasDirectory
  refine Node.at?_set_other hd (fun others ho => ?_) (fun he => hc ?_) hf
  · rw [← List.reverse_cons] at ho
    obtain ⟨content, hc⟩ := h.isFile _ ho
    cases hc
  · simpa using congrArg List.reverse he

theorem Writable.hasDirectory_put (h : tree.Writable directory name) (node : Node)
    (hc : tree.HasDirectory chain) : (tree.put directory name node).HasDirectory chain := by
  obtain ⟨entries, he⟩ := hc
  have hne : chain ≠ name :: directory := by
    rintro rfl
    obtain ⟨content, hc⟩ := h.isFile _ he
    cases hc
  obtain ⟨found, hf, ha⟩ := h.nodeAt?_put_other node hne he
  cases ha
  exact ⟨_, hf⟩

def Stands (tree : FileTree) : Spot → Prop
  | .found chain node => tree.nodeAt? chain = some node
  | .free directory name => tree.HasDirectory directory ∧ tree.nodeAt? (name :: directory) = none

/-- The spots that a file with the given name can be written to. -/
inductive Takes (directory : List Bytes) (name : Bytes) : Spot → Prop
  | free : Takes directory name (.free directory name)
  | found (content : Bytes) : Takes directory name (.found (name :: directory) (.file content))

theorem Stands.writable {spot : Spot} (h : tree.Stands spot) (ht : Takes directory name spot) :
    tree.Writable directory name := by
  cases ht with
  | free => exact ⟨h.1, fun node hn => nomatch h.2.symm.trans hn⟩
  | found content =>
    have hf : tree.nodeAt? (name :: directory) = some (.file content) := h
    refine ⟨hasDirectory_of_nodeAt?_cons hf, fun node hn => ⟨content, ?_⟩⟩
    cases hf.symm.trans hn
    rfl

section Jump

variable {jump jump' : List Bytes → List Bytes → Except FileError Spot} {spot : Spot}

theorem Walks.stands (h : Walks tree jump chain todo spot)
    (hj : ∀ chain todo spot, jump chain todo = .ok spot → tree.Stands spot) : tree.Stands spot := by
  induction h with
  | here h => exact h
  | stay hd hw ih => exact ih
  | up hd hw ih => exact ih
  | free hd hn h => exact ⟨hd, h⟩
  | jump hn h ht hj' => exact hj _ _ _ hj'
  | down hn h hl hw ih => exact ih

/-- A walk to where a file is written leads to that file afterwards. -/
theorem Walks.put {content : Bytes} (h : Walks tree jump chain todo spot)
    (hw : tree.Writable directory name) (ht : Takes directory name spot)
    (hj : ∀ chain todo spot, jump chain todo = .ok spot → Takes directory name spot →
      jump' chain todo = .ok (.found (name :: directory) (.file content))) :
    Walks (tree.put directory name (.file content)) jump' chain todo
      (.found (name :: directory) (.file content)) := by
  have hself := hw.nodeAt?_put_self (.file content)
  induction h with
  | here h =>
    cases ht
    exact .here hself
  | stay hc _ ih => exact .stay (hw.hasDirectory_put _ hc) (ih ht)
  | up hc _ ih => exact .up (hw.hasDirectory_put _ hc) (ih ht)
  | free _ hn h =>
    cases ht
    exact .down hn hself rfl (.here hself)
  | jump hn h htarget hjump =>
    -- The links on the way stay as they are, for none of them is written to.
    obtain ⟨_, hf, ha⟩ := hw.nodeAt?_put_other (.file content)
      (fun he => by obtain ⟨_, hc⟩ := hw.isFile _ (he ▸ h); cases hc) h
    cases ha
    exact .jump hn hf htarget (hj _ _ _ hjump ht)
  | @down chain first _ _ _ hn h hl _ ih =>
    by_cases he : first :: chain = name :: directory
    · cases he
      exact .down hn hself rfl (ih ht)
    · obtain ⟨_, hf, ha⟩ := hw.nodeAt?_put_other (.file content) he h
      exact .down hn hf (ha.isLink.trans hl) (ih ht)

end Jump

end FileTree

end ManifestScan
