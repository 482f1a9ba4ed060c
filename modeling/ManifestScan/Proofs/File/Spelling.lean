import ManifestScan.Proofs.File.Normal
import ManifestScan.Proofs.File.Walk
import ManifestScan.Proofs.Text.Split

namespace ManifestScan

structure IsFileName (name : Bytes) : Prop extends FilePath.IsStep name where
  zero_notMem : 0 ∉ name
  length_le : name.length ≤ FileTree.maxNameLength

theorem isFileName_iff {name : Bytes} : IsFileName name ↔ name ≠ [] ∧ slash ∉ name ∧ name ≠ [dot] ∧
    name ≠ [dot, dot] ∧ 0 ∉ name ∧ name.length ≤ FileTree.maxNameLength :=
  ⟨fun h => ⟨h.ne_nil, h.slash_notMem, h.ne_dot, h.ne_dots, h.zero_notMem, h.length_le⟩,
    fun ⟨hn, hs, hd, hds, hz, hl⟩ => ⟨⟨⟨hn, hs⟩, hd, hds⟩, hz, hl⟩⟩

instance (name : Bytes) : Decidable (IsFileName name) := decidable_of_iff _ isFileName_iff.symm

theorem IsFileName.isEntryName {name : Bytes} (h : IsFileName name) : FileTree.IsEntryName name :=
  ⟨h.ne_dot, h.ne_dots, h.length_le⟩

/-- No symbolic link is below the node, and each directory has one entry a name. -/
inductive Node.IsPlain : Node → Prop
  | file (content : Bytes) : IsPlain (.file content)
  | directory {entries : List (Bytes × Node)} (hn : ∀ entry ∈ entries, IsFileName entry.1)
    (hd : (entries.map (·.1)).Nodup) (h : ∀ entry ∈ entries, IsPlain entry.2) :
    IsPlain (.directory entries)

theorem Node.IsPlain.isLink {node : Node} (h : node.IsPlain) : node.isLink = false := by
  cases h <;> rfl

namespace FilePath

/-- What is in no name of a path is not in the path. -/
theorem notMem_of_names {path : FilePath} {b : UInt8} (hb : b ≠ slash)
    (h : ∀ name ∈ names path, b ∉ name) : b ∉ path := by
  rw [← joinWith_fields slash path]
  refine notMem_joinWith (by simpa using hb) fun field hf => ?_
  by_cases hn : field = []
  · rw [hn]
    exact List.not_mem_nil
  · exact h field (List.mem_filter.2 ⟨hf, by simpa using hn⟩)

theorem getLast?_of_fileName {path : FilePath} (h : fileName path ≠ []) :
    path.getLast? ≠ some slash := by
  rcases exists_front path with rfl | ⟨front, rfl⟩ | ⟨-, hl⟩
  · nofun
  · exact absurd (fileName_slash front) h
  · exact hl

namespace Trail

/-- A settled chain leads up and then only down. -/
theorem IsSettled.exists_steps {rooted : Bool} {chain : List Bytes} (h : IsSettled rooted chain) :
    ∃ k steps, chain = steps ++ List.replicate k [dot, dot] ∧ (∀ name ∈ steps, IsStep name) ∧
      (rooted = true → k = 0) := by
  induction h with
  | @above k h => exact ⟨k, [], rfl, List.forall_mem_nil _, h⟩
  | @down name chain hn _ ih =>
    obtain ⟨k, steps, rfl, hs, hk⟩ := ih
    exact ⟨k, name :: steps, rfl, List.forall_mem_cons.2 ⟨hn, hs⟩, hk⟩

end Trail

end FilePath

namespace FileTree

/-- Where one part of a path leads from the end of a chain of names. -/
def moved (chain : List Bytes) (part : Bytes) : List Bytes :=
  if part = [dot] then chain else if part = [dot, dot] then chain.tail else part :: chain

def resolve (start parts : List Bytes) : List Bytes := parts.foldl moved start

theorem moved_step {part : Bytes} (h : FilePath.IsStep part) (chain : List Bytes) :
    moved chain part = part :: chain := by
  unfold moved
  rw [if_neg h.ne_dot, if_neg h.ne_dots]

theorem resolve_append (start parts others : List Bytes) :
    resolve start (parts ++ others) = resolve (resolve start parts) others := List.foldl_append

theorem resolve_steps (start : List Bytes) {steps : List Bytes}
    (h : ∀ name ∈ steps, FilePath.IsStep name) : resolve start steps = steps.reverse ++ start := by
  induction steps generalizing start with
  | nil => rfl
  | cons name steps ih =>
    obtain ⟨hn, hs⟩ := List.forall_mem_cons.1 h
    have := ih (name :: start) hs
    rw [← moved_step hn, resolve] at this
    rw [resolve, List.foldl_cons, this, moved_step hn, List.reverse_cons, List.append_assoc]
    rfl

theorem resolve_ups (start : List Bytes) (k : Nat) :
    resolve start (List.replicate k [dot, dot]) = start.drop k := by
  induction k generalizing start with
  | zero => rfl
  | succ k ih =>
    rw [List.replicate_succ, resolve, List.foldl_cons]
    refine (ih _).trans ?_
    cases start <;> simp [moved]

section

open FilePath

variable {rooted : Bool} {start chain : List Bytes}

/-- A part leads to the same place from a settled chain and from what stands for it. -/
theorem resolve_descend (hc : Trail.IsSettled rooted chain) (hs : rooted = true → start = [])
    {part : Bytes} (hp : IsName part) :
    resolve start (Trail.descend rooted chain part).reverse =
      moved (resolve start chain.reverse) part := by
  have hup : moved (resolve start chain.reverse) [dot, dot] =
      (resolve start chain.reverse).tail := rfl
  by_cases hdots : part = [dot, dot]
  · subst hdots
    rw [hup]
    cases hc with
    | @above n h =>
      cases rooted with
      | true =>
        rw [h rfl, hs rfl]
        rfl
      | false =>
        rw [Trail.descend_above, List.reverse_replicate, List.reverse_replicate, resolve_ups,
          resolve_ups, List.tail_drop]
    | @down name chain hn _ =>
      have hd : Trail.descend rooted (name :: chain) [dot, dot] = chain := by
        unfold Trail.descend Trail.add Trail.up
        rw [if_pos rfl]
        dsimp only
        rw [if_neg hn.ne_dots]
      rw [hd, List.reverse_cons, resolve_append, resolve_steps _ (List.forall_mem_singleton.2 hn)]
      rfl
  · by_cases hdot : part = [dot]
    · subst hdot
      rfl
    · have hstep : IsStep part := ⟨hp, hdot, hdots⟩
      rw [Trail.descend_step rooted chain hstep, List.reverse_cons, resolve_append]
      rfl

/-- A path and its trail lead to the same place. -/
theorem resolve_trail {path : FilePath} (hs : isAbsolute path = true → start = []) :
    resolve start (trail path).reverse = resolve start (names path) := by
  have hfold : ∀ (parts chain : List Bytes), (∀ part ∈ parts, IsName part) →
      Trail.IsSettled (isAbsolute path) chain →
      resolve start (parts.foldl (Trail.descend (isAbsolute path)) chain).reverse =
        resolve (resolve start chain.reverse) parts := by
    intro parts
    induction parts with
    | nil => exact fun chain _ _ => rfl
    | cons part parts ih =>
      intro chain hp hc
      obtain ⟨hpart, hp⟩ := List.forall_mem_cons.1 hp
      rw [List.foldl_cons, ih _ hp (hc.descend hpart), resolve_descend hc hs hpart]
      rfl
  exact hfold (names path) [] (fun part => isName_of_mem_names) (.above (n := 0) fun _ => rfl)

end

variable {tree : FileTree} {jump : List Bytes → List Bytes → Except FileError Spot}
  {chain todo inner : List Bytes} {node : Node} {spot : Spot} {path : FilePath}

def startOf (tree : FileTree) (path : FilePath) : List Bytes :=
  if FilePath.isAbsolute path then [] else (FilePath.names tree.current).reverse

theorem plain_of_nodeAt? (hp : tree.root.IsPlain) (h : tree.nodeAt? chain = some node) :
    node.IsPlain ∧ ∀ name ∈ chain, IsFileName name := by
  induction chain generalizing node with
  | nil =>
    cases h
    exact ⟨hp, List.forall_mem_nil _⟩
  | cons name chain ih =>
    rw [nodeAt?_cons] at h
    obtain ⟨outer, ho, hc⟩ := Option.bind_eq_some_iff.1 h
    obtain ⟨houter, hnames⟩ := ih ho
    cases houter with
    | file content => cases hc
    | directory hn hd hi =>
      have hm := mem_of_lookup hc
      exact ⟨hi _ hm, List.forall_mem_cons.2 ⟨hn _ hm, hnames⟩⟩

theorem hasDirectory_tail (h : tree.HasDirectory chain) : tree.HasDirectory chain.tail := by
  cases chain with
  | nil => exact h
  | cons name chain =>
    obtain ⟨entries, hd⟩ := h
    exact hasDirectory_of_nodeAt?_cons hd

/-- In a tree without links a walk ends where the parts of the path lead. -/
theorem Walks.resolve (hp : tree.root.IsPlain) (h : Walks tree jump chain todo spot)
    {found : List Bytes} (hs : spot = .found found node) :
    found = FileTree.resolve chain todo ∧ tree.nodeAt? found = some node := by
  induction h with
  | here h =>
    cases hs
    exact ⟨rfl, h⟩
  | stay _ _ ih => exact ih hs
  | up _ _ ih => exact ih hs
  | free => cases hs
  | jump _ h => cases (plain_of_nodeAt? hp h).1
  | @down chain name rest node spot hn _ _ _ ih =>
    obtain ⟨hf, hnode⟩ := ih hs
    refine ⟨hf.trans ?_, hnode⟩
    have hm : moved chain name = name :: chain := by
      unfold moved
      rw [if_neg hn.ne_dot, if_neg hn.ne_dots]
    rw [FileTree.resolve, FileTree.resolve, List.foldl_cons, hm]

theorem Walks.ups (k : Nat) (hd : tree.HasDirectory chain)
    (hw : Walks tree jump (chain.drop k) todo spot) :
    Walks tree jump chain (List.replicate k [dot, dot] ++ todo) spot := by
  induction k generalizing chain with
  | zero => exact hw
  | succ k ih =>
    rw [← List.drop_tail] at hw
    exact .up hd (ih (hasDirectory_tail hd) hw)

theorem locate_eq (last : Bool) (hn : path ≠ []) (hz : 0 ∉ path) : tree.locate last path =
    if maxPathLength < path.length then .error .nameTooLong
    else follow tree last maxLinks (tree.startOf path) (walk.targetNames path) := by
  unfold locate
  rw [beforeZero_eq hz]
  exact if_neg (by simpa using hn)

/-- In a tree without links a path leads where its names do. -/
theorem resolve_of_locate (hp : tree.root.IsPlain) (hz : 0 ∉ path)
    (h : tree.locate true path = .ok (.found chain node)) :
    path ≠ [] ∧ chain = resolve (tree.startOf path) (FilePath.names path) ∧
      tree.nodeAt? chain = some node := by
  have hn : path ≠ [] := by
    rintro rfl
    cases h
  rw [locate_eq true hn hz] at h
  split at h
  · cases h
  obtain ⟨hc, hnode⟩ := (walks_of_walk h).resolve hp rfl
  -- A slash at the end asks for a directory and leads nowhere else.
  have hslash (start : List Bytes) :
      resolve start (walk.targetNames path) = resolve start (FilePath.names path) := by
    unfold walk.targetNames
    rw [resolve_append]
    split <;> rfl
  exact ⟨hn, hc.trans (hslash _), hnode⟩

/-- A path that goes up and then down leads to what is there. -/
theorem locate_of_nodeAt? (hp : tree.root.IsPlain) (hn : path ≠ [])
    (hl : path.length ≤ maxPathLength) {k : Nat} {front : List Bytes}
    (hf : front = List.replicate k [dot, dot] ∨ front = [[dot]] ∧ k = 0)
    (hnames : FilePath.names path = front ++ inner) (hd : tree.HasDirectory (tree.startOf path))
    (h : tree.nodeAt? (inner.reverse ++ (tree.startOf path).drop k) = some node)
    (hs : path.getLast? = some slash → node.isDirectory = true) :
    tree.locate true path = .ok (.found (inner.reverse ++ (tree.startOf path).drop k) node) := by
  obtain ⟨hplain, hchain⟩ := plain_of_nodeAt? hp h
  have hi : ∀ name ∈ inner, IsFileName name := fun name hm =>
    hchain name (List.mem_append_left _ (List.mem_reverse.2 hm))
  have hentries : ∀ name ∈ inner, IsEntryName name := fun name hm => (hi name hm).isEntryName
  have hz : 0 ∉ path := by
    refine FilePath.notMem_of_names (by decide) fun name hm => ?_
    rw [hnames, List.mem_append] at hm
    rcases hm with hm | hm
    · rcases hf with rfl | ⟨rfl, -⟩
      · rw [List.eq_of_mem_replicate hm]
        decide
      · rw [List.mem_singleton.1 hm]
        decide
    · exact (hi name hm).zero_notMem
  -- A slash at the end stays in the directory that the names lead to.
  have hslash {jump : List Bytes → List Bytes → Except FileError Spot} :
      Walks tree jump (inner.reverse ++ (tree.startOf path).drop k)
      (if path.getLast? = some slash then [[dot]] else [])
      (.found (inner.reverse ++ (tree.startOf path).drop k) node) := by
    split
    · rename_i hlast
      have hdir := hs hlast
      cases node with
      | directory entries => exact .stay ⟨entries, h⟩ (.here h)
      | file content => cases hdir
      | link target => cases hdir
    · exact .here h
  rw [locate_eq true hn hz, if_neg (Nat.not_lt.2 hl)]
  refine walk_of_walks ?_
  unfold walk.targetNames
  rw [hnames, List.append_assoc]
  rcases hf with rfl | ⟨rfl, rfl⟩
  · exact .ups k hd (.steps hentries h hplain.isLink hslash)
  · rw [List.drop_zero] at h hslash ⊢
    rw [List.singleton_append]
    exact .stay hd (.steps hentries h hplain.isLink hslash)

end FileTree

end ManifestScan
