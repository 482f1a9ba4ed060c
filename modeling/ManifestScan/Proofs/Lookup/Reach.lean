import ManifestScan.Proofs.File.Below
import ManifestScan.Proofs.Lookup.Scripts

namespace ManifestScan

namespace Node

variable {node : Node} {name : Bytes} {child : Node}

theorem IsNamed.nodup_names (h : node.IsNamed) : (node.entries.map (·.1)).Nodup := by
  cases h with
  | directory hn hd h => exact hd
  | _ => exact List.nodup_nil

theorem IsNamed.entry (h : node.IsNamed) {entry : Bytes × Node} (hm : entry ∈ node.entries) :
    IsFileName entry.1 ∧ entry.2.IsNamed := by
  cases h with
  | directory hn hd h => exact ⟨hn entry hm, h entry hm⟩
  | _ => cases hm

theorem IsNamed.child?_eq_some (h : node.IsNamed) :
    node.child? name = some child ↔ (name, child) ∈ node.entries :=
  ⟨mem_of_lookup, lookup_of_mem h.nodup_names⟩

end Node

namespace SourceIndex

open FilePath

/-- A walk from a node comes to what lies at the names below it: none of them is left out, and each
directory on the way opens. -/
structure Reached (opens : FilePath → Bool) (path : FilePath) (node : Node) (inner : List Bytes)
    (below : Node) : Prop where
  at?_eq : node.at? inner = some below
  isExcluded : ∀ name ∈ inner, isExcluded name = false
  opens : ∀ front, front <+: inner → front ≠ inner → opens (joinAll path front) = true

variable {opens others : FilePath → Bool} {takes picks : FilePath → Node → Bool}
  {path file : FilePath} {node below : Node} {name : Bytes} {inner : List Bytes}

theorem Reached.nil (opens : FilePath → Bool) (path : FilePath) (node : Node) :
    Reached opens path node [] node where
  at?_eq := rfl
  isExcluded := List.forall_mem_nil _
  opens _ hf hne := absurd (List.prefix_nil.1 hf) hne

theorem reached_cons (hn : node.IsNamed) : Reached opens path node (name :: inner) below ↔
    ∃ child, (name, child) ∈ opened opens path node ∧
      Reached opens (join path name) child inner below := by
  constructor
  · rintro ⟨hat, hx, ho⟩
    rw [Node.at?] at hat
    split at hat
    · cases hat
    rename_i child hc
    obtain ⟨hname, hx⟩ := List.forall_mem_cons.1 hx
    refine ⟨child, mem_opened.2 ⟨ho [] List.nil_prefix (List.cons_ne_nil _ _).symm,
      hn.child?_eq_some.1 hc, hname⟩, hat, hx, fun front hf hne => ?_⟩
    exact ho (name :: front) (List.cons_prefix_cons.2 ⟨rfl, hf⟩) fun he => hne (List.cons.inj he).2
  · rintro ⟨child, hm, hat, hx, ho⟩
    obtain ⟨hopen, hentry, hname⟩ := mem_opened.1 hm
    refine ⟨?_, List.forall_mem_cons.2 ⟨hname, hx⟩, fun front hf hne => ?_⟩
    · rw [Node.at?, hn.child?_eq_some.2 hentry]
      exact hat
    · rcases List.prefix_cons_iff.1 hf with rfl | ⟨rest, rfl, hrest⟩
      · exact hopen
      · exact ho rest hrest fun he => hne (congrArg _ he)

/-- What the recursive walk picks is what it comes to and `takes` picks. -/
theorem mem_walkAt (hn : node.IsNamed) : file ∈ walkAt opens takes path node ↔
    ∃ inner below, Reached opens path node inner below ∧ takes (joinAll path inner) below = true ∧
      file = joinAll path inner := by
  induction path, node using walkAt.induct opens with
  | case1 path node ih =>
    rw [walkAt_eq, List.mem_append, List.mem_flatMap]
    constructor
    · rintro (hm | ⟨entry, hentry, hm⟩)
      · split at hm
        · rename_i ht
          exact ⟨[], node, .nil _ _ _, ht, List.mem_singleton.1 hm⟩
        · cases hm
      · have hnamed := (hn.entry (mem_opened.1 hentry).2.1).2
        obtain ⟨inner, below, hr, ht, he⟩ := (ih ⟨entry, hentry⟩ hnamed).1 hm
        exact ⟨entry.1 :: inner, below, (reached_cons hn).2 ⟨entry.2, hentry, hr⟩, ht, he⟩
    · rintro ⟨inner, below, hr, ht, he⟩
      cases inner with
      | nil =>
        obtain ⟨hat, -, -⟩ := hr
        cases hat
        have hself : takes path node = true := ht
        rw [if_pos hself, he]
        exact .inl (List.mem_singleton_self _)
      | cons name inner =>
        obtain ⟨child, hentry, hr⟩ := (reached_cons hn).1 hr
        have hnamed := (hn.entry (mem_opened.1 hentry).2.1).2
        exact .inr ⟨_, hentry, (ih ⟨_, hentry⟩ hnamed).2 ⟨inner, below, hr, ht, he⟩⟩

/-- Two walks are the same that open the same directories and pick the same. -/
theorem walkAt_congr (hn : node.IsNamed)
    (ho : ∀ inner entries, node.at? inner = some (.directory entries) →
      opens (joinAll path inner) = others (joinAll path inner))
    (ht : ∀ inner below, node.at? inner = some below →
      takes (joinAll path inner) below = picks (joinAll path inner) below) :
    walkAt opens takes path node = walkAt others picks path node := by
  induction path, node using walkAt.induct opens with
  | case1 path node ih =>
    have hopened : opened opens path node = opened others path node := by
      cases node with
      | directory entries =>
        unfold opened
        rw [show opens path = others path from ho [] entries rfl]
      | _ => rw [opened_leaf _ _ rfl, opened_leaf _ _ rfl]
    have hself : takes path node = picks path node := ht [] node rfl
    rw [walkAt_eq, walkAt_eq, hself, ← hopened]
    refine congrArg _ (List.flatMap_congr fun entry hentry => ?_)
    have hm := (mem_opened.1 hentry).2.1
    have hat (inner : List Bytes) : node.at? (entry.1 :: inner) = entry.2.at? inner := by
      rw [Node.at?, hn.child?_eq_some.2 hm]
    exact ih ⟨entry, hentry⟩ (hn.entry hm).2 (fun inner entries h => ho (entry.1 :: inner) entries
      ((hat inner).trans h)) fun inner below h => ht (entry.1 :: inner) below ((hat inner).trans h)

theorem pairwise_opened (hn : node.IsNamed) :
    (opened opens path node).Pairwise fun a b => a.1 < b.1 := by
  unfold opened
  split
  · refine FileTree.pairwise_sortByName (List.Nodup.sublist ?_ hn.nodup_names)
    exact List.filter_sublist.map _
  · exact .nil

theorem names_of_mem_walkAt (hn : node.IsNamed) (hname : IsName name)
    (hm : file ∈ walkAt opens takes (join path name) node) :
    ∃ inner, names file = names path ++ name :: inner := by
  obtain ⟨inner, below, hr, -, rfl⟩ := (mem_walkAt hn).1 hm
  refine ⟨inner, ?_⟩
  rw [names_joinAll _ (hn.isName hr.at?_eq), names_join path hname, List.append_assoc]
  rfl

/-- What the recursive walk picks is sorted by the names, those further out first. -/
theorem pairwise_walkAt (hn : node.IsNamed) :
    (walkAt opens takes path node).Pairwise fun a b => names a < names b := by
  induction path, node using walkAt.induct opens with
  | case1 path node ih =>
    have hnames : ∀ entry ∈ opened opens path node, ∀ file ∈ walkAt opens takes
        (join path entry.1) entry.2, ∃ inner, names file = names path ++ entry.1 :: inner := by
      intro entry hentry file hm
      obtain ⟨hname, hnamed⟩ := hn.entry (mem_opened.1 hentry).2.1
      exact names_of_mem_walkAt hnamed hname.toIsName hm
    rw [walkAt_eq, List.pairwise_append, List.pairwise_flatMap]
    refine ⟨?_, ⟨fun entry hentry => ?_, ?_⟩, fun first hfirst file hm => ?_⟩
    · split
      · exact List.pairwise_singleton _ _
      · exact .nil
    · exact ih ⟨entry, hentry⟩ (hn.entry (mem_opened.1 hentry).2.1).2
    · refine (pairwise_opened hn).imp_of_mem fun ha hb hlt first hfirst second hsecond => ?_
      obtain ⟨inner, hi⟩ := hnames _ ha first hfirst
      obtain ⟨rest, hr⟩ := hnames _ hb second hsecond
      rw [hi, hr]
      exact List.append_left_lt (List.cons_lt_cons_iff.2 (.inl hlt))
    · obtain ⟨entry, hentry, hfile⟩ := List.mem_flatMap.1 hm
      obtain ⟨inner, hi⟩ := hnames entry hentry file hfile
      have hp : first = path := by
        split at hfirst
        · exact List.mem_singleton.1 hfirst
        · cases hfirst
      rw [hp, hi, ← List.append_nil (names path), List.append_assoc]
      exact List.append_left_lt (List.nil_lt_cons _ _)

theorem zero_notMem_rootOf (hp : path ≠ []) (hz : 0 ∉ path) : 0 ∉ rootOf path := by
  rw [rootOf_eq hp]
  by_cases ht : trail path = []
  · rw [ht, Trail.render_nil]
    cases isAbsolute path <;> decide
  · refine notMem_of_names (by decide) fun name hm => ?_
    rw [Trail.names_render _ ht (isSettled_trail path).isName, List.mem_reverse] at hm
    exact notMem_of_mem_names hz (trail_subset path hm)

def fits (path : FilePath) : Bool := path.length ≤ FileTree.maxPathLength

variable {tree : FileTree} {entries : List (Bytes × Node)}

/-- The index is that of the recursive walk through what can be opened below its root: its files are
the scripts that the walk comes to, in the order of the walk, and its issues are the directories
that the walk comes to with paths that are too long. -/
structure Covers (index : SourceIndex) (tree : FileTree) (node : Node) : Prop where
  files : index.files = walkAt fits (isListed tree) index.root node
  issues : index.issues = (walkAt fits (isClosed fits) index.root node).map
    (·, ascii "failed to enumerate directory")
  sorted : index.files.Pairwise fun a b => names a < names b
  nodup : index.files.Nodup
  mem_files : ∀ file, file ∈ index.files ↔ ∃ inner below, Reached fits index.root node inner below ∧
    isListed tree (joinAll index.root inner) below = true ∧ file = joinAll index.root inner
  issues_eq_nil : index.issues = [] ↔ ∀ inner entries,
    Reached fits index.root node inner (.directory entries) →
      (joinAll index.root inner).length ≤ FileTree.maxPathLength

/-- Below its root, an index is stopped by the length of a path and by nothing else. -/
theorem build_fits (hz : 0 ∉ path) (hn : (Node.directory entries).IsNamed)
    (hr : tree.node (rootOf path) = .ok (.directory entries)) :
    build tree path = ⟨rootOf path, tree.isFile (join (rootOf path) packageMarker),
      walkAt fits (isListed tree) (rootOf path) (.directory entries),
      (walkAt fits (isClosed fits) (rootOf path) (.directory entries)).map
        (·, ascii "failed to enumerate directory")⟩ := by
  have hp : path ≠ [] := by
    rintro rfl
    cases hr
  have hopens : ∀ inner others, (Node.directory entries).at? inner = some (.directory others) →
      tree.isDirectory (joinAll (rootOf path) inner) = fits (joinAll (rootOf path) inner) :=
    fun inner others hb => FileTree.isDirectory_joinAll (zero_notMem_rootOf hp hz) hr hn hb
  have hfiles : scriptsAt tree (rootOf path) (.directory entries) =
      walkAt fits (isListed tree) (rootOf path) (.directory entries) :=
    walkAt_congr hn hopens fun _ _ _ => rfl
  have hissues : closedAt tree (rootOf path) (.directory entries) =
      walkAt fits (isClosed fits) (rootOf path) (.directory entries) := by
    refine walkAt_congr hn hopens fun inner below hb => ?_
    unfold isClosed
    cases below with
    | directory others => rw [hopens inner others hb]
    | _ => rfl
  rw [build_eq hr, hfiles, hissues]

/-- A directory is covered by its index, whatever links lie in it or lead to it. -/
theorem build_covers (hz : 0 ∉ path) (hn : (Node.directory entries).IsNamed)
    (hr : tree.node (rootOf path) = .ok (.directory entries)) :
    (build tree path).root = rootOf path ∧
      (build tree path).Covers tree (.directory entries) := by
  rw [build_fits hz hn hr]
  refine ⟨rfl, rfl, rfl, ?_, ?_, ?_, ?_⟩
  · exact pairwise_walkAt hn
  · refine List.Pairwise.imp (fun hlt => ?_) (pairwise_walkAt hn)
    rintro rfl
    exact List.lt_irrefl _ hlt
  · exact fun file => mem_walkAt hn
  · rw [List.map_eq_nil_iff, List.eq_nil_iff_forall_not_mem]
    constructor
    · intro h inner others hreached
      by_contra hlong
      have hclosed : (!fits (joinAll (rootOf path) inner)) = true :=
        congrArg not (decide_eq_false hlong)
      exact h _ ((mem_walkAt hn).2 ⟨inner, _, hreached, hclosed, rfl⟩)
    · intro h file hm
      obtain ⟨inner, below, hreached, hclosed, -⟩ := (mem_walkAt hn).1 hm
      cases below with
      | directory others =>
        have hshort : fits (joinAll (rootOf path) inner) = true :=
          decide_eq_true (h inner others hreached)
        rw [isClosed, hshort] at hclosed
        cases hclosed
      | _ => cases hclosed

/-- Links to a script, to a directory, back up and nowhere, and names that are left out. -/
def tangle : List (Bytes × Node) :=
  [(ascii "loop", .link (ascii ".")), (ascii "b.py", .link (ascii "a/c.py")),
    (ascii "self.py", .link (ascii "self.py")),
    (ascii "a", .directory [(ascii "c.py", .file []), (ascii "up", .link (ascii "../a"))]),
    (ascii ".a", .directory [(ascii "d.py", .file [])])]

def tangleTree : FileTree := ⟨.directory [(ascii "work", .directory tangle)], ascii "/work", none⟩

theorem isNamed_tangle : (Node.directory tangle).IsNamed := by
  refine .directory (by decide) (by decide) ?_
  unfold tangle
  simp only [List.forall_mem_cons]
  refine ⟨.link _, .link _, .link _, .directory (by decide) (by decide) ?_,
    .directory (by decide) (by decide) ?_, List.forall_mem_nil _⟩
  · exact List.forall_mem_cons.2 ⟨.file _, List.forall_mem_singleton.2 (.link _)⟩
  · exact List.forall_mem_singleton.2 (.file _)

theorem build_covers_tangle :
    let path := ascii "a/../"
    tangleTree.node (rootOf path) = .ok (.directory tangle) ∧
      (build tangleTree path).Covers tangleTree (.directory tangle) ∧
      (build tangleTree path).files = [ascii "./a/c.py", ascii "./b.py"] := by
  intro path
  have hroot : rootOf path = ascii "." := by decide +kernel
  have hnode : tangleTree.node (rootOf path) = .ok (.directory tangle) := by
    rw [hroot]
    rfl
  exact ⟨hnode, (build_covers (by decide) isNamed_tangle hnode).2, by decide +kernel⟩

/-- A link to a directory in another one. -/
def crossTree : FileTree where
  root := .directory [(ascii "work", .directory
    [(ascii "x", .directory [(ascii "y", .directory [(ascii "z.py", .file [])])]),
      (ascii "link", .link (ascii "x/y"))])]
  current := ascii "/work"
  room := none

def loopName : Bytes := List.replicate 254 108

/-- A link to the directory that it is in, a directory with a script and a link to the script. -/
def deepEntries : List (Bytes × Node) :=
  [(loopName, .link [dot]), (ascii "long_directories", .directory [(ascii "m.py", .file [])]),
    (ascii "short_links_to.py", .link (ascii "long_directories/m.py"))]

def deepTree : FileTree :=
  ⟨.directory [(ascii "work", .directory deepEntries)], ascii "/work", none⟩

/-- The working directory by a path that leaves room for short names only. -/
def deepPath : FilePath := joinWith [slash] (List.replicate 16 loopName)

theorem length_loopName : loopName.length = 254 := List.length_replicate

theorem isFileName_loopName : IsFileName loopName := by
  have hself (b : UInt8) (hb : b ≠ 108) : b ∉ loopName := fun hm => hb (List.eq_of_mem_replicate hm)
  have hlong : ∀ short : Bytes, short.length ≠ 254 → loopName ≠ short := fun short hs he =>
    hs (he ▸ length_loopName)
  refine isFileName_iff.2 ⟨hlong _ (by decide), hself _ (by decide), hlong _ (by decide),
    hlong _ (by decide), hself _ (by decide), ?_⟩
  rw [length_loopName]
  decide

theorem rootOf_joinWith (hn : inner ≠ []) (hi : ∀ name ∈ inner, IsStep name) :
    rootOf (joinWith [slash] inner) = joinWith [slash] inner := by
  have hnames : ∀ name ∈ inner, IsName name := fun name hm => (hi name hm).toIsName
  have ha := isAbsolute_joinWith hn hnames
  have ht : trail (joinWith [slash] inner) = inner.reverse := by
    rw [← joinAll_nil hn hnames, trail, names_joinAll [] hnames, joinAll_nil hn hnames, ha]
    exact (Trail.descend_steps false [] hi).trans (List.append_nil _)
  rw [rootOf_eq (joinWith_ne_nil hn hnames), ha, ht, Trail.render_eq_joinAll _
    (List.reverse_ne_nil_iff.2 hn) fun name hm => hnames name (List.mem_reverse.1 hm),
    List.reverse_reverse]
  exact joinAll_nil hn hnames

theorem length_deepPath : deepPath.length = 4079 := by
  have hpath : deepPath = joinWith [slash] (List.replicate (15 + 1) loopName) := rfl
  have hl := length_joinWith_replicate slash loopName 15
  rw [length_loopName] at hl
  rw [hpath]
  omega

theorem isStep_loopNames : ∀ name ∈ List.replicate 16 loopName, IsStep name := by
  intro name hm
  rw [List.eq_of_mem_replicate hm]
  exact isFileName_loopName.toIsStep

theorem zero_notMem_deepPath : 0 ∉ deepPath := by
  refine notMem_joinWith (by decide) fun name hm => ?_
  rw [List.eq_of_mem_replicate hm]
  exact isFileName_loopName.zero_notMem

theorem node_deepPath : deepTree.node deepPath = .ok (.directory deepEntries) := by
  have hn : List.replicate 16 loopName ≠ [] := List.cons_ne_nil _ _
  have hnames : ∀ name ∈ List.replicate 16 loopName, IsName name :=
    fun name hm => (isStep_loopNames name hm).toIsName
  have hstart : deepTree.startOf deepPath = [ascii "work"] := by
    unfold FileTree.startOf deepPath
    rw [isAbsolute_joinWith hn hnames]
    rfl
  have htarget : FileTree.walk.targetNames deepPath = List.replicate 16 loopName ++ [] := by
    rw [deepPath, ← joinAll_nil hn hnames, FileTree.targetNames_joinAll [] hn hnames,
      List.append_nil]
    rfl
  have hloop : deepTree.nodeAt? [loopName, ascii "work"] = some (.link [dot]) := by
    have hwork : deepTree.nodeAt? [ascii "work"] = some (.directory deepEntries) := rfl
    rw [FileTree.nodeAt?_cons, hwork, Option.bind_some, Node.child?, Node.entries, deepEntries,
      List.lookup_cons_self]
  have hfollow : FileTree.follow deepTree true (24 + 16) [ascii "work"]
      (List.replicate 16 loopName ++ []) = .ok (.found [ascii "work"] (.directory deepEntries)) :=
    FileTree.follow_replicate isFileName_loopName.isEntryName hloop 16 rfl
  have hlocate : deepTree.locate true deepPath =
      .ok (.found [ascii "work"] (.directory deepEntries)) := by
    have hsome : deepPath ≠ [] := joinWith_ne_nil hn hnames
    have hfits : ¬FileTree.maxPathLength < 4079 := by decide
    rw [FileTree.locate_eq true hsome zero_notMem_deepPath, length_deepPath, hstart, htarget,
      if_neg hfits]
    exact hfollow
  rw [FileTree.node, hlocate]

theorem visited_deepEntries : visited deepEntries =
    [(loopName, .link [dot]), (ascii "long_directories", .directory [(ascii "m.py", .file [])]),
      (ascii "short_links_to.py", .link (ascii "long_directories/m.py"))] := rfl

/-- Below the path, what has a long name is not found. -/
theorem long_deepPath {name : Bytes} (h : IsFileName name) (hl : 16 ≤ name.length) :
    fits (join deepPath name) = false ∧ deepTree.isFile (join deepPath name) = false := by
  have hnames : ∀ name ∈ List.replicate 16 loopName, IsName name :=
    fun name hm => (isStep_loopNames name hm).toIsName
  have hf : fileName deepPath = loopName := by
    have hn : List.replicate 16 loopName ≠ [] := List.cons_ne_nil _ _
    rw [deepPath, ← joinAll_nil hn hnames, List.replicate_succ']
    exact fileName_joinAll _ _ isFileName_loopName.toIsName
  have hlong : FileTree.maxPathLength < (join deepPath name).length := by
    have hmax : FileTree.maxPathLength = 4095 := rfl
    rw [join_of_fileName (hf ▸ isFileName_loopName.ne_nil) h.isAbsolute_self, List.length_append,
      List.length_cons, length_deepPath]
    omega
  have hz : 0 ∉ join deepPath name :=
    zero_notMem_joinAll zero_notMem_deepPath (List.forall_mem_singleton.2 h.zero_notMem)
  refine ⟨decide_eq_false (Nat.not_le.2 hlong), ?_⟩
  unfold FileTree.isFile
  rw [FileTree.node_of_long hz hlong]

theorem fits_deepPath : fits deepPath = true := decide_eq_true (by rw [length_deepPath]; decide)

theorem walkAt_deepPath (ht : takes deepPath (.directory deepEntries) = false) :
    walkAt fits takes deepPath (.directory deepEntries) =
      (if takes (join deepPath loopName) (.link [dot]) then [join deepPath loopName] else []) ++
      ((if takes (join deepPath (ascii "long_directories")) (.directory [(ascii "m.py", .file [])])
        then [join deepPath (ascii "long_directories")] else []) ++
      if takes (join deepPath (ascii "short_links_to.py")) (.link (ascii "long_directories/m.py"))
        then [join deepPath (ascii "short_links_to.py")] else []) := by
  obtain ⟨hdirectory, -⟩ := @long_deepPath (ascii "long_directories") (by decide) (by decide)
  rw [walkAt_eq, ht, opened, fits_deepPath, if_pos rfl, Node.entries, visited_deepEntries,
    List.flatMap_cons, List.flatMap_cons, List.flatMap_singleton, if_neg Bool.false_ne_true,
    List.nil_append]
  dsimp only
  rw [walkAt_closed _ _ hdirectory, walkAt_leaf _ _ _ rfl, walkAt_leaf _ _ _ rfl]

theorem isNamed_deepEntries : (Node.directory deepEntries).IsNamed := by
  have hlengths : ∀ name ∈ [ascii "long_directories", ascii "short_links_to.py"],
      name.length ≠ 254 := by decide
  have hloop : loopName ∉ [ascii "long_directories", ascii "short_links_to.py"] :=
    fun hm => hlengths loopName hm length_loopName
  refine .directory (List.forall_mem_cons.2 ⟨isFileName_loopName, by decide⟩)
    (List.nodup_cons.2 ⟨hloop, by decide⟩) (List.forall_mem_cons.2 ⟨.link _, ?_⟩)
  exact List.forall_mem_cons.2 ⟨.directory (by decide) (by decide)
    (List.forall_mem_singleton.2 (.file _)), List.forall_mem_singleton.2 (.link _)⟩

/-- A directory that is not what the normal form of its path leads to is not found. Below one that
is, a path can be too long, for a directory and for a link to a script. -/
theorem build_uncovered :
    (crossTree.isDirectory (ascii "link/../y") = true ∧
      crossTree.isFile (ascii "link/../y/z.py") = true ∧
      (build crossTree (ascii "link/../y")).files = [] ∧
      (build crossTree (ascii "link/../y")).issues =
        [(ascii "y", ascii "search root does not exist")]) ∧
    (deepTree.node deepPath = .ok (.directory deepEntries) ∧ rootOf deepPath = deepPath ∧
      deepTree.isFile (ascii "long_directories/m.py") = true ∧
      deepTree.isFile (ascii "short_links_to.py") = true ∧
      (build deepTree deepPath).files = [] ∧
      (build deepTree deepPath).issues =
        [(join deepPath (ascii "long_directories"), ascii "failed to enumerate directory")]) := by
  have hroot : rootOf deepPath = deepPath := rootOf_joinWith (List.cons_ne_nil _ _) isStep_loopNames
  have hnode : deepTree.node (rootOf deepPath) = .ok (.directory deepEntries) := by
    rw [hroot]
    exact node_deepPath
  obtain ⟨-, hloop⟩ := @long_deepPath loopName isFileName_loopName (by rw [length_loopName]; decide)
  obtain ⟨hdirectory, -⟩ := @long_deepPath (ascii "long_directories") (by decide) (by decide)
  obtain ⟨-, hlink⟩ := @long_deepPath (ascii "short_links_to.py") (by decide) (by decide)
  have hbuild := build_fits zero_notMem_deepPath isNamed_deepEntries hnode
  rw [hroot] at hbuild
  refine ⟨by decide +kernel, node_deepPath, hroot, rfl, rfl, ?_, ?_⟩
  · rw [hbuild]
    dsimp only
    rw [walkAt_deepPath rfl]
    simp [isListed, isScript, Node.isDirectory, Node.isLink, hlink, hloop]
  · rw [hbuild]
    dsimp only
    rw [walkAt_deepPath (by rw [isClosed, fits_deepPath]; rfl)]
    simp [isClosed, Node.isDirectory, hdirectory]

end SourceIndex

end ManifestScan
