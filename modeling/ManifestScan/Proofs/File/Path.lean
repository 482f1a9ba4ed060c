import ManifestScan.File.Path
import ManifestScan.Proofs.Text.Lines
import ManifestScan.Proofs.Text.Split
import Mathlib.Data.List.Basic

namespace ManifestScan.FilePath

/-- What stands between the slashes of a path. -/
structure IsName (name : Bytes) : Prop where
  ne_nil : name ≠ []
  slash_notMem : slash ∉ name

variable {path other name : Bytes} {inner : List Bytes}

theorem isAbsolute_append (path : FilePath) (other more : Bytes) :
    isAbsolute (path ++ slash :: other) = isAbsolute (path ++ slash :: more) := by
  cases path <;> rfl

theorem IsName.isAbsolute (h : IsName name) (more : Bytes) : isAbsolute (name ++ more) = false := by
  obtain ⟨b, rest, rfl⟩ := List.exists_cons_of_ne_nil h.ne_nil
  have hb : b ≠ slash := fun hb => h.slash_notMem (hb ▸ List.mem_cons_self)
  simpa [FilePath.isAbsolute] using hb

theorem IsName.isAbsolute_self (h : IsName name) : FilePath.isAbsolute name = false := by
  simpa using h.isAbsolute []

theorem isName_of_mem_names (h : name ∈ names path) : IsName name := by
  obtain ⟨hf, hn⟩ := List.mem_filter.1 h
  exact ⟨by simpa using hn, notMem_of_mem_fields hf⟩

theorem notMem_of_mem_names {b : UInt8} (hb : b ∉ path) (h : name ∈ names path) : b ∉ name := by
  rw [← joinWith_fields slash path] at hb
  exact fun hm => hb (mem_joinWith (List.mem_filter.1 h).1 hm)

theorem names_append (path other : FilePath) :
    names (path ++ slash :: other) = names path ++ names other := by
  unfold names
  rw [fields_append, List.filter_append]

theorem names_append_slash (path : FilePath) : names (path ++ [slash]) = names path := by
  rw [names_append]
  exact List.append_nil _

theorem IsName.names (h : IsName name) : names name = [name] := by
  unfold FilePath.names
  rw [fields_of_notMem h.slash_notMem]
  simpa using h.ne_nil

theorem fileName_append (path : FilePath) (h : slash ∉ name) :
    fileName (path ++ slash :: name) = name := by
  unfold fileName
  rw [splitLast?_append h]
  rfl

theorem fileName_of_notMem (h : slash ∉ name) : fileName name = name := by
  unfold fileName
  rw [splitLast?_of_notMem h]
  rfl

/-- A path is nothing, ends with a slash, or ends with a name. -/
theorem exists_front (path : FilePath) :
    path = [] ∨ (∃ front, path = front ++ [slash]) ∨ path ≠ [] ∧ path.getLast? ≠ some slash := by
  rcases List.eq_nil_or_concat' path with rfl | ⟨front, b, rfl⟩
  · exact .inl rfl
  · by_cases hb : b = slash
    · exact .inr (.inl ⟨front, by rw [hb]⟩)
    · exact .inr (.inr ⟨by simp, by simpa using hb⟩)

theorem join_nil (other : FilePath) : join [] other = other := by simp [join]

/-- A relative path is put behind a slash, of which there is only one. -/
theorem exists_join (hp : path ≠ []) : ∃ front, names front = names path ∧
    FilePath.isAbsolute (front ++ [slash]) = FilePath.isAbsolute path ∧
    ∀ other, FilePath.isAbsolute other = false → join path other = front ++ slash :: other := by
  rcases exists_front path with rfl | ⟨front, rfl⟩ | ⟨hp, hl⟩
  · exact absurd rfl hp
  · refine ⟨front, (names_append_slash front).symm, rfl, fun other ho => ?_⟩
    unfold join
    rw [if_neg (by simp [ho]), if_pos (by simp), List.append_assoc, List.singleton_append]
  · refine ⟨path, rfl, ?_, fun other ho => ?_⟩
    · obtain ⟨b, rest, rfl⟩ := List.exists_cons_of_ne_nil hp
      rfl
    · unfold join
      rw [if_neg (by simp [ho, hp]), if_neg hl]

theorem names_join (path : FilePath) (h : IsName name) :
    names (join path name) = names path ++ [name] := by
  by_cases hp : path = []
  · rw [hp, join_nil, h.names]
    rfl
  · obtain ⟨front, hn, -, hj⟩ := exists_join hp
    rw [hj name h.isAbsolute_self, names_append, hn, h.names]

theorem isAbsolute_join (path : FilePath) (h : IsName name) :
    isAbsolute (join path name) = isAbsolute path := by
  by_cases hp : path = []
  · rw [hp, join_nil, h.isAbsolute_self]
    rfl
  · obtain ⟨front, -, ha, hj⟩ := exists_join hp
    rw [hj name h.isAbsolute_self, isAbsolute_append, ha]

theorem fileName_join (path : FilePath) (h : IsName name) : fileName (join path name) = name := by
  by_cases hp : path = []
  · rw [hp, join_nil, fileName_of_notMem h.slash_notMem]
  · obtain ⟨front, -, -, hj⟩ := exists_join hp
    rw [hj name h.isAbsolute_self, fileName_append _ h.slash_notMem]

theorem join_append (path : FilePath) (h : IsName name) (more : Bytes) :
    join path (name ++ more) = join path name ++ more := by
  by_cases hp : path = []
  · rw [hp, join_nil, join_nil]
  · obtain ⟨front, -, -, hj⟩ := exists_join hp
    rw [hj _ (h.isAbsolute more), hj name h.isAbsolute_self, List.append_assoc, List.cons_append]

theorem fileName_slash (path : FilePath) : fileName (path ++ [slash]) = [] :=
  fileName_append path List.not_mem_nil

/-- Behind a name there is a slash to be put. -/
theorem join_of_fileName (hf : fileName path ≠ []) (ho : isAbsolute other = false) :
    join path other = path ++ slash :: other := by
  rcases exists_front path with rfl | ⟨front, rfl⟩ | ⟨hp, hl⟩
  · exact absurd rfl hf
  · exact absurd (fileName_slash front) hf
  · unfold join
    rw [if_neg (by simp [ho, hp]), if_neg hl]

theorem join_join (path : FilePath) (h : IsName name) (ho : isAbsolute other = false) :
    join (join path name) other = join path (name ++ slash :: other) := by
  have hf : fileName (join path name) ≠ [] := by
    rw [fileName_join path h]
    exact h.ne_nil
  rw [join_of_fileName hf ho, join_append path h]

theorem joinAll_append (path : FilePath) (front inner : List Bytes) :
    joinAll path (front ++ inner) = joinAll (joinAll path front) inner := List.foldl_append

theorem joinAll_concat (path : FilePath) (front : List Bytes) (name : Bytes) :
    joinAll path (front ++ [name]) = join (joinAll path front) name :=
      joinAll_append path front [name]

theorem names_joinAll (path : FilePath) (h : ∀ name ∈ inner, IsName name) :
    names (joinAll path inner) = names path ++ inner := by
  induction inner generalizing path with
  | nil => exact (List.append_nil _).symm
  | cons name inner ih =>
    obtain ⟨hn, hi⟩ := List.forall_mem_cons.1 h
    have := ih (join path name) hi
    rw [names_join path hn, List.append_assoc] at this
    exact this

theorem isAbsolute_joinAll (path : FilePath) (h : ∀ name ∈ inner, IsName name) :
    isAbsolute (joinAll path inner) = isAbsolute path := by
  induction inner generalizing path with
  | nil => rfl
  | cons name inner ih =>
    obtain ⟨hn, hi⟩ := List.forall_mem_cons.1 h
    exact (ih (join path name) hi).trans (isAbsolute_join path hn)

theorem fileName_joinAll (path : FilePath) (front : List Bytes) (h : IsName name) :
    fileName (joinAll path (front ++ [name])) = name := by
  rw [joinAll_concat, fileName_join _ h]

theorem joinAll_ne_nil (hp : path ≠ []) (hi : ∀ name ∈ inner, IsName name) :
    joinAll path inner ≠ [] := by
  rcases List.eq_nil_or_concat' inner with rfl | ⟨front, name, rfl⟩
  · exact hp
  · have hname := hi name (by simp)
    intro he
    have hf := fileName_joinAll path front hname
    rw [he] at hf
    exact hname.ne_nil hf.symm

theorem isAbsolute_joinWith (hn : inner ≠ []) (h : ∀ name ∈ inner, IsName name) :
    isAbsolute (joinWith [slash] inner) = false := by
  obtain ⟨first, others, rfl⟩ := List.exists_cons_of_ne_nil hn
  have hf := h first List.mem_cons_self
  unfold isAbsolute
  rw [head?_joinWith hf.ne_nil]
  exact hf.isAbsolute_self

theorem joinAll_eq_join (path : FilePath) (hn : inner ≠ []) (h : ∀ name ∈ inner, IsName name) :
    joinAll path inner = join path (joinWith [slash] inner) := by
  induction inner generalizing path with
  | nil => exact absurd rfl hn
  | cons name inner ih =>
    obtain ⟨hname, hi⟩ := List.forall_mem_cons.1 h
    by_cases hinner : inner = []
    · rw [hinner]
      rfl
    · rw [joinWith_cons _ hinner, List.singleton_append,
        ← join_join path hname (isAbsolute_joinWith hinner hi)]
      exact ih (join path name) hinner hi

theorem joinAll_nil (hn : inner ≠ []) (h : ∀ name ∈ inner, IsName name) :
    joinAll [] inner = joinWith [slash] inner := by
  rw [joinAll_eq_join [] hn h, join_nil]

theorem joinWith_ne_nil (hn : inner ≠ []) (h : ∀ name ∈ inner, IsName name) :
    joinWith [slash] inner ≠ [] := by
  intro he
  have hnames := names_joinAll [] h
  rw [joinAll_nil hn h, he] at hnames
  exact hn hnames.symm

/-- Where a name ends a path no empty part does. -/
theorem parts_of_fileName (hf : fileName path ≠ []) :
    parts path = (if isAbsolute path then [[slash]] else []) ++ names path := by
  unfold parts
  have he : ¬((fileName path).isEmpty = true ∧ (!(names path).isEmpty) = true) := by simp [hf]
  rw [if_neg he, List.append_nil]

theorem parts_joinAll (path : FilePath) (hn : inner ≠ []) (h : ∀ name ∈ inner, IsName name) :
    parts (joinAll path inner) =
      (if isAbsolute path then [[slash]] else []) ++ (names path ++ inner) := by
  obtain ⟨front, name, rfl⟩ := (List.eq_nil_or_concat' inner).resolve_left hn
  have hname := h name (by simp)
  have hf : fileName (joinAll path (front ++ [name])) ≠ [] := by
    rw [fileName_joinAll path front hname]
    exact hname.ne_nil
  rw [parts_of_fileName hf, isAbsolute_joinAll path h, names_joinAll path h]

/-- The path without the slash at its end. -/
theorem parent_slash (hf : fileName path ≠ []) (hn : names path ≠ []) :
    parent (path ++ [slash]) = path := by
  rcases exists_front path with rfl | ⟨front, rfl⟩ | ⟨hp, hl⟩
  · exact absurd rfl hf
  · exact absurd (fileName_slash front) hf
  · obtain ⟨front, b, rfl⟩ := (List.eq_nil_or_concat' path).resolve_left hp
    have hb : b ≠ slash := by simpa using hl
    have hd : dropTrailing (front ++ [b]) = front ++ [b] := by
      unfold dropTrailing
      rw [List.reverse_append, List.reverse_singleton, List.singleton_append,
        List.dropWhile_cons_of_neg (by simpa using hb), List.reverse_cons, List.reverse_reverse]
    unfold parent
    rw [names_append_slash, if_neg (by simpa using hn), splitLast?_append List.not_mem_nil]
    dsimp only
    rw [hd, if_neg (by simp)]

theorem splitExtension_append {stem rest : Bytes} (hs : stem ≠ []) (hr : dot ∉ rest)
    (hn : stem ++ dot :: rest ≠ [dot, dot]) :
    splitExtension (stem ++ dot :: rest) = (stem, dot :: rest) := by
  unfold splitExtension
  rw [if_neg hn, splitLast?_append hr]
  exact if_neg (by simpa using hs)

end ManifestScan.FilePath
