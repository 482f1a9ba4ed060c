import ManifestScan.Proofs.File.Path

namespace ManifestScan.FilePath

structure IsStep (name : Bytes) : Prop extends IsName name where
  ne_dot : name ≠ [dot]
  ne_dots : name ≠ [dot, dot]

variable {path name part : Bytes} {inner chain : List Bytes} {rooted : Bool}

namespace Trail

/-- The names of a trail after one more part. Whether a slash ends the trail makes no difference. -/
def descend (rooted : Bool) (chain : List Bytes) (part : Bytes) : List Bytes :=
  (add rooted ⟨chain, false⟩ part).names

theorem names_add (rooted : Bool) (trail : Trail) (part : Bytes) :
    (trail.add rooted part).names = descend rooted trail.names part := by
  obtain ⟨chain, slashed⟩ := trail
  unfold descend add
  split
  · unfold up
    cases chain with
    | nil => cases rooted <;> rfl
    | cons last others =>
      dsimp only
      split <;> rfl
  · split <;> rfl

theorem names_foldl (rooted : Bool) (parts : List Bytes) (trail : Trail) :
    (parts.foldl (add rooted) trail).names = parts.foldl (descend rooted) trail.names := by
  induction parts generalizing trail with
  | nil => rfl
  | cons part parts ih => rw [List.foldl_cons, ih, names_add, List.foldl_cons]

theorem add_step (rooted : Bool) (trail : Trail) (h : IsStep part) :
    trail.add rooted part = ⟨part :: trail.names, false⟩ := by
  unfold add
  rw [if_neg h.ne_dots, if_neg (by simpa using ⟨h.ne_nil, h.ne_dot⟩)]
  rfl

theorem descend_step (rooted : Bool) (chain : List Bytes) (h : IsStep part) :
    descend rooted chain part = part :: chain := by
  rw [descend, add_step rooted _ h]

theorem descend_steps (rooted : Bool) (chain : List Bytes) (h : ∀ name ∈ inner, IsStep name) :
    inner.foldl (descend rooted) chain = inner.reverse ++ chain := by
  induction inner generalizing chain with
  | nil => rfl
  | cons name inner ih =>
    obtain ⟨hn, hi⟩ := List.forall_mem_cons.1 h
    rw [List.foldl_cons, descend_step rooted chain hn, ih _ hi, List.reverse_cons,
      List.append_assoc]
    rfl

theorem descend_subset (rooted : Bool) (chain : List Bytes) (part : Bytes) :
    descend rooted chain part ⊆ part :: chain := by
  unfold descend add
  split
  · rename_i hdots
    unfold up push
    rw [hdots]
    cases chain with
    | nil => cases rooted <;> simp
    | cons last others =>
      dsimp only
      split <;> simp
  · split
    · exact List.subset_cons_self _ _
    · exact List.Subset.refl _

/-- Above the start of a relative path only `..` leads. -/
theorem descend_above (n : Nat) : descend false (List.replicate n [dot, dot]) [dot, dot] =
    List.replicate (n + 1) [dot, dot] := by
  cases n <;> rfl

/-- Names, last first, of which none takes another one back. -/
inductive IsSettled (rooted : Bool) : List Bytes → Prop
  | above {n : Nat} (h : rooted = true → n = 0) : IsSettled rooted (List.replicate n [dot, dot])
  | down {name : Bytes} {chain : List Bytes} (hn : IsStep name) (h : IsSettled rooted chain) :
      IsSettled rooted (name :: chain)

theorem IsSettled.isName (h : IsSettled rooted chain) : ∀ name ∈ chain, IsName name := by
  induction h with
  | above h =>
    intro name hm
    rw [List.eq_of_mem_replicate hm]
    exact ⟨by decide, by decide⟩
  | down hn h ih => exact List.forall_mem_cons.2 ⟨hn.toIsName, ih⟩

theorem IsSettled.descend (h : IsSettled rooted chain) (hp : IsName part) :
    IsSettled rooted (descend rooted chain part) := by
  by_cases hdots : part = [dot, dot]
  · rw [hdots]
    cases h with
    | @above n h =>
      cases rooted with
      | true =>
        rw [h rfl]
        exact .above (n := 0) fun _ => rfl
      | false =>
        rw [descend_above]
        exact .above nofun
    | @down name chain hn h =>
      have hup : Trail.descend rooted (name :: chain) [dot, dot] = chain := by
        unfold Trail.descend add up
        rw [if_pos rfl]
        dsimp only
        rw [if_neg hn.ne_dots]
      rw [hup]
      exact h
  · by_cases hdot : part = [dot]
    · rw [hdot]
      exact h
    · have hs : IsStep part := ⟨hp, hdot, hdots⟩
      rw [descend_step rooted chain hs]
      exact .down hs h

/-- Going down a settled chain takes nothing back. -/
theorem IsSettled.foldl_reverse (h : IsSettled rooted chain) :
    chain.reverse.foldl (Trail.descend rooted) [] = chain := by
  induction h with
  | @above n h =>
    rw [List.reverse_replicate]
    induction n with
    | zero => rfl
    | succ n ih =>
      have hr : rooted = false := by
        cases rooted with
        | true => cases h rfl
        | false => rfl
      rw [List.replicate_succ', List.foldl_append, ih (by simp [hr]), hr, ← List.replicate_succ']
      exact descend_above n
  | @down name chain hn h ih =>
    rw [List.reverse_cons, List.foldl_append, ih]
    exact descend_step rooted chain hn

theorem render_nil (rooted slashed : Bool) :
    render rooted ⟨[], slashed⟩ = if rooted then [slash] else [dot] := rfl

theorem render_eq_joinAll (rooted : Bool) (hn : chain ≠ []) (h : ∀ name ∈ chain, IsName name) :
    render rooted ⟨chain, false⟩ = joinAll (if rooted then [slash] else []) chain.reverse := by
  have hrelative : isAbsolute (joinWith [slash] chain.reverse) = false :=
    isAbsolute_joinWith (by simpa using hn) (by simpa using h)
  have he : chain.isEmpty = false := by simpa using hn
  rw [joinAll_eq_join _ (by simpa using hn) (by simpa using h)]
  unfold render
  rw [he]
  cases rooted with
  | false => simp [join_nil]
  | true => simp [join, hrelative]

/-- The names of a path from its start. -/
theorem names_render (rooted : Bool) (hn : chain ≠ []) (h : ∀ name ∈ chain, IsName name) :
    FilePath.names (render rooted ⟨chain, false⟩) = chain.reverse := by
  rw [render_eq_joinAll _ hn h, names_joinAll _ (by simpa using h)]
  cases rooted <;> rfl

theorem render_ne_nil (rooted : Bool) (hn : chain ≠ []) (h : ∀ name ∈ chain, IsName name) :
    render rooted ⟨chain, false⟩ ≠ [] := by
  intro he
  have hr := names_render rooted hn h
  rw [he] at hr
  exact hn (List.reverse_eq_nil_iff.1 hr.symm)

theorem isAbsolute_render (rooted : Bool) (h : ∀ name ∈ chain, IsName name) :
    isAbsolute (render rooted ⟨chain, false⟩) = rooted := by
  by_cases hn : chain = []
  · rw [hn, render_nil]
    cases rooted <;> rfl
  · rw [render_eq_joinAll _ hn h, isAbsolute_joinAll _ (by simpa using h)]
    cases rooted <;> rfl

theorem fileName_render (rooted : Bool) (h : ∀ other ∈ name :: chain, IsName other) :
    fileName (render rooted ⟨name :: chain, false⟩) = name := by
  rw [render_eq_joinAll _ (List.cons_ne_nil _ _) h, List.reverse_cons,
    fileName_joinAll _ _ (h name List.mem_cons_self)]

theorem render_slashed (hn : chain ≠ []) (hd : chain.head? ≠ some [dot, dot]) :
    render rooted ⟨chain, true⟩ = render rooted ⟨chain, false⟩ ++ [slash] := by
  have he : chain.isEmpty = false := by simpa using hn
  unfold render
  simp [he, hd]

/-- A slash is put only behind a name that leads down. -/
theorem render_cases (rooted : Bool) (trail : Trail) :
    trail.render rooted = render rooted ⟨trail.names, false⟩ ∨
      trail.names ≠ [] ∧ trail.render rooted = render rooted ⟨trail.names, false⟩ ++ [slash] := by
  obtain ⟨chain, slashed⟩ := trail
  by_cases hn : chain = []
  · rw [hn]
    exact .inl rfl
  · cases slashed with
    | false => exact .inl rfl
    | true =>
      by_cases hd : chain.head? = some [dot, dot]
      · refine .inl ?_
        unfold render
        simp [hd]
      · exact .inr ⟨hn, render_slashed hn hd⟩

end Trail

/-- The names that lead from the start of a path to where it ends, last first. -/
def trail (path : FilePath) : List Bytes :=
  (names path).foldl (Trail.descend (isAbsolute path)) []

theorem trail_subset (path : FilePath) : trail path ⊆ names path := by
  have hfold : ∀ (parts chain : List Bytes),
      parts.foldl (Trail.descend (isAbsolute path)) chain ⊆ parts ++ chain := by
    intro parts
    induction parts with
    | nil => exact fun chain => List.Subset.refl _
    | cons part parts ih =>
      intro chain name hm
      rcases List.mem_append.1 (ih _ hm) with hm | hm
      · exact List.mem_cons_of_mem _ (List.mem_append_left _ hm)
      · rcases List.mem_cons.1 (Trail.descend_subset _ _ _ hm) with rfl | hm
        · exact List.mem_cons_self
        · exact List.mem_cons_of_mem _ (List.mem_append_right _ hm)
  intro name hm
  simpa using hfold (names path) [] hm

theorem isSettled_trail (path : FilePath) : Trail.IsSettled (isAbsolute path) (trail path) := by
  have hfold : ∀ (parts chain : List Bytes), (∀ part ∈ parts, IsName part) →
      Trail.IsSettled (isAbsolute path) chain →
      Trail.IsSettled (isAbsolute path) (parts.foldl (Trail.descend (isAbsolute path)) chain) := by
    intro parts
    induction parts with
    | nil => exact fun chain _ hc => hc
    | cons part parts ih =>
      intro chain hp hc
      obtain ⟨hpart, hp⟩ := List.forall_mem_cons.1 hp
      exact ih _ hp (hc.descend hpart)
  exact hfold (names path) [] (fun part => isName_of_mem_names) (.above (n := 0) fun _ => rfl)

/-- A normal path is spelled by its trail, maybe with a slash at its end. -/
theorem normal_eq (hp : path ≠ []) :
    ∃ slashed, normal path = Trail.render (isAbsolute path) ⟨trail path, slashed⟩ := by
  have hparts : (if isAbsolute path then (parts path).drop 1 else parts path) =
      names path ++ if (fileName path).isEmpty ∧ !(names path).isEmpty then [[]] else [] := by
    unfold parts
    cases isAbsolute path <;> rfl
  have htrail : ((if isAbsolute path then (parts path).drop 1 else parts path).foldl
      (Trail.add (isAbsolute path)) ⟨[], false⟩).names = trail path := by
    rw [hparts, Trail.names_foldl, List.foldl_append]
    split <;> rfl
  unfold normal
  rw [if_neg (by simpa using hp)]
  exact ⟨_, by rw [← htrail]⟩

/-- Below a path, a name that leads down is one name more. -/
theorem normal_joinAll (path : FilePath) (hn : inner ≠ []) (h : ∀ name ∈ inner, IsStep name) :
    normal (joinAll path inner) =
      Trail.render (isAbsolute path) ⟨inner.reverse ++ trail path, false⟩ := by
  obtain ⟨front, name, rfl⟩ := (List.eq_nil_or_concat' inner).resolve_left hn
  have hnames : ∀ other ∈ front ++ [name], IsName other := fun other ho => (h other ho).toIsName
  have hname : IsStep name := h name (by simp)
  have hfile := fileName_joinAll path front hname.toIsName
  have hp : joinAll path (front ++ [name]) ≠ [] := by
    intro he
    rw [he] at hfile
    exact hname.ne_nil hfile.symm
  have hbody : (if isAbsolute path then (parts (joinAll path (front ++ [name]))).drop 1
      else parts (joinAll path (front ++ [name]))) = names path ++ front ++ [name] := by
    rw [parts_joinAll path hn hnames]
    cases isAbsolute path <;> simp
  unfold normal
  rw [if_neg (by simpa using hp)]
  dsimp only
  rw [isAbsolute_joinAll path hnames, hbody, List.foldl_append, List.foldl_cons, List.foldl_nil,
    Trail.add_step _ _ hname, Trail.names_foldl, List.foldl_append,
    Trail.descend_steps _ _ fun other ho => h other (List.mem_append_left _ ho)]
  simp [trail]

/-- Different names below a path lead to different places. -/
theorem normal_joinAll_inj {others : List Bytes} (hn : inner ≠ []) (ho : others ≠ [])
    (hi : ∀ name ∈ inner, IsStep name) (hi' : ∀ name ∈ others, IsStep name)
    (h : normal (joinAll path inner) = normal (joinAll path others)) : inner = others := by
  have hnames (inner : List Bytes) (hn : inner ≠ []) (hi : ∀ name ∈ inner, IsStep name) :
      names (normal (joinAll path inner)) = (trail path).reverse ++ inner := by
    have hall : ∀ name ∈ inner.reverse ++ trail path, IsName name := by
      intro name hm
      rcases List.mem_append.1 hm with hm | hm
      · exact (hi name (List.mem_reverse.1 hm)).toIsName
      · exact (isSettled_trail path).isName name hm
    rw [normal_joinAll path hn hi, Trail.names_render _ (by simp [hn]) hall, List.reverse_append,
      List.reverse_reverse]
  rw [← List.append_right_inj (trail path).reverse, ← hnames inner hn hi, h, hnames others ho hi']

theorem trail_of_names {rooted : Bool} {chain : List Bytes} (h : Trail.IsSettled rooted chain)
    (ha : isAbsolute path = rooted) (hn : names path = chain.reverse) : trail path = chain := by
  rw [trail, ha, hn, h.foldl_reverse]

/-- The spelling of a settled chain leads along it. -/
theorem trail_render (h : Trail.IsSettled rooted chain) :
    trail (Trail.render rooted ⟨chain, false⟩) = chain := by
  by_cases hn : chain = []
  · rw [hn]
    cases rooted <;> rfl
  · exact trail_of_names h (Trail.isAbsolute_render _ h.isName) (Trail.names_render _ hn h.isName)

theorem isAbsolute_slash (hp : path ≠ []) : isAbsolute (path ++ [slash]) = isAbsolute path := by
  obtain ⟨b, rest, rfl⟩ := List.exists_cons_of_ne_nil hp
  rfl

theorem trail_slash (hp : path ≠ []) : trail (path ++ [slash]) = trail path := by
  rw [trail, names_append_slash, isAbsolute_slash hp, trail]

theorem normal_ne_nil (hp : path ≠ []) : normal path ≠ [] := by
  obtain ⟨slashed, hr⟩ := normal_eq hp
  rw [hr]
  by_cases hn : trail path = []
  · rw [hn, Trail.render_nil]
    cases isAbsolute path <;> exact List.cons_ne_nil _ _
  · have hne := Trail.render_ne_nil (isAbsolute path) hn (isSettled_trail path).isName
    rcases Trail.render_cases (isAbsolute path) ⟨trail path, slashed⟩ with he | ⟨-, he⟩
    · rw [he]
      exact hne
    · rw [he]
      exact List.append_ne_nil_of_left_ne_nil hne _

/-- The normal form of a path leads where the path leads. -/
theorem trail_normal (path : FilePath) :
    trail (normal path) = trail path ∧ isAbsolute (normal path) = isAbsolute path := by
  by_cases hp : path = []
  · rw [hp]
    exact ⟨rfl, rfl⟩
  · obtain ⟨slashed, hr⟩ := normal_eq hp
    have hs := isSettled_trail path
    have ht : trail (Trail.render (isAbsolute path) ⟨trail path, false⟩) = trail path ∧
        isAbsolute (Trail.render (isAbsolute path) ⟨trail path, false⟩) = isAbsolute path :=
      ⟨trail_render hs, Trail.isAbsolute_render _ hs.isName⟩
    rw [hr]
    rcases Trail.render_cases (isAbsolute path) ⟨trail path, slashed⟩ with he | ⟨hn, he⟩
    · rw [he]
      exact ht
    · have hne := Trail.render_ne_nil (isAbsolute path) hn hs.isName
      rw [he, trail_slash hne, isAbsolute_slash hne]
      exact ht

/-- Going down from a normal path spells what lies below it, except from the path `.`. -/
theorem joinAll_render (hc : chain ≠ [] ∨ rooted = true) (h : ∀ name ∈ chain, IsName name)
    (hn : inner ≠ []) (hi : ∀ name ∈ inner, IsName name) :
    joinAll (Trail.render rooted ⟨chain, false⟩) inner =
      Trail.render rooted ⟨inner.reverse ++ chain, false⟩ := by
  have hall : ∀ name ∈ inner.reverse ++ chain, IsName name := by
    intro name hm
    rcases List.mem_append.1 hm with hm | hm
    · exact hi name (List.mem_reverse.1 hm)
    · exact h name hm
  rw [Trail.render_eq_joinAll _ (by simp [hn]) hall, List.reverse_append, List.reverse_reverse,
    joinAll_append]
  congr 1
  by_cases hne : chain = []
  · subst hne
    rw [hc.resolve_left (· rfl)]
    rfl
  · exact Trail.render_eq_joinAll _ hne h

theorem parts_render (rooted : Bool) (hn : chain ≠ []) (h : ∀ name ∈ chain, IsName name) :
    parts (Trail.render rooted ⟨chain, false⟩) =
      (if rooted then [[slash]] else []) ++ chain.reverse := by
  rw [Trail.render_eq_joinAll _ hn h, parts_joinAll _ (by simpa using hn) (by simpa using h)]
  cases rooted <;> rfl

theorem dropCommon_append (front above below : List Bytes) :
    dropCommon (front ++ above) (front ++ below) = dropCommon above below := by
  induction front with
  | nil => rfl
  | cons name front ih => rw [List.cons_append, List.cons_append, dropCommon, if_pos rfl, ih]

/-- Seen from a normal path, what lies below it is the names in between. -/
theorem relativeTo_render (h : Trail.IsSettled rooted chain) (hn : inner ≠ [])
    (hi : ∀ name ∈ inner, IsStep name) :
    relativeTo (Trail.render rooted ⟨inner.reverse ++ chain, false⟩)
      (Trail.render rooted ⟨chain, false⟩) = joinAll [] inner := by
  have hall : ∀ name ∈ inner.reverse ++ chain, IsName name := by
    intro name hm
    rcases List.mem_append.1 hm with hm | hm
    · exact (hi name (List.mem_reverse.1 hm)).toIsName
    · exact h.isName name hm
  obtain ⟨first, others, rfl⟩ := List.exists_cons_of_ne_nil hn
  have hfirst := hi first List.mem_cons_self
  -- The path `.` has a part of its own, which leads nowhere.
  obtain ⟨below, hb, hbelow⟩ : ∃ below, parts (Trail.render rooted ⟨chain, false⟩) =
      (if rooted then [[slash]] else []) ++ chain.reverse ++ below ∧
        (below = [] ∨ below = [[dot]]) := by
    by_cases hc : chain = []
    · subst hc
      cases rooted with
      | true => exact ⟨[], rfl, .inl rfl⟩
      | false => exact ⟨[[dot]], rfl, .inr rfl⟩
    · exact ⟨[], by rw [parts_render _ hc h.isName, List.append_nil], .inl rfl⟩
  have hd : dropCommon (first :: others) below = (first :: others, below) := by
    rcases hbelow with rfl | rfl
    · rfl
    · rw [dropCommon, if_neg hfirst.ne_dot]
  unfold relativeTo
  rw [Trail.isAbsolute_render _ hall, Trail.isAbsolute_render _ h.isName,
    if_neg (not_not_intro rfl), parts_render _ (by simp) hall, hb, List.reverse_append,
    List.reverse_reverse, ← List.append_assoc, dropCommon_append, hd]
  rcases hbelow with rfl | rfl <;> simp [levels, hfirst.ne_nil, joinAll]

end ManifestScan.FilePath
