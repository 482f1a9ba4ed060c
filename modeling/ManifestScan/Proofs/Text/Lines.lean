import ManifestScan.Proofs.Text.Trim
import ManifestScan.Text.Block

namespace ManifestScan

/-- The text in front of the first `b`. -/
theorem takeWhile_ne_append {b : UInt8} {text rest : Bytes} (ht : b ∉ text)
    (hr : rest.head?.all (· == b) = true) : (text ++ rest).takeWhile (· != b) = text := by
  have htext : ∀ c ∈ text, (c != b) = true := fun c hc => bne_iff_ne.2 fun he => ht (he ▸ hc)
  rw [List.takeWhile_append_of_pos htext]
  cases rest with
  | nil => exact List.append_nil text
  | cons c rest => rw [List.takeWhile_cons_of_neg (by simpa using hr), List.append_nil]

theorem fields_ne_nil (separator : UInt8) (text : Bytes) : fields separator text ≠ [] := by
  fun_induction fields separator text with
  | case1 => exact List.cons_ne_nil _ _
  | case2 => exact List.cons_ne_nil _ _
  | case3 => exact List.cons_ne_nil _ _
  | case4 => exact List.cons_ne_nil _ _

theorem fields_append (separator : UInt8) (text more : Bytes) :
    fields separator (text ++ separator :: more) =
      fields separator text ++ fields separator more := by
  fun_induction fields separator text with
  | case1 => simp [fields]
  | case2 rest ih => simp [fields, ih]
  | case3 b rest hb hr ih => exact absurd hr (fields_ne_nil _ _)
  | case4 b rest hb field others hr ih =>
    rw [hr] at ih
    simp [fields, hb, ih]

theorem joinWith_cons (separator : Bytes) {field : Bytes} {others : List Bytes} (ho : others ≠ []) :
    joinWith separator (field :: others) = field ++ (separator ++ joinWith separator others) := by
  cases others with
  | nil => exact absurd rfl ho
  | cons other others => rw [joinWith, List.append_assoc]; simp

theorem head?_joinWith {separator first : Bytes} (hf : first ≠ []) (others : List Bytes) :
    (joinWith separator (first :: others)).head? = first.head? := by
  obtain ⟨b, rest, rfl⟩ := List.exists_cons_of_ne_nil hf
  cases others with
  | nil => rfl
  | cons other others =>
    rw [joinWith_cons _ (List.cons_ne_nil _ _)]
    rfl

/-- The fields joined again are the text. -/
theorem joinWith_fields (separator : UInt8) (text : Bytes) :
    joinWith [separator] (fields separator text) = text := by
  fun_induction fields separator text with
  | case1 => rfl
  | case2 rest ih =>
    rw [joinWith_cons _ (fields_ne_nil _ _), ih]
    rfl
  | case3 b rest hb hr ih => exact absurd hr (fields_ne_nil _ _)
  | case4 b rest hb field others hr ih =>
    rw [hr] at ih
    cases others with
    | nil => rw [← ih]; rfl
    | cons other others => rw [← ih]; rfl

theorem joinWith_append (separator : Bytes) {fields others : List Bytes} (hf : fields ≠ [])
    (ho : others ≠ []) :
    joinWith separator (fields ++ others) =
      joinWith separator fields ++ (separator ++ joinWith separator others) := by
  induction fields with
  | nil => exact absurd rfl hf
  | cons field fields ih =>
    by_cases hn : fields = []
    · rw [hn]
      exact joinWith_cons separator ho
    · rw [List.cons_append, joinWith_cons _ (by simp [hn]), joinWith_cons _ hn, ih hn]
      simp only [List.append_assoc]

/-- What is in front of the first separator starts the first field. -/
theorem fields_append_of_not_mem {separator : UInt8} {text : Bytes} (h : separator ∉ text)
    (more : Bytes) : ∃ field others, fields separator more = field :: others ∧
      fields separator (text ++ more) = (text ++ field) :: others := by
  induction text with
  | nil =>
    cases hf : fields separator more with
    | nil => exact absurd hf (fields_ne_nil _ _)
    | cons field others => exact ⟨field, others, rfl, hf⟩
  | cons b text ih =>
    obtain ⟨field, others, hf, ht⟩ := ih fun hm => h (by simp [hm])
    refine ⟨field, others, hf, ?_⟩
    rw [List.cons_append, fields, if_neg (fun hb => h (by simp [hb])), ht]
    rfl

theorem fields_of_notMem {separator : UInt8} {text : Bytes} (h : separator ∉ text) :
    fields separator text = [text] := by
  obtain ⟨field, others, hf, ht⟩ := fields_append_of_not_mem h []
  cases hf
  simpa using ht

/-- Texts without the separator are the fields of what they are joined to. -/
theorem fields_joinWith {separator : UInt8} {texts : List Bytes} (hn : texts ≠ [])
    (h : ∀ text ∈ texts, separator ∉ text) :
    fields separator (joinWith [separator] texts) = texts := by
  induction texts with
  | nil => exact absurd rfl hn
  | cons text others ih =>
    have ht := h text List.mem_cons_self
    by_cases ho : others = []
    · subst ho
      exact fields_of_notMem ht
    · rw [joinWith_cons _ ho, List.singleton_append, fields_append, fields_of_notMem ht,
        ih ho fun other hm => h other (List.mem_cons_of_mem _ hm)]
      rfl

/-- Lines that each end with a separator. -/
theorem flatMap_ends (separator : UInt8) {texts : List Bytes} (hn : texts ≠ []) :
    texts.flatMap (· ++ [separator]) = joinWith [separator] texts ++ [separator] := by
  induction texts with
  | nil => exact absurd rfl hn
  | cons text others ih =>
    rw [List.flatMap_cons]
    by_cases ho : others = []
    · subst ho
      simp [joinWith]
    · rw [joinWith_cons _ ho, ih ho]
      simp only [List.append_assoc]

theorem notMem_joinWith {b : UInt8} {separator : Bytes} (hs : b ∉ separator) {texts : List Bytes}
    (h : ∀ text ∈ texts, b ∉ text) : b ∉ joinWith separator texts := by
  induction texts with
  | nil => exact nofun
  | cons text others ih =>
    have ht := h text List.mem_cons_self
    by_cases ho : others = []
    · subst ho
      exact ht
    · rw [joinWith_cons _ ho]
      simp only [List.mem_append, not_or]
      exact ⟨ht, hs, ih fun other hm => h other (List.mem_cons_of_mem _ hm)⟩

theorem length_joinWith_replicate (separator : UInt8) (text : Bytes) (n : Nat) :
    (joinWith [separator] (List.replicate (n + 1) text)).length + 1 =
      (n + 1) * (text.length + 1) := by
  induction n with
  | zero => exact (Nat.one_mul _).symm
  | succ n ih =>
    have hn : List.replicate (n + 1) text ≠ [] := List.cons_ne_nil _ _
    rw [List.replicate_succ, joinWith_cons _ hn, Nat.succ_mul, ← ih]
    simp only [List.length_append, List.length_singleton]
    omega

theorem mem_joinWith {b : UInt8} {separator field : Bytes} {texts : List Bytes} (hf : field ∈ texts)
    (hb : b ∈ field) : b ∈ joinWith separator texts := by
  induction texts with
  | nil => cases hf
  | cons text others ih =>
    by_cases ho : others = []
    · subst ho
      rwa [List.mem_singleton.1 hf] at hb
    · rw [joinWith_cons _ ho]
      rcases List.mem_cons.1 hf with rfl | hf
      · exact List.mem_append_left _ hb
      · exact List.mem_append_right _ (List.mem_append_right _ (ih hf))

theorem notMem_of_mem_fields {separator : UInt8} {text field : Bytes}
    (h : field ∈ fields separator text) : separator ∉ field := by
  fun_induction fields separator text generalizing field with
  | case1 =>
    rw [List.mem_singleton.1 h]
    exact List.not_mem_nil
  | case2 rest ih =>
    rcases List.mem_cons.1 h with rfl | h
    · exact List.not_mem_nil
    · exact ih h
  | case3 c rest _ hr => exact absurd hr (fields_ne_nil _ _)
  | case4 c rest hc first others hr ih =>
    rw [hr] at ih
    rcases List.mem_cons.1 h with rfl | h
    · rw [List.mem_cons, not_or]
      exact ⟨Ne.symm hc, ih List.mem_cons_self⟩
    · exact ih (List.mem_cons_of_mem _ h)

/-- A byte of a text is a separator or in one of the fields. -/
theorem mem_fields {separator b : UInt8} {text : Bytes} (h : b ∈ text) :
    b = separator ∨ ∃ field ∈ fields separator text, b ∈ field := by
  fun_induction fields separator text with
  | case1 => cases h
  | case2 rest ih =>
    rcases List.mem_cons.1 h with rfl | h
    · exact .inl rfl
    · refine (ih h).imp_right ?_
      rintro ⟨field, hf, hb⟩
      exact ⟨field, List.mem_cons_of_mem _ hf, hb⟩
  | case3 c rest _ hr => exact absurd hr (fields_ne_nil _ _)
  | case4 c rest hc field others hr ih =>
    rcases List.mem_cons.1 h with rfl | h
    · exact .inr ⟨_, List.mem_cons_self, List.mem_cons_self⟩
    · refine (ih h).imp_right ?_
      rintro ⟨found, hf, hb⟩
      rw [hr] at hf
      rcases List.mem_cons.1 hf with rfl | hf
      · exact ⟨_, List.mem_cons_self, List.mem_cons_of_mem _ hb⟩
      · exact ⟨found, List.mem_cons_of_mem _ hf, hb⟩

/-- What follows the last separator ends the last field. -/
theorem fields_append_last {separator : UInt8} {more : Bytes} (h : separator ∉ more)
    (text : Bytes) :
    ∃ front field, fields separator text = front ++ [field] ∧
      fields separator (text ++ more) = front ++ [field ++ more] := by
  obtain ⟨front, field, hf⟩ : ∃ front field, fields separator text = front ++ [field] :=
    ⟨_, _, (List.dropLast_concat_getLast (fields_ne_nil separator text)).symm⟩
  have hmem : ∀ other ∈ front ++ [field], separator ∉ other := by
    rw [← hf]
    exact fun other => notMem_of_mem_fields
  have htext : text ++ more = joinWith [separator] (front ++ [field ++ more]) := by
    have hj := joinWith_fields separator text
    rw [hf] at hj
    rw [← hj]
    by_cases hn : front = []
    · rw [hn]
      rfl
    · rw [joinWith_append _ hn (List.cons_ne_nil _ _), joinWith_append _ hn (List.cons_ne_nil _ _)]
      simp only [joinWith, List.append_assoc]
  refine ⟨front, field, hf, ?_⟩
  rw [htext, fields_joinWith (by simp) fun other ho => ?_]
  rcases List.mem_append.1 ho with ho | ho
  · exact hmem other (List.mem_append_left _ ho)
  · rw [List.mem_singleton.1 ho, List.mem_append, not_or]
    exact ⟨hmem field (List.mem_append_right _ List.mem_cons_self), h⟩

theorem fields_filter {separator : UInt8} {p : UInt8 → Bool} (hp : p separator = true)
    (text : Bytes) :
    fields separator (text.filter p) = (fields separator text).map (·.filter p) := by
  fun_induction fields separator text with
  | case1 => rfl
  | case2 rest ih =>
    rw [List.filter_cons_of_pos hp, fields, if_pos rfl, ih]
    rfl
  | case3 b rest hb hr ih => exact absurd hr (fields_ne_nil _ _)
  | case4 b rest hb field others hr ih =>
    rw [hr] at ih
    by_cases hk : p b = true
    · rw [List.filter_cons_of_pos hk, fields, if_neg hb, ih]
      simp [hk]
    · rw [List.filter_cons_of_neg hk, ih]
      simp [hk]

theorem isBlank_of_isSpace (b : UInt8) (h : isSpace b = true) : isBlank b = true := by
  have hb : b = space ∨ b = tab := by simpa [isSpace] using h
  rcases hb with rfl | rfl <;> rfl

theorem isIdleLine_append {blanks : Bytes} (hb : ∀ c ∈ blanks, isBlank c = true) (text : Bytes) :
    isIdleLine (blanks ++ text) = isIdleLine text := by
  unfold isIdleLine trim trimLeft
  rw [List.dropWhile_append_of_pos hb]

/-- The first byte behind its blanks says whether a line has content. -/
theorem isIdleLine_append_cons {blanks : Bytes} (hb : ∀ c ∈ blanks, isBlank c = true) {b : UInt8}
    (hn : isBlank b = false) (text : Bytes) :
    isIdleLine (blanks ++ b :: text) = (b == hash) := by
  have h := @head?_trim _ text hb _ hn
  unfold isIdleLine
  cases ht : trim (blanks ++ b :: text) with
  | nil =>
    rw [ht] at h
    cases h
  | cons c more =>
    rw [ht] at h
    cases h
    rfl

/-- A line whose first byte behind its blanks is no hash has content. -/
theorem isIdleLine_of_content {blanks : Bytes} (hb : ∀ c ∈ blanks, isBlank c = true) {b : UInt8}
    (hn : isBlank b = false) (hh : b ≠ hash) (text : Bytes) :
    isIdleLine (blanks ++ b :: text) = false := by
  rw [isIdleLine_append_cons hb hn]
  exact beq_false_of_ne hh

namespace Block

theorem stopOf_idle {dropped : List Bytes} (hd : ∀ line ∈ dropped, isIdleLine line = true)
    (width : Option Nat) (start stop : Nat) : stopOf width start stop dropped = stop := by
  induction dropped generalizing start with
  | nil => rfl
  | cons line dropped ih =>
    rw [stopOf, if_pos (hd line (by simp))]
    exact ih (fun other ho => hd other (by simp [ho])) _

/-- Lines without content at the end do not belong to a block. -/
theorem stopOf_append_idle {dropped : List Bytes} (hd : ∀ line ∈ dropped, isIdleLine line = true)
    (width : Option Nat) (start stop : Nat) (kept : List Bytes) :
    stopOf width start stop (kept ++ dropped) = stopOf width start stop kept := by
  induction kept generalizing width start stop with
  | nil => exact stopOf_idle hd width start stop
  | cons line kept ih =>
    rw [List.cons_append, stopOf, stopOf]
    dsimp only
    simp only [ih]

/-- A block reaches up to its last line with content, when no line is indented by less. -/
theorem stopOf_content {least : Nat} {kept : List Bytes} {last : Bytes}
    (hk : ∀ line ∈ kept, isIdleLine line = true ∨ least ≤ indentation line)
    (hl : isIdleLine last = false) (hi : least ≤ indentation last) (start stop : Nat) :
    stopOf (some least) start stop (kept ++ [last]) =
      start + (joinWith [lineFeed] (kept ++ [last])).length := by
  induction kept generalizing start stop with
  | nil =>
    rw [List.nil_append, stopOf, if_neg (by simp [hl])]
    dsimp only
    rw [if_neg (Nat.not_lt.2 hi)]
    rfl
  | cons line kept ih =>
    have hn : kept ++ [last] ≠ [] := by simp
    have ih := ih (fun other ho => hk other (by simp [ho]))
    rw [List.cons_append, joinWith_cons _ hn, stopOf]
    simp only [List.length_append, List.length_singleton]
    by_cases hx : isIdleLine line = true
    · rw [if_pos hx, ih]
      omega
    · rw [if_neg hx, if_neg (Nat.not_lt.2 ((hk line (by simp)).resolve_left hx)), ih]
      omega

/-- The block of lines whose first has content, and no later line with content is
indented by less. -/
theorem stopOf_block {first : Bytes} {kept : List Bytes} (hf : isIdleLine first = false)
    (hi : 0 < indentation first)
    (hk : ∀ line ∈ kept, isIdleLine line = true ∨ indentation first ≤ indentation line)
    (hl : ∀ last, (first :: kept).getLast? = some last → isIdleLine last = false) (start : Nat) :
    stopOf none start start (first :: kept) =
      start + (joinWith [lineFeed] (first :: kept)).length := by
  rw [stopOf, if_neg (by simp [hf])]
  dsimp only
  rw [if_neg (by omega)]
  -- The last line has content and is indented enough, or the first line is the last.
  obtain rfl | ⟨kept, last, rfl⟩ := List.eq_nil_or_concat kept
  · rfl
  · rw [List.concat_eq_append] at hk hl ⊢
    have hlast := hl last (by rw [← List.cons_append, List.getLast?_concat])
    have hleast := (hk last (by simp)).resolve_left (by simp [hlast])
    rw [stopOf_content (fun line hm => hk line (by simp [hm])) hlast hleast,
      joinWith_cons _ (by simp)]
    simp only [List.length_append, List.length_singleton]
    omega

end Block

/-- The block below a colon behind which its line holds a comment at most. -/
theorem blockBody_idle {source header text : Bytes} {opening : Nat}
    (h : source.drop opening = colon :: (header ++ lineFeed :: text)) (hn : lineFeed ∉ header)
    (hi : isIdleLine header = true) :
    let start := opening + 1 + header.length + 1
    blockBody source opening = ⟨start, Block.stopOf none start start (lines text)⟩ := by
  have hlength := congrArg List.length h
  rw [List.length_drop] at hlength
  simp only [List.length_cons, List.length_append] at hlength
  have hd : source.drop (opening + 1 + header.length + 1) = text := by
    have he : source.drop opening = (colon :: header ++ [lineFeed]) ++ text := by
      rw [h]
      simp
    have hsum : opening + 1 + header.length + 1 =
        opening + (colon :: header ++ [lineFeed]).length := by
      simp only [List.length_append, List.length_cons, List.length_nil]
      omega
    rw [hsum, ← List.drop_drop, he, List.drop_left]
  have hw : (header ++ lineFeed :: text).takeWhile (· != lineFeed) = header :=
    takeWhile_ne_append hn rfl
  have hc : colon ≠ lineFeed := by decide
  unfold blockBody
  rw [h]
  dsimp only
  rw [if_neg hc, if_neg hc, if_neg hc, hw, hi, if_neg (by decide), if_pos (by omega), hd]

/-- The block below a colon at the end of its line. -/
theorem blockBody_below {source text : Bytes} {opening : Nat}
    (h : source.drop opening = colon :: lineFeed :: text) :
    blockBody source opening =
      ⟨opening + 2, Block.stopOf none (opening + 2) (opening + 2) (lines text)⟩ :=
  @blockBody_idle source [] text opening h List.not_mem_nil rfl

end ManifestScan
