import ManifestScan.Proofs.Signature.Parameter
import ManifestScan.Proofs.Signature.Statement

namespace ManifestScan

/-- A word that goes on behind a text starts it already, where the next byte is not in the word. -/
theorem startsWith_of_append {word text rest : Bytes} (hr : ∀ b ∈ rest.head?, b ∉ word)
    (h : startsWith word (text ++ rest) = true) : startsWith word text = true := by
  induction word generalizing text with
  | nil => rfl
  | cons w word ih =>
    cases text with
    | nil =>
      cases rest with
      | nil => cases h
      | cons b rest =>
        have hb : b ≠ w := fun he => hr b rfl (he ▸ List.mem_cons_self)
        unfold startsWith at h
        rw [List.nil_append, afterWord?, if_neg hb] at h
        cases h
    | cons c text =>
      unfold startsWith at h ⊢
      rw [List.cons_append, afterWord?] at h
      rw [afterWord?]
      split at h
      · rename_i hc
        rw [if_pos hc]
        exact ih (fun b hb hm => hr b hb (List.mem_cons_of_mem _ hm)) h
      · cases h

/-- The blanks at the end of a text. -/
theorem exists_trimmed_end (text : Bytes) : ∃ kept back, text = kept ++ back ∧
    (∀ b ∈ back, isBlank b = true) ∧ ∀ b ∈ kept.getLast?, isBlank b = false := by
  refine ⟨(text.reverse.dropWhile isBlank).reverse, (text.reverse.takeWhile isBlank).reverse,
    ?_, ?_, ?_⟩
  · rw [← List.reverse_append, List.takeWhile_append_dropWhile, List.reverse_reverse]
  · intro b hb
    exact List.mem_takeWhile_imp (List.mem_reverse.1 hb)
  · intro b hb
    rw [List.getLast?_reverse] at hb
    have := List.head?_dropWhile_not isBlank text.reverse
    rw [Option.mem_def.1 hb] at this
    exact this

theorem isSpace_inert : ∀ b, isSpace b = true → isBlank b = true ∧ Lexeme.isInert b = true ∧
    b ≠ lineFeed := by
  decide +kernel

theorem lineFeed_notMem_blanks {blanks : Bytes} (hb : ∀ b ∈ blanks, isSpace b = true) :
    lineFeed ∉ blanks := fun hm => (isSpace_inert _ (hb _ hm)).2.2 rfl

namespace Parameter.Written

variable {written : Written}

theorem lineFeed_notMem (h : written.IsProper) : lineFeed ∉ written.text := by
  have hname : lineFeed ∉ written.name := notMem_of_isIdentifier h.name (by decide)
  have hhead : lineFeed ∉ written.head := by
    unfold head
    cases hh : written.hint with
    | none => simpa using hname
    | some hint =>
      have : lineFeed ∉ ascii ": " := by decide
      simp [hname, this, (h.hint hint hh).1.lineFeed_notMem]
  unfold text
  cases hd : written.default with
  | none => simpa using hhead
  | some default =>
    have : lineFeed ∉ ascii " = " := by decide
    simp [hhead, this, (h.default default hd).lineFeed_notMem]

/-- The first colon outside brackets is the one in front of the hint. -/
theorem text_of_hint (h : written.IsProper) {hint : Bytes} (hh : written.hint = some hint) :
    ∃ tail, written.text = written.name ++ colon :: space :: (hint ++ tail) ∧
      outerPosition? colon written.text = some written.name.length ∧
      IsTrimmed (hint ++ tail) ∧ tail.head?.all (· == space) = true := by
  have hname := inert_of_isIdentifier h.name
  have hmem : colon ∉ written.name := notMem_of_isIdentifier h.name (by decide)
  have hhint := (h.hint hint hh).1.isTrimmed
  refine ⟨written.default.elim [] (ascii " = " ++ ·), ?_⟩
  have he : written.text =
      written.name ++ colon :: space :: (hint ++ written.default.elim [] (ascii " = " ++ ·)) := by
    unfold text
    rw [head_of_hint hh]
    simp
  refine ⟨he, ?_, ?_, ?_⟩
  · rw [he, hname.outerPosition?_append hmem, outerPosition?_self (by decide), Option.map_some,
      Nat.zero_add]
  · cases hd : written.default with
    | none => simpa using hhint
    | some default => exact hhint.append (h.default default hd).isTrimmed _
  · cases written.default <;> rfl

end Parameter.Written

theorem Parameter.length_foldl_addTo (parameters others : List Parameter) :
    (others.foldl addTo parameters).length ≤ parameters.length + others.length := by
  induction others generalizing parameters with
  | nil => exact Nat.le_refl _
  | cons other others ih =>
    have hadd : (addTo parameters other).length ≤ parameters.length + 1 := by
      unfold addTo
      split <;> simp
    have := ih (addTo parameters other)
    rw [List.foldl_cons, List.length_cons]
    omega

structure FieldLine where
  field : Parameter.Written
  comment : Option Bytes

namespace FieldLine

def remark (line : FieldLine) : Bytes := line.comment.elim [] (ascii "  #" ++ ·)

def text (line : FieldLine) : Bytes := line.field.text ++ line.remark

structure IsProper (line : FieldLine) : Prop where
  field : line.field.IsProper
  hint : ∃ hint ∈ line.field.hint, startsWith (ascii "ClassVar") hint = false
  name : line.field.name ∉ Parameter.reservedFields
  comment : ∀ comment ∈ line.comment, lineFeed ∉ comment

theorem isProper_iff {line : FieldLine} : line.IsProper ↔ line.field.IsProper ∧
    line.field.hint.any (!startsWith (ascii "ClassVar") ·) = true ∧
      line.field.name ∉ Parameter.reservedFields ∧
        ∀ comment ∈ line.comment, lineFeed ∉ comment := by
  have hhint : (∃ hint ∈ line.field.hint, startsWith (ascii "ClassVar") hint = false) ↔
      line.field.hint.any (!startsWith (ascii "ClassVar") ·) = true := by
    cases line.field.hint <;> simp
  exact ⟨fun h => ⟨h.field, hhint.1 h.hint, h.name, h.comment⟩,
    fun ⟨hf, hh, hn, hc⟩ => ⟨hf, hhint.2 hh, hn, hc⟩⟩

instance (line : FieldLine) : Decidable line.IsProper := decidable_of_iff _ isProper_iff.symm

/-- Read like code, what stands behind the field leaves no bracket and no literal open. -/
def IsClosed (line : FieldLine) : Prop :=
  outerPosition? lineFeed (line.remark ++ [lineFeed]) = some line.remark.length

instance (line : FieldLine) : Decidable line.IsClosed := inferInstanceAs (Decidable (_ = _))

section

variable {line : FieldLine} (h : line.IsProper)

include h

theorem dropComments_line {blanks : Bytes} (hb : ∀ b ∈ blanks, isBlank b = true) :
    trim (dropComments (trim (blanks ++ line.text))) = line.field.text := by
  have htrimmed := Parameter.Written.isTrimmed_text h.field
  have hpart := Parameter.Written.isPart_text h.field
  unfold text remark
  cases hc : line.comment with
  | none =>
    rw [Option.elim_none, htrimmed.trim_padded hb (List.forall_mem_nil _), hpart.dropComments_eq,
      htrimmed.trim_eq]
  | some comment =>
    -- A comment's last blanks are trimmed with the line, so the comment that is cut ends earlier.
    obtain ⟨kept, back, rfl, hback, hlast⟩ := exists_trimmed_end comment
    have hmark : IsTrimmed (hash :: kept) := by
      refine ⟨List.cons_ne_nil _ _, fun b hf => ?_, fun b hl => ?_⟩
      · cases hf
        decide
      · cases kept with
        | nil =>
          cases hl
          decide
        | cons c kept => exact hlast b (by simpa using hl)
    have hshort := (htrimmed.append hmark (ascii "  ")).trim_padded hb hback
    have htext : blanks ++ (line.field.text ++ (some (kept ++ back)).elim [] (ascii "  #" ++ ·)) =
        blanks ++ (line.field.text ++ (ascii "  " ++ hash :: kept) ++ back) := by
      have hs : ascii "  #" = ascii "  " ++ [hash] := by decide
      simp [hs]
    have hkept : ∀ b ∈ kept, (b != lineFeed) = true := fun b hm => bne_iff_ne.2 fun he =>
      h.comment _ hc (List.mem_append_left _ (he ▸ hm))
    have hblank : Lexeme.Inert (ascii "  ") := fun b hb => List.all_eq_true.1 (by decide) b hb
    have hcut : codePieces (line.field.text ++ (ascii "  " ++ hash :: kept)) =
        codePieces line.field.text ++ ((ascii "  ").map .byte ++ [.comment (hash :: kept)]) := by
      have hcomment := @Piece.cut_comment kept [] hkept rfl
      rw [List.append_nil, Piece.codePieces_nil] at hcomment
      have hboundary : IsBoundary (ascii "  " ++ hash :: kept) := .cons (by decide) _
      rw [hpart.append _ hboundary, Lexeme.codePieces_inert hblank, hcomment]
    have hdrop : dropComments (line.field.text ++ (ascii "  " ++ hash :: kept)) =
        line.field.text ++ ascii "  " := by
      have hfield := hpart.dropComments_eq
      unfold dropComments at hfield ⊢
      rw [hcut, List.flatMap_append, hfield]
      rfl
    rw [htext, hshort, hdrop]
    exact htrimmed.trim_padded (List.forall_mem_nil _) (by decide +kernel)

/-- The statement of a line declares its field. -/
theorem fieldOf?_line {blanks : Bytes} (hb : ∀ b ∈ blanks, isBlank b = true) :
    Parameter.fieldOf? (blanks ++ line.text) = some line.field.parameter := by
  obtain ⟨hint, hh, hclass⟩ := h.hint
  obtain ⟨tail, htext, hcolon, htrimmed, htail⟩ := Parameter.Written.text_of_hint h.field hh
  have hname : trim (line.field.text.take line.field.name.length) = line.field.name := by
    rw [htext, List.take_left, trim_name (all_isNameByte h.field.name)]
  have hafter : trim (line.field.text.drop (line.field.name.length + 1)) = hint ++ tail := by
    rw [htext, List.drop_length_add_append, List.drop_one, List.tail_cons]
    have hblank : ∀ b ∈ [space], isBlank b = true := List.forall_mem_singleton.2 (by decide)
    have := htrimmed.trim_padded hblank (List.forall_mem_nil _)
    rwa [List.append_nil] at this
  have hkeyword : startsWith (ascii "ClassVar") (hint ++ tail) = false := by
    rw [Bool.eq_false_iff]
    intro hs
    rw [startsWith_of_append (fun b hm => ?_) hs] at hclass
    · cases hclass
    · rw [Option.mem_def] at hm
      rw [hm] at htail
      rw [beq_iff_eq.1 htail]
      decide
  have hreserved : Parameter.reservedFields.contains line.field.name = false := by
    simpa using h.name
  unfold Parameter.fieldOf?
  rw [dropComments_line h hb]
  dsimp only
  rw [hcolon]
  dsimp only
  rw [hname, hafter, hkeyword, hreserved, if_pos ⟨h.field.name, rfl, rfl⟩]
  exact Parameter.Written.ofText?_text h.field

theorem lineFeed_notMem : lineFeed ∉ line.text := by
  unfold text remark
  cases hc : line.comment with
  | none => simpa using Parameter.Written.lineFeed_notMem h.field
  | some comment =>
    have : lineFeed ∉ ascii "  #" := by decide
    simp [Parameter.Written.lineFeed_notMem h.field, this, h.comment comment hc]

section

variable {blanks : Bytes} (hb : ∀ b ∈ blanks, isSpace b = true)

include hb

theorem line_content (rest : Bytes) : isIdleLine (blanks ++ (line.field.text ++ rest)) = false ∧
    indentation (blanks ++ (line.field.text ++ rest)) = indentation blanks := by
  have hname : ∀ b, isNameByte b = true → isBlank b = false ∧ b ≠ hash ∧ isSpace b = false := by
    decide +kernel
  obtain ⟨b, more, hb', htext⟩ := Parameter.Written.text_cons h.field
  obtain ⟨hblank, hhash, hspace⟩ := hname b hb'
  have htake (more : Bytes) (hm : more.head?.any isSpace = false) :
      (blanks ++ more).takeWhile isSpace = blanks := by
    rw [List.takeWhile_append_of_pos hb]
    cases more with
    | nil => exact List.append_nil _
    | cons c more => rw [List.takeWhile_cons_of_neg (by simpa using hm), List.append_nil]
  have hall := htake [] rfl
  rw [List.append_nil] at hall
  rw [htext, List.cons_append]
  refine ⟨isIdleLine_of_content (fun c hc => (isSpace_inert c (hb c hc)).1) hblank hhash _, ?_⟩
  unfold indentation
  rw [htake (b :: (more ++ rest)) hspace, hall]

theorem lineFeed_notMem_line : lineFeed ∉ blanks ++ line.text := fun hm =>
  (List.mem_append.1 hm).elim (lineFeed_notMem_blanks hb) (lineFeed_notMem h)

/-- The first line break outside brackets and literals comes behind the field. -/
theorem outerPosition?_line (rest : Bytes) (hr : rest.head?.all (· == lineFeed) = true) :
    outerPosition? lineFeed (blanks ++ (line.text ++ rest)) =
      (outerPosition? lineFeed (line.remark ++ rest)).map
        (· + (blanks ++ line.field.text).length) := by
  have hinert : Lexeme.Inert blanks := fun b hm => (isSpace_inert b (hb b hm)).2.1
  have hboundary : IsBoundary (line.remark ++ rest) := by
    unfold remark
    cases line.comment with
    | none =>
      intro b hm
      rw [Option.mem_def] at hm
      rw [Option.elim_none, List.nil_append] at hm
      rw [hm] at hr
      rw [beq_iff_eq.1 hr]
      decide
    | some comment => exact .cons (by decide) _
  rw [hinert.outerPosition?_append (lineFeed_notMem_blanks hb), text, List.append_assoc,
    (Parameter.Written.isPart_text h.field).outerPosition?_append hboundary
      (outerPosition?_of_notMem (Parameter.Written.lineFeed_notMem h.field)),
    Option.map_map]
  refine congrArg (Option.map · _) (funext fun i => ?_)
  simp only [Function.comp_apply, List.length_append]
  omega

/-- A line is a statement of its own if and only if nothing is left open behind its field. -/
theorem isClosed_iff (rest : Bytes) :
    outerPosition? lineFeed ((blanks ++ line.text) ++ lineFeed :: rest) =
      some (blanks ++ line.text).length ↔ line.IsClosed := by
  have hlength : (blanks ++ line.text).length =
      line.remark.length + (blanks ++ line.field.text).length := by
    simp only [text, List.length_append]
    omega
  have hcongr (rest others : Bytes) :
      outerPosition? lineFeed (line.remark ++ lineFeed :: rest) = some line.remark.length →
        outerPosition? lineFeed (line.remark ++ lineFeed :: others) = some line.remark.length := by
    intro hp
    have := @Bracket.positionOf?_congr lineFeed (by decide) line.remark rest 0 0
    rw [Nat.zero_add] at this
    exact this hp others
  rw [List.append_assoc, outerPosition?_line h hb _ rfl, hlength, Option.map_eq_some_iff]
  constructor
  · rintro ⟨i, hi, he⟩
    rw [Nat.add_right_cancel he] at hi
    exact hcongr rest [] hi
  · exact fun hc => ⟨_, hcongr [] rest hc, rfl⟩

end

end

def body (blanks : Bytes) : List FieldLine → Bytes
  | [] => []
  | [line] => blanks ++ line.field.text
  | line :: next :: others => blanks ++ (line.text ++ lineFeed :: body blanks (next :: others))

section

variable {lines : List FieldLine} (h : ∀ line ∈ lines, line.IsProper) {blanks : Bytes}
  (hb : ∀ b ∈ blanks, isSpace b = true)

include h hb

theorem count_body : (body blanks lines).count lineFeed = lines.length - 1 := by
  fun_induction body blanks lines with
  | case1 => rfl
  | case2 line =>
    have hline := h line List.mem_cons_self
    rw [List.count_append, List.count_eq_zero_of_not_mem (lineFeed_notMem_blanks hb),
      List.count_eq_zero_of_not_mem (Parameter.Written.lineFeed_notMem hline.field)]
    rfl
  | case3 line next others ih =>
    obtain ⟨hline, hothers⟩ := List.forall_mem_cons.1 h
    rw [← List.append_assoc, List.count_append,
      List.count_eq_zero_of_not_mem (lineFeed_notMem_line hline hb), List.count_cons_self,
      ih hothers]
    simp

/-- Where nothing is left open, the statements of a body declare its fields. -/
theorem filterMap_statements (hc : ∀ line ∈ lines.dropLast, line.IsClosed) :
    (Signature.statements (indentation blanks) (body blanks lines)).filterMap Parameter.fieldOf? =
      lines.map (·.field.parameter) := by
  have hblank : ∀ b ∈ blanks, isBlank b = true := fun b hm => (isSpace_inert b (hb b hm)).1
  fun_induction body blanks lines with
  | case1 => rw [Signature.statements_nil]; rfl
  | case2 line =>
    have hline := h line List.mem_cons_self
    obtain ⟨hidle, hcolumn⟩ := line_content hline hb []
    rw [List.append_nil] at hidle hcolumn
    have hbare : (FieldLine.mk line.field none).IsProper :=
      ⟨hline.field, hline.hint, hline.name, nofun⟩
    have hn := lineFeed_notMem_line hbare hb
    have hfield := fieldOf?_line hbare hblank
    have htext : (FieldLine.mk line.field none).text = line.field.text := List.append_nil _
    rw [htext] at hn hfield
    rw [Signature.statements_last hn hidle hcolumn (outerPosition?_of_notMem hn),
      List.filterMap_cons_some hfield]
    rfl
  | case3 line next others ih =>
    obtain ⟨hline, hothers⟩ := List.forall_mem_cons.1 h
    rw [List.dropLast_cons_cons, List.forall_mem_cons] at hc
    obtain ⟨hidle, hcolumn⟩ := line_content hline hb line.remark
    rw [← List.append_assoc,
      Signature.statements_closed (lineFeed_notMem_line hline hb) hidle hcolumn
      ((isClosed_iff hline hb _).2 hc.1), List.filterMap_cons_some (fieldOf?_line hline hblank),
      ih hothers hc.2]
    rfl

/-- Where something is left open, there are fewer statements than lines. -/
theorem length_statements_lt (hc : ∃ line ∈ lines.dropLast, ¬line.IsClosed) :
    (Signature.statements (indentation blanks) (body blanks lines)).length < lines.length := by
  fun_induction body blanks lines with
  | case1 => simp at hc
  | case2 line => simp at hc
  | case3 line next others ih =>
    obtain ⟨hline, hothers⟩ := List.forall_mem_cons.1 h
    obtain ⟨hidle, hcolumn⟩ := line_content hline hb line.remark
    rw [← List.append_assoc]
    by_cases hclosed : line.IsClosed
    · have hc : ∃ line ∈ (next :: others).dropLast, ¬line.IsClosed := by
        obtain ⟨other, hm, ho⟩ := hc
        rw [List.dropLast_cons_cons, List.mem_cons] at hm
        exact ⟨other, hm.resolve_left fun he => ho (he ▸ hclosed), ho⟩
      rw [Signature.statements_closed (lineFeed_notMem_line hline hb) hidle hcolumn
        ((isClosed_iff hline hb _).2 hclosed)]
      exact Nat.succ_lt_succ (ih hothers hc)
    · have := Signature.length_statements_open (lineFeed_notMem_line hline hb) hidle hcolumn
        (mt (isClosed_iff hline hb (body blanks (next :: others))).1 hclosed)
      rw [count_body hothers hb] at this
      exact Nat.lt_of_le_of_lt this (Nat.lt_succ_self _)

theorem baseColumn_body (hn : lines ≠ []) :
    Signature.baseColumn (lineFeed :: body blanks lines) = indentation blanks := by
  obtain ⟨line, others, rfl⟩ := List.exists_cons_of_ne_nil hn
  have hline := h line List.mem_cons_self
  -- The first line behind the colon is the field's, with its comment or without.
  obtain ⟨rest, more, hfirst⟩ : ∃ rest more, fields lineFeed (body blanks (line :: others)) =
      (blanks ++ (line.field.text ++ rest)) :: more := by
    have hnotMem := lineFeed_notMem_line hline hb
    cases others with
    | nil =>
      refine ⟨[], [], ?_⟩
      rw [body, List.append_nil]
      refine fields_of_notMem fun hm => hnotMem ?_
      rw [text, ← List.append_assoc]
      exact List.mem_append_left _ hm
    | cons next others =>
      refine ⟨line.remark, fields lineFeed (body blanks (next :: others)), ?_⟩
      rw [body, ← List.append_assoc, fields_append, fields_of_notMem hnotMem]
      rfl
  obtain ⟨hidle, hcolumn⟩ := line_content hline hb rest
  have hempty : (!isIdleLine []) = false := rfl
  have hlines : ManifestScan.lines (lineFeed :: body blanks (line :: others)) =
      [] :: fields lineFeed (body blanks (line :: others)) := rfl
  unfold Signature.baseColumn
  rw [hlines, hfirst, List.find?_cons_of_neg (by simp [hempty]),
    List.find?_cons_of_pos (by simp [hidle])]
  exact hcolumn

/-- The fields of a body are those of its lines if and only if no line but the last leaves anything
open behind its field. -/
theorem fieldsOf_body (hn : lines ≠ []) (hd : (lines.map (·.field.name)).Nodup) :
    Signature.fieldsOf (lineFeed :: body blanks lines) = lines.map (·.field.parameter) ↔
      ∀ line ∈ lines.dropLast, line.IsClosed := by
  unfold Signature.fieldsOf
  rw [baseColumn_body h hb hn, Signature.statements_lineFeed]
  constructor
  · intro he
    by_contra hc
    simp only [not_forall, exists_prop] at hc
    have hlength := congrArg List.length he
    rw [List.length_map] at hlength
    have hle := Parameter.length_foldl_addTo [] ((Signature.statements (indentation blanks)
      (body blanks lines)).filterMap Parameter.fieldOf?)
    have := Nat.lt_of_le_of_lt (List.length_filterMap_le Parameter.fieldOf? _)
      (length_statements_lt h hb hc)
    rw [hlength, List.length_nil] at hle
    omega
  · intro hc
    rw [filterMap_statements h hb hc]
    refine (Parameter.foldl_addTo ?_).trans (List.nil_append _)
    rw [List.nil_append, List.map_map]
    exact hd

end

end FieldLine

end ManifestScan
