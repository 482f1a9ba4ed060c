import ManifestScan.Proofs.Text.Lines
import ManifestScan.Proofs.Text.Part

/-! A text is cut at its outer separators and nowhere else. -/

namespace ManifestScan

namespace Bracket

/-- The fields of a text are cut exactly: with the separators they make up the text, the first one
is a field at the same depth, and each of the others is one outside all brackets. -/
structure Exact (separator : UInt8) (depth : Nat) (text first : Bytes) (others : List Bytes) :
    Prop where
  fields_eq : fieldsOf separator depth (pieces text) = first :: others
  join_eq : joinWith [separator] (first :: others) = text
  first_eq : fieldsOf separator depth (pieces first) = [first]
  others_eq : ∀ field ∈ others, outerFields separator field = [field]

def depthBehind (depth : Nat) : List Piece → Nat
  | [] => depth
  | .byte b :: rest => depthBehind (ManifestScan.depthAfter b depth) rest
  | _ :: rest => depthBehind depth rest

/-- Behind the text no bracket and no literal is open. -/
structure IsClosed (depth : Nat) (text : Bytes) : Prop where
  literals : ∀ open_, .unclosed open_ ∉ pieces text
  brackets : depthBehind depth (pieces text) = 0

variable {separator : UInt8} {depth : Nat} {first : Bytes} {others : List Bytes}

theorem fieldsOf_literal (literal : Bytes) (rest : List Piece) :
    fieldsOf separator depth (.literal literal :: rest) =
      prepend literal (fieldsOf separator depth rest) := rfl

theorem fieldsOf_unclosed (literal : Bytes) :
    fieldsOf separator depth [.unclosed literal] = [literal] := by
  show [literal ++ []] = [literal]
  rw [List.append_nil]

theorem joinWith_prepend (separator text first : Bytes) (others : List Bytes) :
    joinWith separator ((text ++ first) :: others) =
      text ++ joinWith separator (first :: others) := by
  cases others with
  | nil => simp [joinWith]
  | cons second others => simp [joinWith]

theorem exact_nil (separator : UInt8) (depth : Nat) : Exact separator depth [] [] [] := by
  have hf : fieldsOf separator depth (pieces []) = [[]] := by rw [pieces_nil, fieldsOf]
  refine ⟨hf, ?_, hf, List.forall_mem_nil _⟩
  rw [joinWith]

theorem Exact.byte {text : Bytes} {b : UInt8} (hq : Literal.isQuote b = false)
    (hs : ¬(b = separator ∧ depth = 0 ∧ (!isOpening b) = true))
    (h : Exact separator (depthAfter b depth) text first others) :
    Exact separator depth (b :: text) (b :: first) others := by
  refine ⟨?_, ?_, ?_, h.others_eq⟩
  · rw [Piece.cut_false_byte hq, fieldsOf, if_neg hs, h.fields_eq]
    rfl
  · exact (joinWith_prepend [separator] [b] first others).trans (congrArg ([b] ++ ·) h.join_eq)
  · rw [Piece.cut_false_byte hq, fieldsOf, if_neg hs, h.first_eq]
    rfl

/-- In front of a separator the first field ends, and the next one starts outside all brackets. -/
theorem Exact.ends {text : Bytes} {b : UInt8} (hq : Literal.isQuote b = false)
    (hs : b = separator ∧ depth = 0 ∧ (!isOpening b) = true)
    (h : Exact separator 0 text first others) :
    Exact separator depth (b :: text) [] (first :: others) := by
  refine ⟨?_, ?_, ?_, List.forall_mem_cons.2 ⟨h.first_eq, h.others_eq⟩⟩
  · rw [Piece.cut_false_byte hq, fieldsOf, if_pos hs, h.fields_eq]
  · rw [joinWith_cons _ (List.cons_ne_nil _ _), h.join_eq, hs.1, List.nil_append,
      List.singleton_append]
  · rw [pieces_nil, fieldsOf]

/-- A literal goes to the first field. It ends there as in the text, as no third quote comes to
stand behind two. -/
theorem Exact.literal {body text : Bytes} {quote : UInt8} (hq : Literal.isQuote quote = true)
    (ha : Literal.after? (quote :: body ++ text) = some text)
    (h : Exact separator depth text first others) :
    Exact separator depth (quote :: body ++ text) (quote :: body ++ first) others := by
  obtain ⟨hown, hthird⟩ := Literal.after?_own ha
  have hf : Literal.after? (quote :: body ++ first) = some first := by
    apply Literal.after?_append hown
    intro hb hh
    apply hthird hb
    rw [← h.join_eq, head?_joinWith, hh]
    rintro rfl
    cases hh
  refine ⟨?_, ?_, ?_, h.others_eq⟩
  · rw [Piece.cut_false_literal hq ha, fieldsOf_literal, h.fields_eq]
    rfl
  · rw [joinWith_prepend, h.join_eq]
  · rw [Piece.cut_false_literal hq hf, fieldsOf_literal, h.first_eq]
    rfl

/-- A literal without an end is one field. -/
theorem exact_unclosed (separator : UInt8) (depth : Nat) {quote : UInt8} {rest : Bytes}
    (hq : Literal.isQuote quote = true) (ha : Literal.after? (quote :: rest) = none) :
    Exact separator depth (quote :: rest) (quote :: rest) [] := by
  have hf : fieldsOf separator depth (pieces (quote :: rest)) = [quote :: rest] := by
    rw [Piece.cut_false_unclosed hq ha, fieldsOf_unclosed]
  refine ⟨hf, ?_, hf, List.forall_mem_nil _⟩
  rw [joinWith]

theorem exists_exact (separator : UInt8) (depth : Nat) (text : Bytes) :
    ∃ first others, Exact separator depth text first others := by
  fun_induction Piece.cut false text generalizing depth with
  | case1 => exact ⟨[], [], exact_nil separator depth⟩
  | case2 quote rest hq after ha ih =>
    obtain ⟨first, others, h⟩ := ih depth
    obtain ⟨body, rfl⟩ := Literal.after?_suffix ha
    exact ⟨quote :: body ++ first, others, h.literal hq ha⟩
  | case3 quote rest hq ha => exact ⟨quote :: rest, [], exact_unclosed separator depth hq ha⟩
  | case4 b rest _ hh => cases hh
  | case5 b rest hq _ ih =>
    replace hq : Literal.isQuote b = false := eq_false_of_ne_true hq
    by_cases hs : b = separator ∧ depth = 0 ∧ (!isOpening b) = true
    · obtain ⟨first, others, h⟩ := ih 0
      exact ⟨[], first :: others, h.ends hq hs⟩
    · obtain ⟨first, others, h⟩ := ih (depthAfter b depth)
      exact ⟨b :: first, others, h.byte hq hs⟩

theorem prepend_fields_append (text : Bytes) {fields : List Bytes} (hf : fields ≠ [])
    (others : List Bytes) : prepend text (fields ++ others) = prepend text fields ++ others := by
  cases fields with
  | nil => exact absurd rfl hf
  | cons field fields => rfl

/-- A separator behind a text that leaves nothing open cuts. -/
theorem fieldsOf_append {front : Bytes} (hq : Literal.isQuote separator = false)
    (ho : isOpening separator = false) (h : IsClosed depth front) (behind : Bytes) :
    fieldsOf separator depth (pieces (front ++ separator :: behind)) =
      fieldsOf separator depth (pieces front) ++ outerFields separator behind := by
  obtain ⟨hl, hb⟩ := h
  fun_induction Piece.cut false front generalizing depth with
  | case1 =>
    rw [pieces_nil, depthBehind] at hb
    rw [List.nil_append, Piece.cut_false_byte hq, pieces_nil, fieldsOf, fieldsOf,
      if_pos ⟨rfl, hb, by rw [ho]; rfl⟩]
    rfl
  | case2 quote rest hquote after ha ih =>
    obtain ⟨body, rfl⟩ := Literal.after?_suffix ha
    -- Two quotes with a third behind them would open another literal: the separator is no quote.
    have hlong : Literal.after? (quote :: body ++ (after ++ separator :: behind)) =
        some (after ++ separator :: behind) := by
      obtain ⟨hown, hthird⟩ := Literal.after?_own ha
      apply Literal.after?_append hown
      intro hbody hh
      cases after with
      | nil =>
        cases hh
        rw [hq] at hquote
        cases hquote
      | cons c after => exact hthird hbody hh
    rw [← List.cons_append, Piece.cut_false_literal hquote ha] at hl hb
    rw [← List.cons_append, List.append_assoc, Piece.cut_false_literal hquote hlong,
      Piece.cut_false_literal hquote ha, fieldsOf_literal, fieldsOf_literal,
      ih (fun open_ hm => hl open_ (List.mem_cons_of_mem _ hm)) hb,
      prepend_fields_append _ (fieldsOf_ne_nil _ _ _)]
  | case3 quote rest hquote ha =>
    rw [Piece.cut_false_unclosed hquote ha] at hl
    exact absurd List.mem_cons_self (hl _)
  | case4 b rest _ hh => cases hh
  | case5 b rest hbyte _ ih =>
    replace hbyte : Literal.isQuote b = false := eq_false_of_ne_true hbyte
    rw [Piece.cut_false_byte hbyte] at hl hb
    have hrest := fun open_ hm => hl open_ (List.mem_cons_of_mem _ hm)
    rw [List.cons_append, Piece.cut_false_byte hbyte, Piece.cut_false_byte hbyte, fieldsOf,
      fieldsOf]
    by_cases hs : b = separator ∧ depth = 0 ∧ (!isOpening b) = true
    · -- At depth zero a closing bracket changes no depth.
      have hd : ManifestScan.depthAfter b depth = 0 := by
        unfold ManifestScan.depthAfter
        rw [hs.1, ho, hs.2.1]
        simp
      rw [if_pos hs, if_pos hs, ih hrest (hd ▸ hb), List.cons_append]
    · rw [if_neg hs, if_neg hs, ih hrest hb, prepend_fields_append _ (fieldsOf_ne_nil _ _ _)]

/-- Quotes and opening brackets cut nothing. -/
theorem fieldsOf_whole (h : Literal.isQuote separator = true ∨ isOpening separator = true)
    (depth : Nat) (text : Bytes) : fieldsOf separator depth (pieces text) = [text] := by
  fun_induction Piece.cut false text generalizing depth with
  | case1 => exact (exact_nil separator depth).fields_eq
  | case2 quote rest hq after ha ih =>
    obtain ⟨body, rfl⟩ := Literal.after?_suffix ha
    rw [← List.cons_append, Piece.cut_false_literal hq ha, fieldsOf_literal, ih]
    rfl
  | case3 quote rest hq ha => exact (exact_unclosed separator depth hq ha).fields_eq
  | case4 b rest _ hh => cases hh
  | case5 b rest hq _ ih =>
    rw [Piece.cut_false_byte (eq_false_of_ne_true hq), fieldsOf, if_neg, ih]
    · rfl
    · rintro ⟨rfl, -, ho⟩
      rw [h.resolve_left hq] at ho
      cases ho

end Bracket

/-- For every text and separator the outer fields with the separators between them are the text,
and each of them is its own only outer field. A separator cuts wherever no bracket and no literal
is open in front of it, unless it opens one itself. -/
theorem outerFields_exact (separator : UInt8) (text : Bytes) :
    joinWith [separator] (outerFields separator text) = text ∧
    (∀ field ∈ outerFields separator text, outerFields separator field = [field]) ∧
    if Literal.isQuote separator ∨ isOpening separator then outerFields separator text = [text]
    else ∀ front behind, text = front ++ separator :: behind → Bracket.IsClosed 0 front →
      outerFields separator text = outerFields separator front ++ outerFields separator behind := by
  obtain ⟨first, others, h⟩ := Bracket.exists_exact separator 0 text
  have hfields : outerFields separator text = first :: others := h.fields_eq
  refine ⟨?_, ?_, ?_⟩
  · rw [hfields, h.join_eq]
  · rw [hfields]
    exact List.forall_mem_cons.2 ⟨h.first_eq, h.others_eq⟩
  · split
    · rename_i hs
      exact Bracket.fieldsOf_whole hs 0 text
    · rename_i hs
      rw [not_or, Bool.not_eq_true, Bool.not_eq_true] at hs
      rintro front behind rfl hc
      exact Bracket.fieldsOf_append hs.1 hs.2 hc behind

end ManifestScan
