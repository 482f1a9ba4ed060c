import ManifestScan.Proofs.Signature.Parameter
import ManifestScan.Proofs.Text.Decimal
import ManifestScan.Proofs.Text.Quote

namespace ManifestScan

open Lexeme

/-- A value on one line, as it may stand behind the equals sign of an argument. -/
structure IsArgument (value : Bytes) : Prop where
  isTrimmed : IsTrimmed value
  isPart : IsPart value
  comma : outerPosition? comma value = none
  head?_ne : value.head? ≠ some equals
  exists_inline : ∃ lexemes, Inline value lexemes

namespace Lexeme

/-- Digits are a number up to a boundary. -/
theorem number_digits {digits : Bytes} (h : ∀ b ∈ digits, isDigit b = true) :
    number digits = digits := by
  have hfigure : ∀ b ∈ digits, isFigure b = true := fun b hb => by simp [isFigure, h b hb]
  have hradix : ∀ b, isDigit b = true → isRadix b = false := by decide +kernel
  have hd : decimalNumber digits = digits := by
    have hw : digits.takeWhile isFigure = digits := List.takeWhile_eq_self_iff.2 hfigure
    unfold decimalNumber
    simp [hw, fraction, exponent]
  unfold number
  split
  · rename_i zero radix rest
    rw [if_neg (by simp [hradix radix (h radix (by simp))])]
    exact hd
  · exact hd

end Lexeme

theorem isDigit_plain : ∀ b, isDigit b = true → isFiller b = false ∧ b ≠ backslash ∧ b ≠ lineFeed ∧
    b ≠ hash ∧ startsWord b = false ∧ isInert b = true ∧ isBlank b = false := by
  decide +kernel

namespace Inline

theorem digits {digits : Bytes} (hn : digits ≠ []) (h : ∀ b ∈ digits, isDigit b = true) :
    Inline digits [⟨.token .number, digits⟩] := by
  obtain ⟨b, more, rfl⟩ := List.exists_cons_of_ne_nil hn
  refine ⟨fun rest hr => ?_, List.forall_mem_singleton.2 (.token _), rfl⟩
  have hb := h b List.mem_cons_self
  obtain ⟨hf, hs, hl, hh, hw, -⟩ := isDigit_plain b hb
  have hnumber : number (b :: (more ++ rest)) = b :: more :=
    (number_append hr.endsLexeme b more).trans (number_digits h)
  have hread : Lexeme.read b (more ++ rest) = ⟨.token .number, b :: more⟩ := by
    unfold Lexeme.read
    rw [if_neg (by simp [hf]), if_neg (by simp [hs]), if_neg (by simp [hs]), if_neg hl, if_neg hh,
      if_neg (by simp [hw]), if_pos (.inl hb), hnumber]
  exact .one hread rfl (inert_token (fun c hc => (isDigit_plain c (h c hc)).2.2.2.2.2.1) rfl)

/-- A minus sign in front of digits is an operator. -/
theorem minus_digits {digits : Bytes} (hn : digits ≠ []) (h : ∀ b ∈ digits, isDigit b = true) :
    Inline (0x2D :: digits) [⟨.token .operator, [0x2D]⟩, ⟨.token .number, digits⟩] := by
  have hnumber := Inline.digits hn h
  refine ⟨fun rest hr => ?_, ?_, rfl⟩
  · have hminus : Lexes (digits ++ rest) [0x2D] [⟨.token .operator, [0x2D]⟩] := by
      obtain ⟨b, more, rfl⟩ := List.exists_cons_of_ne_nil hn
      have hb : b ≠ 0x3E ∧ b ≠ equals := by
        have hdigit : ∀ b, isDigit b = true → b ≠ 0x3E ∧ b ≠ equals := by decide +kernel
        exact hdigit b (h b List.mem_cons_self)
      have hmark : TokenKind.marks.lookup 0x2D = none := by decide
      have htwice : ¬(operators.take 3).contains 0x2D = true := by decide
      have hread : Lexeme.read 0x2D (b :: (more ++ rest)) = ⟨.token .operator, [0x2D]⟩ := by
        have hp : Lexeme.read 0x2D (b :: (more ++ rest)) =
            punctuation 0x2D (b :: (more ++ rest)) := rfl
        rw [hp, punctuation, hmark]
        dsimp only
        rw [if_neg (by decide), if_neg (by decide), if_neg (by decide), if_neg (by decide),
          if_neg (by simp [hb.1]), if_pos (by decide), if_neg fun he => htwice he.1, unlessAssigned,
          if_neg (by simpa using hb.2)]
      exact .one hread rfl (inert_token (List.forall_mem_singleton.2 (by decide)) rfl)
    exact hminus.append (hnumber.lexes rest hr)
  · exact List.forall_mem_cons.2 ⟨.token _, hnumber.isInline⟩

theorem quoteIn {mark : UInt8} (h : Literal.isQuote mark = true) (text : Bytes) :
    Inline (Literal.quoteIn mark text) [⟨.token .string, Literal.quoteIn mark text⟩] := by
  exact ⟨fun rest hr => .quoteIn h text (hr.endsLexeme.head?_ne_quote h),
    List.forall_mem_singleton.2 (.token _), rfl⟩

/-- Names that dots join. -/
theorem dotted {text : Bytes} (h : (fields dot text).all isIdentifier = true) :
    Inline text (nameLexemes (fields dot text)) := by
  have hi : ∀ name ∈ fields dot text, isIdentifier name = true := List.all_eq_true.1 h
  have hlexemes : ∀ names : List Bytes,
      (∀ lexeme ∈ nameLexemes names, lexeme.IsInline) ∧ turnsOf (nameLexemes names) = [] := by
    intro names
    fun_induction nameLexemes names with
    | case1 => exact ⟨List.forall_mem_nil _, rfl⟩
    | case2 name =>
      refine ⟨List.forall_mem_singleton.2 (.token name), ?_⟩
      rw [turnsOf_cons, show Lexeme.turn? ⟨.token (TokenKind.ofWord name), name⟩ = none from
        Listing.turn?_ofWord name]
      rfl
    | case3 name others _ ih =>
      refine ⟨List.forall_mem_cons.2 ⟨.token name, List.forall_mem_cons.2 ⟨.token _, ih.1⟩⟩, ?_⟩
      rw [turnsOf_cons, show Lexeme.turn? ⟨.token (TokenKind.ofWord name), name⟩ = none from
        Listing.turn?_ofWord name, turnsOf_cons, ih.2]
      rfl
  refine ⟨fun rest hr => ?_, (hlexemes _).1, ?_⟩
  · have hl := @lexes_dotted (fields dot text) rest (fields_ne_nil _ _) hi hr.endsLexeme.endsName
    rwa [joinWith_fields] at hl
  · rw [(hlexemes _).2]
    rfl

end Inline

namespace IsArgument

variable {value : Bytes}

/-- Of bytes that a search for brackets passes over. -/
theorem of_inert (hn : value ≠ []) (hb : ∀ b ∈ value, isInert b = true ∧ isBlank b = false ∧
    b ≠ ManifestScan.comma ∧ b ≠ equals) (hl : ∃ lexemes, Inline value lexemes) :
      IsArgument value := by
  have hi : Inert value := fun b hm => (hb b hm).1
  refine ⟨isTrimmed_of_notBlank hn fun b hm => (hb b hm).2.1, .of_inert hi,
    hi.outerPosition?_eq_none fun hm => (hb _ hm).2.2.1 rfl, fun he => ?_, hl⟩
  exact (hb equals (List.mem_of_mem_head? he)).2.2.2 rfl

theorem dotted (h : (fields dot value).all isIdentifier = true) : IsArgument value := by
  have hbyte : ∀ b, isNameByte b = true ∨ b = dot → isInert b = true ∧ isBlank b = false ∧
      b ≠ ManifestScan.comma ∧ b ≠ equals := by
    decide +kernel
  refine of_inert ?_ (fun b hm => hbyte b ?_) ⟨_, .dotted h⟩
  · rintro rfl
    cases h
  · rcases @mem_fields dot b _ hm with hd | ⟨name, hf, hn⟩
    · exact .inr hd
    · exact .inl (List.all_eq_true.1 (all_isNameByte (List.all_eq_true.1 h name hf)) b hn)

theorem signedDecimal (n : Int) : IsArgument (signedDecimal n) := by
  have hdigit := List.all_eq_true.1 (all_isDigit_decimal n.natAbs)
  have hbyte : ∀ b, b = 0x2D ∨ isDigit b = true → isInert b = true ∧ isBlank b = false ∧
      b ≠ ManifestScan.comma ∧ b ≠ equals := by
    decide +kernel
  unfold ManifestScan.signedDecimal
  split
  · refine of_inert (List.cons_ne_nil _ _) (fun b hm => hbyte b ?_)
      ⟨_, .minus_digits (decimal_ne_nil _) hdigit⟩
    exact (List.mem_cons.1 hm).imp_right (hdigit b)
  · exact of_inert (decimal_ne_nil _) (fun b hm => hbyte b (.inr (hdigit b hm)))
      ⟨_, .digits (decimal_ne_nil _) hdigit⟩

theorem quoteIn {mark : UInt8} (h : Literal.isQuote mark = true) (text : Bytes) :
    IsArgument (Literal.quoteIn mark text) := by
  have hcut {rest : Bytes} (hr : IsBoundary rest) : codePieces (Literal.quoteIn mark text ++ rest) =
      .literal (Literal.quoteIn mark text) :: codePieces rest := by
    exact Piece.cut_literal h (Literal.after?_quoteIn h text (hr.endsLexeme.head?_ne_quote h))
  have hown : codePieces (Literal.quoteIn mark text) = [.literal (Literal.quoteIn mark text)] := by
    have := hcut .nil
    rwa [List.append_nil, Piece.codePieces_nil] at this
  have hmark : isBlank mark = false ∧ mark ≠ equals := by
    rcases Literal.isQuote_cases h with rfl | rfl <;> decide
  have hpart : IsPart (Literal.quoteIn mark text) := by
    refine ⟨fun rest hr => ?_, ?_, ?_⟩
    · rw [hcut hr, hown]
      rfl
    · rw [hown]
      exact List.forall_mem_singleton.2 rfl
    · rw [hown]
      rfl
  refine ⟨⟨List.cons_ne_nil _ _, ?_, ?_⟩, hpart, ?_, ?_, ⟨_, .quoteIn h text⟩⟩
  · rintro b hb
    cases hb
    exact hmark.1
  · intro b hb
    rw [Literal.quoteIn, ← List.cons_append, List.getLast?_concat] at hb
    cases hb
    exact hmark.1
  · unfold outerPosition?
    rw [hpart.pieces_eq, hown]
    rfl
  · intro hb
    cases hb
    exact hmark.2 rfl

end IsArgument

end ManifestScan
