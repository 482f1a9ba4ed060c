import ManifestScan.Proofs.Signature.Definition

namespace ManifestScan

open Lexeme

inductive BaseLexemes : Bytes → List Lexeme → Prop
  | none : BaseLexemes [] []
  | some {text : Bytes} {lexemes : List Lexeme} (h : Inline text lexemes) :
    BaseLexemes (leftParen :: (text ++ [rightParen]))
      (⟨.token .leftParen, [leftParen]⟩ :: (lexemes ++ [⟨.token .rightParen, [rightParen]⟩]))

namespace BaseLexemes

variable {bases : Bytes} {lexemes : List Lexeme}

theorem inline (h : BaseLexemes bases lexemes) : Inline bases lexemes := by
  cases h with
  | none => exact .nil
  | @some text inner hi =>
    have hmark (rest : Bytes) : Lexes rest [leftParen] [⟨.token .leftParen, [leftParen]⟩] ∧
        Lexes rest [rightParen] [⟨.token .rightParen, [rightParen]⟩] :=
      ⟨.mark (by rfl) fun h => absurd h (by decide), .mark (by rfl) fun h => absurd h (by decide)⟩
    refine ⟨fun rest _ => ?_, ?_, ?_⟩
    · exact (hmark _).1.append ((hi.lexes _ (.cons (by decide) rest)).append (hmark rest).2)
    · simp only [List.forall_mem_cons, List.forall_mem_append]
      exact ⟨.token _, hi.isInline, .token _, List.forall_mem_nil _⟩
    · rw [turnsOf_cons, turnsOf_append]
      show Turn.through 1 (turnsOf inner ++ [.closing]) = Option.some 0
      rw [Turn.through_append, Turn.through_add hi.balanced 1]
      rfl

theorem endsName (h : BaseLexemes bases lexemes) (rest : Bytes) :
    endsName (bases ++ colon :: rest) = true := by
  cases h <;> rfl

theorem baseTokens (h : BaseLexemes bases lexemes) (offset : Nat) (location : Location) :
    Cursor.BaseTokens (tokensOf offset location lexemes) := by
  cases h with
  | none => exact .none
  | some h =>
    rw [tokensOf, tokensOf_append]
    exact .some rfl (h.tokens_balanced _ _) rfl

end BaseLexemes

def classLine (name bases : Bytes) (lexemes : List Lexeme) : IndentedLine :=
  ⟨[], ascii "class " ++ (name ++ (bases ++ [colon])),
    ofWord (ascii "class") :: blank :: ofWord name :: (lexemes ++ [⟨.token .colon, [colon]⟩])⟩

theorem isProper_classLine {name bases : Bytes} {lexemes : List Lexeme}
    (hb : BaseLexemes bases lexemes) (hn : isIdentifier name = true) :
    (classLine name bases lexemes).IsProper := by
  have hd : ascii "class " = ascii "class" ++ [space] := by decide
  have hinline := hb.inline
  refine ⟨nofun, fun rest => ?_, ?_, ?_, ?_, fun _ _ => List.cons_ne_nil _ _⟩
  · unfold classLine
    dsimp only
    rw [hd, List.append_assoc]
    apply Lexes.append (.word (by decide) (by rfl))
    apply Lexes.append (.space _)
    apply Lexes.append (.word hn (by simpa using hb.endsName _))
    apply Lexes.append (hinline.lexes _ (.cons (by decide) _))
    exact .colon (by simp [lineFeed, equals])
  · exact ⟨0x63, rfl, by decide, by decide, by decide, by decide⟩
  · refine flow_of_isInline ?_ 0
    simp only [classLine, List.forall_mem_cons, List.forall_mem_append]
    exact ⟨.token _, isInline_blank, .token _, hinline.isInline, .token _, List.forall_mem_nil _⟩
  · have hturns : Turn.through 0 (turnsOf (classLine name bases lexemes).lexemes) = some 0 := by
      unfold classLine
      rw [turnsOf_cons, Listing.turn?_ofWord, turnsOf_cons, turnsOf_cons, Listing.turn?_ofWord,
        turnsOf_append]
      show Turn.through 0 (turnsOf lexemes ++ []) = some 0
      rw [List.append_nil]
      exact hinline.balanced
    exact @nestingAfter_of_through _ 0 _ _ hturns

theorem tokensOf_classLine (name : Bytes) {bases : Bytes} {lexemes : List Lexeme}
    (hb : BaseLexemes bases lexemes) (offset : Nat) (location : Location) :
    ∃ (keyword called mark : Token) (tokens : List Token),
      tokensOf offset location (classLine name bases lexemes).lexemes =
        keyword :: called :: (tokens ++ [mark]) ∧
        keyword.kind = .classWord ∧ called.kind = TokenKind.ofWord name ∧ called.text = name ∧
        Cursor.BaseTokens tokens ∧ mark.kind = .colon ∧
        mark.stop = offset + (classLine name bases lexemes).text.length := by
  have hw : TokenKind.ofWord (ascii "class") = .classWord := by decide
  have h5 : (ascii "class").length = 5 := by decide
  have h6 : (ascii "class ").length = 6 := by decide
  unfold classLine
  dsimp only
  rw [tokensOf, tokensOf, tokensOf, tokensOf_append, hb.inline.text_eq]
  refine ⟨_, _, _, _, rfl, hw, rfl, rfl, hb.baseTokens _ _, rfl, ?_⟩
  simp only [Token.stop, Token.length, ofWord, blank, List.length_append, h5, h6,
    List.length_singleton]
  omega

end ManifestScan
