import ManifestScan.Proofs.Lexing.Pieces
import ManifestScan.Token.Lexer

namespace ManifestScan

/-- In front of `rest`, the text is read as the lexemes, and none of them is a fault. -/
inductive Lexes (rest : Bytes) : Bytes → List Lexeme → Prop
  | nil : Lexes rest [] []
  | cons {b : UInt8} {front text : Bytes} {lexeme : Lexeme} {others : List Lexeme}
    (hr : Lexeme.read b (front ++ (text ++ rest)) = lexeme) (ht : lexeme.text = b :: front)
    (hs : lexeme.Sound (text ++ rest)) (h : Lexes rest text others) :
    Lexes rest (lexeme.text ++ text) (lexeme :: others)

def turnsOf (lexemes : List Lexeme) : List Turn := lexemes.filterMap Lexeme.turn?

namespace Lexes

theorem append {front text rest : Bytes} {lexemes others : List Lexeme}
    (h : Lexes (text ++ rest) front lexemes) (h' : Lexes rest text others) :
    Lexes rest (front ++ text) (lexemes ++ others) := by
  induction h with
  | nil => exact h'
  | @cons b part front lexeme lexemes hr ht hs _ ih =>
    rw [List.append_assoc]
    exact .cons (by rwa [List.append_assoc]) ht (by rwa [List.append_assoc]) ih

/-- One lexeme. -/
theorem one {b : UInt8} {front rest : Bytes} {lexeme : Lexeme}
    (hr : Lexeme.read b (front ++ rest) = lexeme) (ht : lexeme.text = b :: front)
    (hs : lexeme.Sound rest) : Lexes rest (b :: front) [lexeme] := by
  have h : Lexes rest (lexeme.text ++ []) [lexeme] := .cons hr ht hs .nil
  rwa [List.append_nil, ht] at h

/-- A scan of brackets takes the text in pieces of its own. -/
theorem pieces {text rest : Bytes} {lexemes : List Lexeme} (h : Lexes rest text lexemes) :
    ∃ found, (∀ others : Bytes, others.head? = rest.head? →
        codePieces (text ++ others) = found ++ codePieces others) ∧
      Piece.Cover found text (turnsOf lexemes) := by
  induction h with
  | nil => exact ⟨[], fun _ _ => rfl, rfl, by simp, by simp, rfl⟩
  | @cons b front text lexeme others hr ht hs _ ih =>
    obtain ⟨behind, hb, hc⟩ := ih
    obtain ⟨found, hf, hl⟩ := hs.pieces
    refine ⟨found ++ behind, fun more hm => ?_, ?_⟩
    · have hhead : (text ++ more).head? = (text ++ rest).head? := by
        cases text with
        | nil => exact hm
        | cons c text => rfl
      rw [List.append_assoc, hf _ hhead, hb more hm, List.append_assoc]
    · have := hl.append hc
      unfold turnsOf at this ⊢
      cases h : lexeme.turn? <;> simpa [h] using this

end Lexes

def Token.reading (token : Token) : TokenKind × Bytes := (token.kind, token.text)

namespace Lexeme

def tokenAt? (offset : Nat) (location : Location) (lexeme : Lexeme) : Option Token :=
  match lexeme.kind with
  | .token kind => some ⟨kind, lexeme.text, offset, location, location.after lexeme.text⟩
  | _ => none

def tokensOf (offset : Nat) (location : Location) : List Lexeme → List Token
  | [] => []
  | lexeme :: others =>
    (lexeme.tokenAt? offset location).toList ++
      tokensOf (offset + lexeme.text.length) (location.after lexeme.text) others

/-- Whether lexemes end no line, when brackets are open to the given depth in front of them. -/
def flow (nesting : Nat) : List Lexeme → Bool
  | [] => true
  | lexeme :: others =>
    match lexeme.kind with
    | .filler => flow nesting others
    | .lineBreak => nesting != 0 && flow nesting others
    | .token kind => flow (kind.depthAfter nesting) others
    | .unclosed | .unknown => false

def nestingAfter (nesting : Nat) : List Lexeme → Nat
  | [] => nesting
  | lexeme :: others =>
    match lexeme.kind with
    | .token kind => nestingAfter (kind.depthAfter nesting) others
    | _ => nestingAfter nesting others

end Lexeme

namespace Lexer

open Lexeme

/-- A lexer behind a text that was read as the lexemes. -/
def through (lexer : Lexer) (text rest : Bytes) (lexemes : List Lexeme) : Lexer :=
  { lexer with
    rest := rest
    offset := lexer.offset + text.length
    location := lexer.location.after text
    nesting := nestingAfter lexer.nesting lexemes
    tokens := (tokensOf lexer.offset lexer.location lexemes).reverse ++ lexer.tokens }

theorem location_after_append (location : Location) (text more : Bytes) :
    location.after (text ++ more) = (location.after text).after more :=
  List.foldl_append

theorem run_cons {lexer : Lexer} {b : UInt8} {rest : Bytes} (h : lexer.rest = b :: rest) :
    lexer.run = (lexer.step b rest).run := by
  rw [run]
  split
  · rename_i he
    rw [h] at he
    cases he
  · rename_i he
    rw [h] at he
    cases he
    rfl

theorem run_nil {lexer : Lexer} (h : lexer.rest = []) : lexer.run = lexer := by
  rw [run]
  split
  · rfl
  · rename_i he
    rw [h] at he
    cases he

/-- A text of lexemes that end no line is passed as a whole. -/
theorem run_lexes {text rest : Bytes} {lexemes : List Lexeme} (h : Lexes rest text lexemes)
    {lexer : Lexer} (hr : lexer.rest = text ++ rest) (hs : lexer.atLineStart = false)
    (hf : flow lexer.nesting lexemes = true) :
    lexer.run = (lexer.through text rest lexemes).run := by
  induction h generalizing lexer with
  | nil =>
    obtain ⟨_, offset, location, _, nesting, indents, tokens, faults⟩ := lexer
    cases hr
    rfl
  -- One step of the lexer a lexeme.
  | @cons b front text lexeme others hl ht _ _ ih =>
    have hd : lexer.rest.drop lexeme.text.length = text ++ rest := by
      rw [hr, List.append_assoc, List.drop_left]
    rw [List.append_assoc, ht, List.cons_append] at hr
    rw [run_cons hr, step, if_neg (by simp [hs]), hl]
    cases hk : lexeme.kind with
    | filler =>
      have hi := @ih (lexer.take lexeme) (by rw [rest_take, hd]) (by simp [take, hk, skip, hs])
        (by simpa [take, hk, skip, flow] using hf)
      rw [hi]
      simp [through, take, hk, skip, tokensOf, tokenAt?, nestingAfter, Nat.add_assoc,
        location_after_append]
    -- Inside brackets a line end is passed like a blank.
    | lineBreak =>
      have hn : lexer.nesting ≠ 0 ∧ flow lexer.nesting others = true := by
        simpa [flow, hk] using hf
      have hi := @ih (lexer.take lexeme) (by rw [rest_take, hd])
        (by simp [take, hk, skip, hs, hn.1]) (by simpa [take, hk, skip, hn.1] using hn.2)
      rw [hi]
      simp [through, take, hk, skip, tokensOf, tokenAt?, nestingAfter, Nat.add_assoc,
        location_after_append, hn.1]
    | token kind =>
      have hi := @ih (lexer.take lexeme) (by rw [rest_take, hd])
        (by simp [take, hk, skip, addToken, hs])
        (by simpa [take, hk, skip, addToken, flow] using hf)
      rw [hi]
      simp [through, take, hk, skip, addToken, tokensOf, tokenAt?, nestingAfter, Nat.add_assoc,
        location_after_append]
    | unclosed => simp [flow, hk] at hf
    | unknown => simp [flow, hk] at hf

end Lexer

namespace Lexeme

theorem isLayout_token {b : UInt8} {rest text : Bytes} {kind : TokenKind}
    (hl : read b rest = ⟨.token kind, text⟩) : kind.isLayout = true ↔ text = [] := by
  have hk := (shown_of_read hl).isLayout
  have hn := read_text_ne_nil b rest
  rw [hl] at hn
  exact ⟨fun h => absurd (hk.symm.trans h) nofun, fun h => absurd h hn⟩

end Lexeme

theorem Lexes.not_layout {text rest : Bytes} {lexemes : List Lexeme} (h : Lexes rest text lexemes)
    (offset : Nat) (location : Location) :
    ∀ token ∈ Lexeme.tokensOf offset location lexemes, token.kind.isLayout = false := by
  induction h generalizing offset location with
  | nil => exact nofun
  | @cons b front text lexeme others hr _ _ _ ih =>
    intro token hm
    rw [Lexeme.tokensOf, List.mem_append] at hm
    rcases hm with hm | hm
    · have hs := Lexeme.isShown_read b (front ++ (text ++ rest))
      rw [hr] at hs
      unfold Lexeme.tokenAt? at hm
      split at hm
      · rename_i kind hk
        rw [List.mem_singleton.1 hm]
        exact (hs kind hk).isLayout
      · cases hm
    · exact ih _ _ token hm

end ManifestScan
