import ManifestScan.Proofs.Lexing.Context

namespace ManifestScan

open Lexeme

/-- In front of a boundary the text is read as the lexemes, which stand in a line and whose brackets
close each other. -/
structure Inline (text : Bytes) (lexemes : List Lexeme) : Prop where
  lexes : ∀ rest, IsBoundary rest → Lexes rest text lexemes
  isInline : ∀ lexeme ∈ lexemes, lexeme.IsInline
  balanced : Turn.through 0 (turnsOf lexemes) = some 0

theorem IsBoundary.append {text rest : Bytes} (h : IsBoundary text) (hr : IsBoundary rest) :
    IsBoundary (text ++ rest) := by
  cases text with
  | nil => exact hr
  | cons b text => exact h

namespace Inline

variable {text more : Bytes} {lexemes others : List Lexeme}

theorem nil : Inline [] [] := ⟨fun _ _ => .nil, List.forall_mem_nil _, rfl⟩

theorem text_eq (h : Inline text lexemes) : lexemes.flatMap Lexeme.text = text :=
  (h.lexes [] .nil).text_eq

theorem flow_eq (h : Inline text lexemes) : flow 0 lexemes = true :=
  flow_of_isInline h.isInline 0

theorem nestingAfter_eq (h : Inline text lexemes) : nestingAfter 0 lexemes = 0 :=
  @nestingAfter_of_through _ 0 _ _ h.balanced

/-- Behind a text that reads the same in front of everything. -/
theorem prepend {mark : Bytes} {marks : List Lexeme} (hm : ∀ rest, Lexes rest mark marks)
    (hi : ∀ lexeme ∈ marks, lexeme.IsInline) (ht : Turn.through 0 (turnsOf marks) = some 0)
    (h : Inline text lexemes) : Inline (mark ++ text) (marks ++ lexemes) := by
  refine ⟨fun rest hr => (hm _).append (h.lexes rest hr), ?_, ?_⟩
  · exact List.forall_mem_append.2 ⟨hi, h.isInline⟩
  · rw [turnsOf_append, Turn.through_append, ht]
    exact h.balanced

theorem append (h : Inline text lexemes) (ho : Inline more others) (hb : IsBoundary more) :
    Inline (text ++ more) (lexemes ++ others) := by
  refine ⟨fun rest hr => (h.lexes _ (hb.append hr)).append (ho.lexes rest hr), ?_, ?_⟩
  · exact List.forall_mem_append.2 ⟨h.isInline, ho.isInline⟩
  · rw [turnsOf_append, Turn.through_append, h.balanced]
    exact ho.balanced

theorem word {name : Bytes} (h : isIdentifier name = true) : Inline name [ofWord name] := by
  refine ⟨fun rest hr => .word h hr.endsLexeme.endsName,
    List.forall_mem_singleton.2 (.token name), ?_⟩
  rw [turnsOf_cons, Listing.turn?_ofWord]
  rfl

theorem tokens_not_layout (h : Inline text lexemes) (offset : Nat) (location : Location) :
    ∀ token ∈ tokensOf offset location lexemes, token.kind.isLayout = false :=
  (h.lexes [] .nil).not_layout offset location

theorem tokens_balanced (h : Inline text lexemes) (offset : Nat) (location : Location) :
    Turn.through 0 ((tokensOf offset location lexemes).filterMap Token.turn?) = some 0 := by
  rw [turns_tokensOf]
  exact h.balanced

end Inline

theorem isInline_blank : IsInline blank := .blank (by decide)

/-- The marks between a name, its annotation and its default, and between parameters. -/
theorem inline_separators {text : Bytes} {lexemes : List Lexeme} (h : Inline text lexemes) :
    Inline (ascii ": " ++ text) (⟨.token .colon, [colon]⟩ :: blank :: lexemes) ∧
      Inline (ascii " = " ++ text) (blank :: ⟨.token .equals, [equals]⟩ :: blank :: lexemes) ∧
      Inline (ascii ", " ++ text) (⟨.token .comma, [comma]⟩ :: blank :: lexemes) := by
  have hblank : IsInline blank := isInline_blank
  have hs (rest : Bytes) : (space :: rest).head? ≠ some equals := by simp [space, equals]
  refine ⟨@Inline.prepend text lexemes (ascii ": ") [_, _] (fun rest => ?_) ?_ rfl h,
    @Inline.prepend text lexemes (ascii " = ") [_, _, _] (fun rest => ?_) ?_ rfl h,
    @Inline.prepend text lexemes (ascii ", ") [_, _] (fun rest => ?_) ?_ rfl h⟩
  · exact (Lexes.colon (hs rest)).append (.space rest)
  · simp [IsInline.token, hblank]
  · exact (Lexes.space _).append ((Lexes.equals (hs rest)).append (.space rest))
  · simp [IsInline.token, hblank]
  · exact (Lexes.mark (by rfl) fun h => absurd h (by decide)).append (.space rest)
  · simp [IsInline.token, hblank]

end ManifestScan
