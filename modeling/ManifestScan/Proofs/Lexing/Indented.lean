import ManifestScan.Proofs.Listing.Stream
import Mathlib.Data.List.Basic

namespace ManifestScan

open Lexeme

structure IndentedLine where
  blanks : Bytes
  text : Bytes
  lexemes : List Lexeme

namespace IndentedLine

def column (line : IndentedLine) : Nat := Lexer.indentColumn line.blanks

def source (lines : List IndentedLine) : Bytes :=
  lines.flatMap fun line => line.blanks ++ (line.text ++ [lineFeed])

/-- The text starts with content and is a logical line of its own. -/
structure IsProper (line : IndentedLine) : Prop where
  blanks : ∀ b ∈ line.blanks, Lexer.isIndentByte b = true
  lexes : ∀ rest, Lexes (lineFeed :: rest) line.text line.lexemes
  head : ∃ b ∈ line.text.head?, Lexer.isIndentByte b = false ∧ b ≠ carriageReturn ∧ b ≠ lineFeed ∧
    b ≠ hash
  flow : flow 0 line.lexemes = true
  nesting : nestingAfter 0 line.lexemes = 0
  hasToken : ∀ offset location, tokensOf offset location line.lexemes ≠ []

/-- No line is indented less than the one before, the first not less than `column`. -/
def Deepens : Nat → List IndentedLine → Prop
  | _, [] => True
  | column, line :: lines => column ≤ line.column ∧ Deepens line.column lines

/-- The tokens of lines that are indented ever further, behind blocks at the given columns. -/
def stream (offset : Nat) (location : Location) (indents : List Nat) :
    List IndentedLine → List Token
  | [] =>
    List.replicate indents.length (.layout .dedent offset location) ++
      [.layout .endOfFile offset location]
  | line :: lines =>
    let content := offset + line.blanks.length
    let place := location.after line.blanks
    let stop := content + line.text.length + 1
    let next := (place.after line.text).after [lineFeed]
    let tokens := tokensOf content place line.lexemes
    if indents.headD 0 < line.column then
      .layout .indent content place ::
        (tokens ++ .layout .newline stop next :: stream stop next (line.column :: indents) lines)
    else tokens ++ .layout .newline stop next :: stream stop next indents lines

section

variable {line : IndentedLine} {lines : List IndentedLine} {indents : List Nat} {offset : Nat}
  {location : Location}

theorem stream_deeper (h : indents.headD 0 < line.column) :
    let content := offset + line.blanks.length
    let place := location.after line.blanks
    let stop := content + line.text.length + 1
    let next := (place.after line.text).after [lineFeed]
    stream offset location indents (line :: lines) = .layout .indent content place ::
      (tokensOf content place line.lexemes ++
        .layout .newline stop next :: stream stop next (line.column :: indents) lines) := if_pos h

theorem stream_same (h : ¬indents.headD 0 < line.column) :
    let content := offset + line.blanks.length
    let place := location.after line.blanks
    let stop := content + line.text.length + 1
    let next := (place.after line.text).after [lineFeed]
    stream offset location indents (line :: lines) = tokensOf content place line.lexemes ++
      .layout .newline stop next :: stream stop next indents lines := if_neg h

/-- A line that is indented further opens a block, in which it stands. -/
theorem stream_opens (h : indents.headD 0 < line.column) :
    stream offset location indents (line :: lines) =
      .layout .indent (offset + line.blanks.length) (location.after line.blanks) ::
        stream offset location (line.column :: indents) (line :: lines) :=
  (stream_deeper h).trans
    (congrArg (_ :: ·) (@stream_same line lines (line.column :: indents) offset location
      (Nat.lt_irrefl line.column)).symm)

end

end IndentedLine

namespace Lexer

/-- Every open block is closed at the end. -/
theorem closeBlocks_zero {lexer : Lexer} {indents : List Nat} (h : ∀ column ∈ indents, 0 < column) :
    closeBlocks 0 lexer indents = { lexer with
      indents := []
      tokens := List.replicate indents.length (.layout .dedent lexer.offset lexer.location) ++
        lexer.tokens } := by
  induction indents generalizing lexer with
  | nil => rfl
  | cons column indents ih =>
    obtain ⟨hc, hi⟩ := List.forall_mem_cons.1 h
    rw [closeBlocks, if_pos hc, ih hi]
    simp only [addLayout, addToken, List.length_cons, List.replicate_succ']
    simp [Token.layout, Location.after]

/-- A line at the column of the innermost block changes no block. -/
theorem settle_same {lexer : Lexer} {column : Nat} (h : lexer.indents.headD 0 = column) :
    lexer.settle column = { lexer with atLineStart := false } := by
  obtain ⟨rest, offset, location, _, nesting, indents, tokens, faults⟩ := lexer
  unfold settle
  cases indents with
  | nil => simp_all [Lexer.column, closeBlocks]
  | cons indent indents => simp_all [Lexer.column, closeBlocks]

/-- A line that is indented further opens a block. -/
theorem settle_deeper {lexer : Lexer} {column : Nat} (h : lexer.indents.headD 0 < column) :
    lexer.settle column = { lexer with
      atLineStart := false
      indents := column :: lexer.indents
      tokens := .layout .indent lexer.offset lexer.location :: lexer.tokens } := by
  unfold settle
  exact if_pos h

/-- The indentation of a line settles its blocks. -/
theorem run_blanks {line : IndentedLine} (h : line.IsProper) {rest : Bytes} (offset : Nat)
    (location : Location) (indents : List Nat) (tokens : List Token) :
    run ⟨line.blanks ++ (line.text ++ lineFeed :: rest), offset, location, true, 0, indents,
        tokens, []⟩ =
      (settle ⟨line.text ++ lineFeed :: rest, offset + line.blanks.length,
        location.after line.blanks, true, 0, indents, tokens, []⟩ line.column).run := by
  obtain ⟨b, hb, hcontent⟩ := h.head
  obtain ⟨more, htext⟩ := eq_cons_of_head? hb
  let start : Lexer := ⟨line.blanks ++ (line.text ++ lineFeed :: rest), offset, location, true, 0,
    indents, tokens, []⟩
  have hstart : start.run = ((start.skip line.blanks).settle line.column).run := by
    refine @run_content start rfl rfl _ b (more ++ lineFeed :: rest) h.blanks hcontent ?_
    show line.blanks ++ (line.text ++ lineFeed :: rest) = _
    rw [htext]
    rfl
  have hskip : start.skip line.blanks = ⟨line.text ++ lineFeed :: rest,
      offset + line.blanks.length, location.after line.blanks, true, 0, indents, tokens, []⟩ := by
    unfold skip
    show Lexer.mk ((line.blanks ++ (line.text ++ lineFeed :: rest)).drop line.blanks.length)
      _ _ _ _ _ _ _ = _
    rw [List.drop_left]
  rw [← hskip]
  exact hstart

/-- A text line behind its indentation, up to the start of the next. -/
theorem run_text {line : IndentedLine} (h : line.IsProper) {lexer : Lexer} {rest : Bytes}
    (hr : lexer.rest = line.text ++ lineFeed :: rest) (hs : lexer.atLineStart = false)
    (hn : lexer.nesting = 0) :
    let next := (lexer.location.after line.text).after [lineFeed]
    lexer.run = Lexer.run { lexer with
      rest := rest
      offset := lexer.offset + line.text.length + 1
      location := next
      atLineStart := true
      tokens := .layout .newline (lexer.offset + line.text.length + 1) next ::
        ((tokensOf lexer.offset lexer.location line.lexemes).reverse ++ lexer.tokens) } := by
  intro next
  obtain ⟨front, last, ht⟩ :=
    (List.eq_nil_or_concat' (tokensOf lexer.offset lexer.location line.lexemes)).resolve_left
      (h.hasToken _ _)
  have hlast : last.kind.isLayout = false :=
    (h.lexes rest).not_layout lexer.offset lexer.location last (by rw [ht]; simp)
  rw [run_lexes (h.lexes rest) hr hs (hn ▸ h.flow)]
  simp only [through, hn, h.nesting]
  rw [ht, List.reverse_append]
  refine run_lineFeed ?_ rfl rfl rfl hlast
  exact hs

end Lexer

namespace IndentedLine

/-- Lines that are indented ever further are read one by one, and all blocks are
closed at the end. -/
theorem run_source {lines : List IndentedLine} (hp : ∀ line ∈ lines, line.IsProper)
    {indents : List Nat} (hi : ∀ column ∈ indents, 0 < column)
    (ha : Deepens (indents.headD 0) lines) (offset : Nat)
    (location : Location) {tokens : List Token}
    (ht : tokens.head?.all (·.kind.isLayout) = true) :
    let final := (Lexer.run ⟨source lines, offset, location, true, 0, indents, tokens, []⟩).finish
    final.tokens = (stream offset location indents lines).reverse ++ tokens ∧
      final.faults = [] := by
  induction lines generalizing offset location indents tokens with
  | nil =>
    intro final
    have hend : Lexer.endLine ⟨[], offset, location, true, 0, indents, tokens, []⟩ =
        ⟨[], offset, location, true, 0, indents, tokens, []⟩ := by
      unfold Lexer.endLine
      cases tokens with
      | nil => rfl
      | cons last tokens => exact if_pos ht
    have hfinal : final = Lexer.finish ⟨[], offset, location, true, 0, indents, tokens, []⟩ :=
      congrArg Lexer.finish (Lexer.run_nil rfl)
    rw [hfinal]
    unfold Lexer.finish
    dsimp only
    rw [hend, Lexer.closeBlocks_zero hi]
    simp [stream, Lexer.addLayout, Lexer.addToken, Token.layout, Location.after]
  | cons line lines ih =>
    intro final
    obtain ⟨hline, hlines⟩ := List.forall_mem_cons.1 hp
    obtain ⟨hle, ha⟩ := ha
    have hs : source (line :: lines) = line.blanks ++ (line.text ++ lineFeed :: source lines) := by
      rw [source, List.flatMap_cons]
      simp [source]
    have hstart := @Lexer.run_blanks line hline (source lines) offset location indents tokens
    rw [← hs] at hstart
    have hfinal : final = Lexer.finish
        (Lexer.run ⟨source (line :: lines), offset, location, true, 0, indents, tokens, []⟩) := rfl
    rw [hfinal, hstart]
    -- No line is indented by less than the one before it, so none closes a block.
    by_cases hlt : indents.headD 0 < line.column
    · have hi : ∀ column ∈ line.column :: indents, 0 < column :=
        List.forall_mem_cons.2 ⟨Nat.zero_lt_of_lt hlt, hi⟩
      rw [Lexer.settle_deeper hlt, Lexer.run_text hline rfl rfl rfl]
      refine ⟨Eq.trans (ih hlines hi ha _ _ ?_).1 ?_, (ih hlines hi ha _ _ ?_).2⟩
      · rfl
      · rw [stream_deeper hlt]
        simp
      · rfl
    · have he : indents.headD 0 = line.column := Nat.le_antisymm hle (Nat.le_of_not_lt hlt)
      rw [Lexer.settle_same he, Lexer.run_text hline rfl rfl rfl]
      refine ⟨Eq.trans (ih hlines hi ?_ _ _ ?_).1 ?_, (ih hlines hi ?_ _ _ ?_).2⟩
      · exact he ▸ ha
      · rfl
      · rw [stream_same hlt]
        simp
      · exact he ▸ ha
      · rfl

/-- The tokens of a source of lines that are indented ever further. -/
theorem tokenize_source {lines : List IndentedLine} (hp : ∀ line ∈ lines, line.IsProper)
    (ha : Deepens 0 lines) :
    tokenize (source lines) = ⟨stream 0 Location.start [] lines, []⟩ := by
  obtain ⟨ht, hf⟩ := @run_source lines hp [] (List.forall_mem_nil _) ha 0 Location.start [] rfl
  unfold tokenize Lexer.start
  dsimp only
  rw [ht, hf, List.append_nil, List.reverse_reverse]
  rfl

end IndentedLine

end ManifestScan
