import ManifestScan.Proofs.Lexing.Order

namespace ManifestScan.Lexer

variable {lexer other : Lexer} {text more : Bytes}

theorem rest_settle (lexer : Lexer) (column : Nat) : (lexer.settle column).rest = lexer.rest := by
  unfold Lexer.settle
  dsimp only
  repeat' split
  all_goals first | rfl | exact rest_closeBlocks _ _ _

/-- What is left behind an indentation is told by the text alone. -/
theorem rest_readIndentation (h : other.rest = lexer.rest) :
    other.readIndentation.rest = lexer.readIndentation.rest := by
  unfold Lexer.readIndentation
  dsimp only
  rw [rest_skip, rest_skip, h]
  have hblanks (text : Bytes) : (other.skip text).rest = (lexer.skip text).rest := by
    rw [rest_skip, rest_skip, h]
  split
  · exact hblanks _
  · repeat' split
    · exact congrArg (List.drop _) (hblanks _)
    · exact congrArg (List.drop _) (hblanks _)
    · exact congrArg (List.drop _) (hblanks _)
    · rw [rest_settle, rest_settle, hblanks]

/-- Two lexers that have read the same tokens, up to their places and what `f` leaves out of their
texts, and have found the same faults. -/
structure Parallel (f : Bytes → Bytes) (lexer other : Lexer) : Prop where
  atLineStart : other.atLineStart = lexer.atLineStart
  nesting : other.nesting = lexer.nesting
  indents : other.indents = lexer.indents
  tokens : other.tokens.map (fun token => (token.kind, f token.text)) =
    lexer.tokens.map (fun token => (token.kind, f token.text))
  causes : other.faults.map Fault.cause = lexer.faults.map Fault.cause

namespace Parallel

variable {f : Bytes → Bytes}

theorem skip (h : Parallel f lexer other) (text more : Bytes) :
    Parallel f (lexer.skip text) (other.skip more) :=
  ⟨h.atLineStart, h.nesting, h.indents, h.tokens, h.causes⟩

theorem report (h : Parallel f lexer other) (cause : FaultCause) (text more : Bytes) :
    Parallel f (lexer.report cause text) (other.report cause more) :=
  ⟨h.atLineStart, h.nesting, h.indents, h.tokens, congrArg (cause :: ·) h.causes⟩

theorem addToken (h : Parallel f lexer other) (kind : TokenKind) (ht : f more = f text) :
    Parallel f (lexer.addToken kind text) (other.addToken kind more) := by
  refine ⟨h.atLineStart, h.nesting, h.indents, ?_, h.causes⟩
  exact congrArg₂ (fun text tokens => (kind, text) :: tokens) ht h.tokens

theorem addLayout (h : Parallel f lexer other) (kind : TokenKind) :
    Parallel f (lexer.addLayout kind) (other.addLayout kind) :=
  h.addToken kind rfl

theorem endLine (h : Parallel f lexer other) : Parallel f lexer.endLine other.endLine := by
  have ht := h.tokens
  unfold Lexer.endLine
  cases hl : lexer.tokens with
  | nil =>
    rw [hl] at ht
    rw [List.map_eq_nil_iff.1 ht]
    exact h
  | cons last before =>
    rw [hl] at ht
    obtain ⟨last', before', ho, hb, -⟩ := List.map_eq_cons_iff.1 ht
    have hk : last'.kind = last.kind := congrArg Prod.fst hb
    rw [ho]
    dsimp only
    rw [hk]
    split
    · exact h
    · exact h.addLayout .newline

theorem closeBlocks (h : Parallel f lexer other) (column : Nat) (indents : List Nat) :
    Parallel f (Lexer.closeBlocks column lexer indents)
      (Lexer.closeBlocks column other indents) := by
  induction indents generalizing lexer other with
  | nil => exact { h with indents := rfl }
  | cons indent outer ih =>
    unfold Lexer.closeBlocks
    split
    · exact ih (h.addLayout .dedent)
    · exact { h with indents := rfl }

theorem column (h : Parallel f lexer other) : other.column = lexer.column :=
  congrArg (List.headD · 0) h.indents

theorem settle (h : Parallel f lexer other) (column : Nat) :
    Parallel f (lexer.settle column) (other.settle column) := by
  obtain ⟨rest, offset, location, _, nesting, indents, tokens, faults⟩ := other
  cases h.indents
  have hline : Parallel f { lexer with atLineStart := false }
      ⟨rest, offset, location, false, nesting, lexer.indents, tokens, faults⟩ :=
    { h with atLineStart := rfl }
  have hclosed := hline.closeBlocks column lexer.indents
  unfold Lexer.settle
  dsimp only
  rw [hline.column, hclosed.column]
  split
  · exact { hline.addLayout .indent with indents := rfl }
  · split
    · exact hclosed
    · exact hclosed.report _ _ _

theorem take (h : Parallel f lexer other) (kind : LexemeKind) (ht : f more = f text) :
    Parallel f (lexer.take ⟨kind, text⟩) (other.take ⟨kind, more⟩) := by
  cases kind with
  | filler => exact h.skip _ _
  | lineBreak =>
    have hskip := h.skip text more
    unfold Lexer.take
    dsimp only
    rw [hskip.nesting]
    split
    · exact { hskip.endLine with atLineStart := rfl }
    · exact hskip
  | token kind =>
    have htoken := (h.addToken kind ht).skip text more
    exact { htoken with nesting := congrArg kind.depthAfter htoken.nesting }
  | unclosed => exact ((h.report _ _ _).addToken .string ht).skip _ _
  | unknown => exact (h.report _ _ _).skip _ _

theorem finish (h : Parallel f lexer other) : Parallel f lexer.finish other.finish := by
  have hclosed := h.endLine.closeBlocks 0 lexer.endLine.indents
  unfold Lexer.finish
  dsimp only
  rw [h.endLine.indents]
  exact hclosed.addLayout .endOfFile

theorem readIndentation (h : Parallel f lexer other) (hr : other.rest = lexer.rest) :
    Parallel f lexer.readIndentation other.readIndentation := by
  unfold Lexer.readIndentation
  dsimp only
  rw [rest_skip, rest_skip, hr]
  have hblanks := h.skip (lexer.rest.takeWhile isIndentByte) (lexer.rest.takeWhile isIndentByte)
  split
  · exact hblanks
  · repeat' split
    · exact hblanks.skip _ _
    · exact hblanks.skip _ _
    · exact hblanks.skip _ _
    · exact hblanks.settle _

/-- In front of the same text they read on alike. -/
theorem run (h : Parallel f lexer other) (hr : other.rest = lexer.rest) :
    Parallel f lexer.run other.run := by
  fun_induction Lexer.run lexer generalizing other with
  | case1 lexer he => rwa [run_nil (hr.trans he)]
  | case2 lexer b rest he ih =>
    rw [run_cons (hr.trans he)]
    unfold Lexer.step at ih ⊢
    rw [h.atLineStart, h.nesting]
    split
    · rename_i hs
      rw [if_pos hs] at ih
      exact ih (h.readIndentation hr) (rest_readIndentation hr)
    · rename_i hs
      rw [if_neg hs] at ih
      refine ih (h.take _ rfl) ?_
      rw [rest_take, rest_take, hr]

/-- The two end with the same tokens and the same faults. -/
theorem stream_eq (h : Parallel f lexer other) :
    other.finish.tokens.reverse.map (fun token => (token.kind, f token.text)) =
        lexer.finish.tokens.reverse.map (fun token => (token.kind, f token.text)) ∧
      other.finish.faults.reverse.map Fault.code = lexer.finish.faults.reverse.map Fault.code := by
  have hf := h.finish
  have hcodes := congrArg (List.map FaultCause.code) hf.causes
  rw [List.map_map, List.map_map] at hcodes
  constructor
  · rw [List.map_reverse, List.map_reverse, hf.tokens]
  · rw [List.map_reverse, List.map_reverse]
    exact congrArg List.reverse hcodes

end Parallel

end ManifestScan.Lexer
