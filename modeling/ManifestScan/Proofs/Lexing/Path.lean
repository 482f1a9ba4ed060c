import ManifestScan.Proofs.Lexing.Gap
import ManifestScan.Proofs.Lexing.Chain

namespace ManifestScan.Lexer

inductive Path : Lexer → Lexer → Prop
  | trans {lexer next last : Lexer} (h : Path lexer next) (h' : Path next last) : Path lexer last
  /-- What else a lexer keeps in mind has no part in what it has read. -/
  | same {lexer next : Lexer} (hr : next.rest = lexer.rest) (ho : next.offset = lexer.offset)
    (hl : next.location = lexer.location) (ht : next.tokens = lexer.tokens)
    (hf : next.faults = lexer.faults) : Path lexer next
  | gap (lexer : Lexer) {text after : Bytes} (hr : lexer.rest = text ++ after)
    (hg : Gap after lexer.offset text []) : Path lexer (lexer.skip text)
  | layout (lexer : Lexer) {kind : TokenKind} (hk : kind.isLayout = true) :
    Path lexer (lexer.addLayout kind)
  | token (lexer : Lexer) {b : UInt8} {rest text : Bytes} {kind : TokenKind}
    (hr : lexer.rest = b :: rest) (hl : Lexeme.read b rest = ⟨.token kind, text⟩) :
    Path lexer ((lexer.addToken kind text).skip text)
  | unclosed (lexer : Lexer) {b : UInt8} {rest text : Bytes} (hr : lexer.rest = b :: rest)
    (hl : Lexeme.read b rest = ⟨.unclosed, text⟩) :
    Path lexer (((lexer.report .unclosedLiteral text).addToken .string text).skip text)
  | unknown (lexer : Lexer) {b : UInt8} {rest : Bytes} (hr : lexer.rest = b :: rest) :
    Path lexer ((lexer.report .unknownByte [b]).skip [b])
  | unindent (lexer : Lexer) : Path lexer (lexer.report .unmatchedUnindent [])

variable {lexer : Lexer}

namespace Path

theorem refl (lexer : Lexer) : Path lexer lexer := .same rfl rfl rfl rfl rfl

theorem blanks (lexer : Lexer) {text after : Bytes} (hr : lexer.rest = text ++ after)
    (ht : ∀ b ∈ text, b ∈ [space, tab, carriageReturn, lineFeed, formFeed]) :
    Path lexer (lexer.skip text) :=
  .gap lexer hr (.blanks ht _ _)

theorem comment (lexer : Lexer) {rest : Bytes} (hr : lexer.rest = hash :: rest) :
    Path lexer (lexer.skip (hash :: rest.takeWhile (· != lineFeed))) := by
  refine .gap lexer ?_ (.line rest _)
  rw [hr, List.cons_append, List.takeWhile_append_dropWhile]

theorem endLine (lexer : Lexer) : Path lexer lexer.endLine := by
  unfold Lexer.endLine
  split
  · exact refl lexer
  · split
    · exact refl lexer
    · exact layout lexer rfl

theorem closeBlocks (column : Nat) (lexer : Lexer) (indents : List Nat) :
    Path lexer (Lexer.closeBlocks column lexer indents) := by
  fun_induction Lexer.closeBlocks column lexer indents with
  | case1 => exact same rfl rfl rfl rfl rfl
  | case2 lexer indent outer _ ih => exact (layout lexer rfl).trans ih
  | case3 => exact same rfl rfl rfl rfl rfl

theorem settle (lexer : Lexer) (column : Nat) : Path lexer (lexer.settle column) := by
  have hs : Path lexer { lexer with atLineStart := false } := same rfl rfl rfl rfl rfl
  unfold Lexer.settle
  dsimp only
  split
  · exact hs.trans (.trans (layout _ rfl) (same rfl rfl rfl rfl rfl))
  · split
    · exact hs.trans (closeBlocks _ _ _)
    · exact (hs.trans (closeBlocks _ _ _)).trans (unindent _)

theorem readIndentation (lexer : Lexer) : Path lexer lexer.readIndentation := by
  have hi : ∀ b, isIndentByte b = true → b ∈ [space, tab, carriageReturn, lineFeed, formFeed] := by
    decide +kernel
  have hb : Path lexer (lexer.skip (lexer.rest.takeWhile isIndentByte)) :=
    blanks lexer List.takeWhile_append_dropWhile.symm fun b hm => hi b (List.mem_takeWhile_imp hm)
  unfold Lexer.readIndentation
  dsimp only
  refine hb.trans ?_
  generalize lexer.skip (lexer.rest.takeWhile isIndentByte) = next
  split
  · exact refl _
  · rename_i b rest hr
    split
    · rename_i he
      obtain ⟨after, rfl⟩ := Lexeme.eq_cons_of_head? he.2
      exact blanks next hr (by simp [he.1])
    split
    · rename_i hl
      exact blanks next hr (by simp [hl])
    split
    · rename_i hh
      rw [hh] at hr ⊢
      exact comment next hr
    · exact settle next _

/-- A lexeme is a gap, a byte of its own or a token. -/
theorem take (lexer : Lexer) {b : UInt8} {rest : Bytes} (hr : lexer.rest = b :: rest) :
    Path lexer (lexer.take (Lexeme.read b rest)) := by
  have hf := Lexeme.form_read b rest
  generalize hl : Lexeme.read b rest = lexeme at hf ⊢
  cases hf with
  | blank hb => exact blanks lexer hr (by simpa using hb)
  | join he => exact gap lexer (hr.trans he) (.join .nil)
  | joinReturn he => exact gap lexer (hr.trans he) (.joinReturn .nil)
  | comment hb => exact comment lexer (hb ▸ hr)
  | lineBreak hb =>
    have hs : Path lexer (lexer.skip [b]) := blanks lexer hr (by simp [hb])
    unfold Lexer.take
    dsimp only
    split
    · exact hs.trans ((endLine _).trans (same rfl rfl rfl rfl rfl))
    · exact hs
  | token => exact (token lexer hr hl).trans (same rfl rfl rfl rfl rfl)
  | unclosed => exact unclosed lexer hr hl
  | unknown => exact unknown lexer hr

theorem step (lexer : Lexer) {b : UInt8} {rest : Bytes} (hr : lexer.rest = b :: rest) :
    Path lexer (lexer.step b rest) := by
  unfold Lexer.step
  split
  · exact readIndentation lexer
  · exact take lexer hr

theorem run (lexer : Lexer) : Path lexer lexer.run := by
  fun_induction Lexer.run lexer with
  | case1 lexer => exact refl lexer
  | case2 lexer b rest hr ih => exact (step lexer hr).trans ih

theorem finish (lexer : Lexer) : Path lexer lexer.finish :=
  (endLine lexer).trans ((closeBlocks _ _ _).trans (layout _ rfl))

end Path

theorem rest_run (lexer : Lexer) : lexer.run.rest = [] := by
  fun_induction Lexer.run lexer with
  | case1 lexer hr => exact hr
  | case2 lexer b rest _ ih => exact ih

inductive Reached (source : Bytes) : Lexer → Prop
  | start : Reached source (Lexer.start source)
  | step {lexer : Lexer} {b : UInt8} {rest : Bytes} (h : Reached source lexer)
    (hr : lexer.rest = b :: rest) : Reached source (lexer.step b rest)

theorem Reached.path {source : Bytes} (h : Reached source lexer) :
    Path (Lexer.start source) lexer := by
  induction h with
  | start => exact .refl _
  | step _ hr ih => exact ih.trans (.step _ hr)

end ManifestScan.Lexer
