import ManifestScan.Proofs.Signature.ClassLine
import ManifestScan.Proofs.Signature.Field

namespace ManifestScan

open Lexeme

inductive FieldTokens : List Token → Prop
  | nil : FieldTokens []
  | line {name colon line : Token} {word : Bytes} {tokens more : List Token}
    (hn : name.kind = TokenKind.ofWord word) (hc : colon.kind = .colon)
    (hp : ∀ token ∈ tokens, token.kind.isLayout = false)
    (ht : Turn.through 0 (tokens.filterMap Token.turn?) = some 0) (hl : line.kind = .newline)
    (hm : FieldTokens more) : FieldTokens (name :: colon :: (tokens ++ line :: more))

namespace Cursor

variable {cursor : Cursor}

theorem ofWord_plain (word : Bytes) : (TokenKind.ofWord word).isLayout = false ∧
    TokenKind.ofWord word ≠ .at ∧ (TokenKind.ofWord word).turn? = none := by
  exact TokenKind.forall_ofWord
    (fun kind => kind.isLayout = false ∧ kind ≠ .at ∧ kind.turn? = none) (by decide)
      (by decide) word

/-- Lines of fields define nothing that has a name. -/
theorem block_fields {tokens rest : List Token} (ht : FieldTokens tokens) (outermost : Bool)
    (h : cursor.rest = tokens ++ rest) :
    ∃ next unnamed, next.rest = rest ∧ (∀ definition ∈ unnamed, definition.name = []) ∧
      (block outermost [] cursor).value.definitions =
        unnamed ++ (block outermost [] next).value.definitions ∧
      (block outermost [] cursor).next = (block outermost [] next).next := by
  induction ht generalizing cursor with
  | nil => exact ⟨cursor, [], h, List.forall_mem_nil _, rfl, rfl⟩
  | @line name colon line word tokens more hn hc hp ht hl _ ih =>
    obtain ⟨hlayout, hat, hturn⟩ := ofWord_plain word
    rw [← hn] at hlayout hat hturn
    rw [List.cons_append, List.cons_append, List.append_assoc, List.cons_append] at h
    by_cases hk : name.kind = .defWord ∨ name.kind = .classWord
    · -- A keyword in front of the colon starts a definition without a name.
      have hnewline : ∀ other ∈ colon :: tokens, other.kind ≠ .newline := by
        refine List.forall_mem_cons.2 ⟨by simp [hc], fun other ho he => ?_⟩
        have := hp other ho
        rw [he] at this
        cases this
      have hrest := (moved_past cursor name (colon :: (tokens ++ line :: (more ++ rest)))).rest_eq
      obtain ⟨hform, hname, hnext⟩ := @header_unnamed _ _ _ name line tokens hrest (by simp [hc]) hl
        hnewline
      obtain ⟨hv, hx⟩ := (block_keyword h outermost hk).2 hform
      obtain ⟨next, unnamed, hr, hu, hd, hxn⟩ := ih hnext
      generalize header [] name _ = start at hname hv hd hx hxn
      refine ⟨next, closeDefinition start.definition start.next :: unnamed, hr,
        List.forall_mem_cons.2 ⟨hname, hu⟩, ?_, hx.trans hxn⟩
      rw [hv, hd, List.cons_append]
    · have hkeyword : cursor.pastAsync.pastKeyword? = none := by
        have hasync : cursor.pastAsync = cursor := by
          unfold pastAsync
          split
          · rename_i first second others he
            cases h.symm.trans he
            exact if_neg fun ha => by simp [hc] at ha
          · rfl
        rw [hasync, pastKeyword?, h]
        exact if_neg hk
      obtain ⟨hv, hx⟩ := block_unkeyed h outermost hlayout hat hkeyword
      -- Any other line of a field is a statement, whatever it calls.
      have hm := @statement_balanced cursor (name :: colon :: tokens) (more ++ rest) line 0 h hl
        (List.forall_mem_cons.2 ⟨hlayout, List.forall_mem_cons.2 ⟨by rw [hc]; rfl, hp⟩⟩)
        (by rw [through_cons, Token.turn?, hturn, List.filterMap_cons, Token.turn?, hc]; exact ht)
      obtain ⟨next, unnamed, hr, hu, hd, hxn⟩ := ih hm.rest_eq
      exact ⟨next, unnamed, hr, hu, by rw [hv, hd], hx.trans hxn⟩

/-- The block of a class with lines of fields ends with the last of their tokens. -/
theorem block_fields_close {tokens : List Token} {dedent last : Token} (ht : FieldTokens tokens)
    (h : cursor.rest = tokens ++ [dedent]) (hd : dedent.kind = .dedent)
    (hl : (tokens.filter (!·.kind.isLayout)).getLast? = some last) :
    (block false [] cursor).next.rest = [] ∧ (block false [] cursor).next.significant = last ∧
      ∀ definition ∈ (block false [] cursor).value.definitions, definition.name = [] := by
  obtain ⟨next, unnamed, hrest, hnames, hv, hx⟩ := block_fields ht false h
  obtain ⟨hvd, hxd⟩ := block_dedent hrest [] hd
  have hnil : (block false [] cursor).next.rest = [] := by
    rw [hx, hxd]
    rfl
  refine ⟨hnil, ?_, ?_⟩
  · have hpasses := (blockPath false [] cursor).reaches.passes
      (h.trans (by rw [hnil, List.append_nil] : tokens ++ [dedent] = _))
    have hlayout : (!dedent.kind.isLayout) = false := by rw [hd]; rfl
    rw [hpasses.significant_eq, List.filter_append, List.filter_cons_of_neg (by simp [hlayout]),
      List.filter_nil, List.append_nil, List.getLastD_eq_getLast?, hl]
    rfl
  · rw [hv, hvd, List.append_nil]
    exact hnames

end Cursor

namespace FieldLine

variable {line : FieldLine} {lexemes : List Lexeme}

def remarkLexemes (line : FieldLine) : List Lexeme :=
  line.comment.elim [] fun comment => [blank, blank, ⟨.filler, hash :: comment⟩]

def fieldLexemes (line : FieldLine) (lexemes : List Lexeme) : List Lexeme :=
  ofWord line.field.name :: ⟨.token .colon, [colon]⟩ :: lexemes

def indented (line : FieldLine) (blanks : Bytes) (lexemes : List Lexeme) : IndentedLine :=
  ⟨blanks, line.text, line.fieldLexemes lexemes ++ line.remarkLexemes⟩

theorem exists_inline (h : line.IsProper) :
    ∃ lexemes, Inline line.field.text (line.fieldLexemes lexemes) := by
  obtain ⟨lexemes, hl, hcolon⟩ := Parameter.Written.exists_inline h.field
  obtain ⟨hint, hh, -⟩ := h.hint
  have hfirst := hcolon (by rw [Option.mem_def.1 hh]; rfl)
  cases lexemes with
  | nil => cases hfirst
  | cons first others =>
    cases hfirst
    exact ⟨others, hl⟩

theorem lexes_remark (h : line.IsProper) (rest : Bytes) :
    Lexes (lineFeed :: rest) line.remark line.remarkLexemes := by
  unfold remark remarkLexemes
  cases hc : line.comment with
  | none => exact .nil
  | some comment =>
    have hd : ascii "  #" ++ comment = [space] ++ ([space] ++ hash :: comment) := by
      have : ascii "  #" = [space, space, hash] := by decide
      rw [this]
      rfl
    have hall : ∀ b ∈ comment, (b != lineFeed) = true := fun b hm =>
      bne_iff_ne.2 fun he => h.comment _ hc (he ▸ hm)
    have hread : read hash (comment ++ lineFeed :: rest) = ⟨.filler, hash :: comment⟩ := by
      have he : read hash (comment ++ lineFeed :: rest) =
          ⟨.filler, hash :: (comment ++ lineFeed :: rest).takeWhile (· != lineFeed)⟩ := rfl
      rw [he, List.takeWhile_append_of_pos hall, List.takeWhile_cons_of_neg (by decide),
        List.append_nil]
    have hlexes : Lexes (lineFeed :: rest) (hash :: comment) [⟨.filler, hash :: comment⟩] :=
      .one hread rfl (.comment hall rfl)
    rw [Option.elim_some, hd]
    exact (Lexes.space _).append ((Lexes.space _).append hlexes)

theorem tokensOf_remark (line : FieldLine) (offset : Nat) (location : Location) :
    tokensOf offset location line.remarkLexemes = [] := by
  unfold remarkLexemes
  cases line.comment <;> rfl

theorem isProper_indented (h : line.IsProper)
    (hl : Inline line.field.text (line.fieldLexemes lexemes))
    {blanks : Bytes} (hb : ∀ b ∈ blanks, isSpace b = true) :
    (line.indented blanks lexemes).IsProper := by
  have hname : ∀ b, isNameByte b = true →
      Lexer.isIndentByte b = false ∧ b ≠ carriageReturn ∧ b ≠ lineFeed ∧ b ≠ hash := by
    decide +kernel
  obtain ⟨b, more, hb', htext⟩ := Parameter.Written.text_cons h.field
  have hboundary (rest : Bytes) : IsBoundary (line.remark ++ lineFeed :: rest) := by
    unfold remark
    cases line.comment <;> exact .cons (by decide) _
  have hremark : ∀ lexeme ∈ line.remarkLexemes, lexeme.kind = .filler := by
    unfold remarkLexemes
    cases line.comment <;> simp [blank]
  refine ⟨fun b hm => ?_, fun rest => ?_, ⟨b, ?_, hname b hb'⟩, ?_, ?_,
    fun _ _ => List.cons_ne_nil _ _⟩
  · simp [Lexer.isIndentByte, hb b hm]
  · exact (hl.lexes _ (hboundary rest)).append (lexes_remark h rest)
  · show b ∈ line.text.head?
    rw [text, htext]
    rfl
  · refine flow_of_kinds (List.forall_mem_append.2 ⟨fun lexeme hm => ?_, fun lexeme hm => ?_⟩) 0
    · exact (hl.isInline lexeme hm).kind_cases
    · exact .inl (hremark lexeme hm)
  · have hturns : Turn.through 0 (turnsOf (line.indented blanks lexemes).lexemes) = some 0 := by
      have hnone : turnsOf line.remarkLexemes = [] := by
        unfold remarkLexemes
        cases line.comment <;> rfl
      unfold indented
      rw [turnsOf_append, hnone, List.append_nil]
      exact hl.balanced
    exact @nestingAfter_of_through _ 0 _ _ hturns

/-- The tokens of a line are those of its field. -/
theorem tokensOf_indented (h : line.IsProper)
    (hl : Inline line.field.text (line.fieldLexemes lexemes)) (blanks : Bytes) (offset : Nat)
    (location : Location) :
    ∃ (name colon last : Token) (tokens : List Token),
      tokensOf offset location (line.indented blanks lexemes).lexemes = name :: colon :: tokens ∧
      name.kind = TokenKind.ofWord line.field.name ∧ colon.kind = .colon ∧
      (∀ token ∈ name :: colon :: tokens, token.kind.isLayout = false) ∧
      Turn.through 0 (tokens.filterMap Token.turn?) = some 0 ∧
      (name :: colon :: tokens).getLast? = some last ∧
      last.stop = offset + line.field.text.length := by
  have htokens : tokensOf offset location (line.indented blanks lexemes).lexemes =
      tokensOf offset location (line.fieldLexemes lexemes) := by
    unfold indented
    rw [tokensOf_append, tokensOf_remark, List.append_nil]
  obtain ⟨front, last, hlast, hstop⟩ := getLast?_tokensOf (Parameter.Written.isTrimmed_text h.field)
    hl.text_eq hl.isInline offset location
  have hlayout := hl.tokens_not_layout offset location
  have hturns := hl.tokens_balanced offset location
  obtain ⟨name, mark, tokens, hfield, hname, hmark⟩ : ∃ name mark tokens,
      tokensOf offset location (line.fieldLexemes lexemes) = name :: mark :: tokens ∧
        name.kind = TokenKind.ofWord line.field.name ∧ mark.kind = .colon :=
    ⟨_, _, _, rfl, rfl, rfl⟩
  rw [hfield] at htokens hlast hlayout hturns
  refine ⟨name, mark, last, tokens, htokens, hname, hmark, hlayout, ?_, ?_, hstop⟩
  · obtain ⟨-, -, hturn⟩ := Cursor.ofWord_plain line.field.name
    rw [through_cons, Token.turn?, hname, hturn, List.filterMap_cons, Token.turn?, hmark] at hturns
    exact hturns
  · rw [hlast, List.getLast?_concat]

def Indents (blanks : Bytes) (lines : List FieldLine) (texts : List IndentedLine) : Prop :=
  List.Forall₂ (fun line text => ∃ lexemes, Inline line.field.text (line.fieldLexemes lexemes) ∧
    text = line.indented blanks lexemes) lines texts

theorem exists_indents (blanks : Bytes) {lines : List FieldLine}
    (h : ∀ line ∈ lines, line.IsProper) :
    ∃ texts, Indents blanks lines texts := by
  induction lines with
  | nil => exact ⟨[], .nil⟩
  | cons line lines ih =>
    obtain ⟨hline, hlines⟩ := List.forall_mem_cons.1 h
    obtain ⟨lexemes, hl⟩ := exists_inline hline
    obtain ⟨texts, ht⟩ := ih hlines
    exact ⟨_ :: texts, .cons ⟨lexemes, hl, rfl⟩ ht⟩

/-- The end of a line is all of it that is layout. -/
theorem filter_line {tokens more : List Token} {newline : Token}
    (hp : ∀ token ∈ tokens, token.kind.isLayout = false) (hl : newline.kind = .newline) :
    (tokens ++ newline :: more).filter (!·.kind.isLayout) =
      tokens ++ more.filter (!·.kind.isLayout) := by
  have hlayout : (!newline.kind.isLayout) = false := by rw [hl]; rfl
  rw [List.filter_append, List.filter_cons_of_neg (by simp [hlayout]),
    List.filter_eq_self.2 fun token hm => by simp [hp token hm]]

/-- The tokens of the lines, which one block holds, and where the last of them ends. -/
theorem stream_indents {blanks : Bytes} {lines : List FieldLine} {texts : List IndentedLine}
    (hi : Indents blanks lines texts) (h : ∀ line ∈ lines, line.IsProper) (hn : lines ≠ [])
    (offset : Nat) (location : Location) :
    ∃ (tokens : List Token) (last dedent final : Token),
      IndentedLine.stream offset location [Lexer.indentColumn blanks] texts =
        tokens ++ [dedent, final] ∧
      FieldTokens tokens ∧ dedent.kind = .dedent ∧
      (tokens.filter (!·.kind.isLayout)).getLast? = some last ∧
      last.stop = offset + (body blanks lines).length := by
  unfold Indents at hi
  induction hi generalizing offset location with
  | nil => exact absurd rfl hn
  | @cons line text lines texts hl hi ih =>
    obtain ⟨lexemes, hl, rfl⟩ := hl
    obtain ⟨hline, hlines⟩ := List.forall_mem_cons.1 h
    let stop := offset + blanks.length + line.text.length + 1
    let next := ((location.after blanks).after line.text).after [lineFeed]
    let newline : Token := .layout .newline stop next
    obtain ⟨name, mark, last, tokens, ht, hname, hmark, hlayout, hturns, hlast, hstop⟩ :=
      tokensOf_indented hline hl blanks (offset + blanks.length) (location.after blanks)
    have hrest := (List.forall_mem_cons.1 (List.forall_mem_cons.1 hlayout).2).2
    have hsame : IndentedLine.stream offset location [Lexer.indentColumn blanks]
        (line.indented blanks lexemes :: texts) = name :: mark :: (tokens ++ newline ::
          IndentedLine.stream stop next [Lexer.indentColumn blanks] texts) := by
      refine (@IndentedLine.stream_same (line.indented blanks lexemes) texts
        [Lexer.indentColumn blanks] offset location (Nat.lt_irrefl _)).trans ?_
      exact congrArg (· ++ newline :: _) ht
    have hfields {more : List Token} (hm : FieldTokens more) :
        FieldTokens (name :: mark :: (tokens ++ newline :: more)) :=
      .line hname hmark hrest hturns rfl hm
    -- Only behind the last line are the tokens that close the block.
    cases hi with
    | nil =>
      refine ⟨name :: mark :: (tokens ++ [newline]), last, .layout .dedent stop next,
        .layout .endOfFile stop next, ?_, hfields .nil, rfl, ?_, ?_⟩
      · rw [hsame]
        simp [IndentedLine.stream]
      · have := @filter_line (name :: mark :: tokens) [] newline hlayout rfl
        rw [List.filter_nil, List.append_nil] at this
        exact (congrArg List.getLast? this).trans hlast
      · rw [hstop, body, List.length_append, Nat.add_assoc]
    | @cons other text lines texts hother hi =>
      obtain ⟨more, last', dedent, final, hmore, hm, hd, hlast', hstop'⟩ :=
        ih hlines (List.cons_ne_nil _ _) stop next
      refine ⟨name :: mark :: (tokens ++ newline :: more), last', dedent, final, ?_, hfields hm, hd,
        ?_, ?_⟩
      · rw [hsame, hmore]
        simp
      · have := @filter_line (name :: mark :: tokens) more newline hlayout rfl
        rw [List.cons_append, List.cons_append] at this
        rw [this, List.getLast?_append, hlast']
        rfl
      · rw [hstop', body, List.length_append, List.length_append, List.length_cons]
        simp only [stop]
        omega

end FieldLine

end ManifestScan
