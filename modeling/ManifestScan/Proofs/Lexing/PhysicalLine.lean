import ManifestScan.Proofs.Lexing.LineByLine
import ManifestScan.Proofs.Text.Lines

namespace ManifestScan

def lineAt (source : Bytes) (offset : Nat) : Bytes := (source.drop offset).takeWhile (· != lineFeed)

/-- The layout tokens of a line whose content starts in the given column, from the columns of the
open blocks to those that are open in it, innermost first. -/
inductive Settles (column : Nat) : List Nat → List Token → List Nat → Prop
  | deeper {indents : List Nat} {token : Token} (hk : token.kind = .indent)
    (hc : indents.headD 0 < column) : Settles column indents [token] (column :: indents)
  | back {closed indents : List Nat} {layout : List Token}
    (hk : ∀ token ∈ layout, token.kind = .dedent) (hl : layout.length = closed.length)
    (hc : ∀ indent ∈ closed, column < indent) (hh : indents.headD 0 = column) :
    Settles column (closed ++ indents) layout indents

/-- The tokens of a source from the start of a physical line on, where blocks at the given
columns are open. -/
inductive PhysicalLines (source : Bytes) : Nat → List Nat → List Token → Prop
  | nil {start : Nat} {indents : List Nat} {dedents : List Token} {final : Token}
    (hs : source.length < start) (hk : ∀ token ∈ dedents, token.kind = .dedent)
    (hl : dedents.length = indents.length) (hf : final.kind = .endOfFile) :
    PhysicalLines source start indents (dedents ++ [final])
  | idle {start : Nat} {indents : List Nat} {tokens : List Token} (hs : start ≤ source.length)
    (hi : isIdleLine (lineAt source start) = true)
    (h : PhysicalLines source (start + (lineAt source start).length + 1) indents tokens) :
    PhysicalLines source start indents tokens
  /-- Behind the last token of a line there is at most a comment. -/
  | content {start : Nat} {indents inner : List Nat} {layout words tokens : List Token}
    {last newline : Token} (hs : start ≤ source.length)
    (hi : isIdleLine (lineAt source start) = false)
    (hl : Settles (indentation (lineAt source start)) indents layout inner)
    (hw : ∀ word ∈ words ++ [last], word.kind.isLayout = false ∧ start ≤ word.offset ∧
      word.stop ≤ start + (lineAt source start).length)
    (hb : isIdleLine (slice source last.stop (start + (lineAt source start).length)) = true)
    (hn : newline.kind = .newline)
    (h : PhysicalLines source (start + (lineAt source start).length + 1) inner tokens) :
    PhysicalLines source start indents (layout ++ (words ++ last :: newline :: tokens))

theorem lineFeed_notMem_lineAt (source : Bytes) (offset : Nat) :
    lineFeed ∉ lineAt source offset := by
  intro hm
  have := List.mem_takeWhile_imp hm
  simp at this

/-- A line ends at a line break or with the source. -/
theorem drop_lineAt {source : Bytes} {offset : Nat} (h : offset ≤ source.length) :
    let stop := offset + (lineAt source offset).length
    source.drop offset = lineAt source offset ++ source.drop stop ∧
      stop ≤ source.length ∧
      (source.drop stop = [] ∧ stop = source.length ∨
        source.drop stop = lineFeed :: source.drop (stop + 1) ∧ stop + 1 ≤ source.length) := by
  intro stop
  have hsplit : lineAt source offset ++ (source.drop offset).dropWhile (· != lineFeed) =
      source.drop offset := List.takeWhile_append_dropWhile
  have hd : source.drop stop = (source.drop offset).dropWhile (· != lineFeed) := by
    have := congrArg (List.drop (lineAt source offset).length) hsplit
    rw [List.drop_left, List.drop_drop] at this
    exact this.symm
  have hle : stop ≤ source.length := by
    have := congrArg List.length hsplit
    rw [List.length_append, List.length_drop] at this
    omega
  refine ⟨hd ▸ hsplit.symm, hle, ?_⟩
  cases hr : source.drop stop with
  | nil =>
    have := List.drop_eq_nil_iff.1 hr
    exact .inl ⟨rfl, by omega⟩
  | cons b rest =>
    have hb : b = lineFeed := by
      have := List.head?_dropWhile_not (· != lineFeed) (source.drop offset)
      rw [← hd, hr] at this
      simpa using this
    have hlength := congrArg List.length hr
    rw [List.length_drop, List.length_cons] at hlength
    refine .inr ⟨?_, by omega⟩
    rw [← List.drop_drop, hr, hb]
    rfl

theorem slice_lineAt {source : Bytes} {offset : Nat} (h : offset ≤ source.length) :
    slice source offset (offset + (lineAt source offset).length) = lineAt source offset := by
  unfold slice
  rw [(drop_lineAt h).1, Nat.add_sub_cancel_left, List.take_left]

namespace Lexer

open Lexeme

variable {source : Bytes} {lexer next : Lexer} {column : Nat}

/-- A line is settled without a fault at the column of a block that stays open. -/
theorem settles_settle (hf : (lexer.settle column).faults = []) : ∃ layout,
    (lexer.settle column).tokens = layout.reverse ++ lexer.tokens ∧
      Settles column lexer.indents layout (lexer.settle column).indents ∧
      (lexer.settle column).offset = lexer.offset ∧ (lexer.settle column).atLineStart = false := by
  by_cases hlt : lexer.column < column
  · have he : lexer.settle column =
        { ({ lexer with atLineStart := false } : Lexer).addLayout .indent with
          indents := column :: lexer.indents } := if_pos hlt
    rw [he]
    exact ⟨[_], rfl, .deeper rfl hlt, rfl, rfl⟩
  · obtain ⟨closed, layout, hi, hc, hl, hk, ht, ho, -⟩ :=
      exists_closes column { lexer with atLineStart := false } lexer.indents
    have hs := atLineStart_closeBlocks column { lexer with atLineStart := false } lexer.indents
    have he : lexer.settle column =
        if (closeBlocks column { lexer with atLineStart := false } lexer.indents).column =
          column then
          closeBlocks column { lexer with atLineStart := false } lexer.indents
        else (closeBlocks column { lexer with atLineStart := false } lexer.indents).report
          .unmatchedUnindent [] := if_neg hlt
    by_cases hcolumn :
        (closeBlocks column { lexer with atLineStart := false } lexer.indents).column = column
    · rw [if_pos hcolumn] at he
      rw [he]
      refine ⟨layout, ht, ?_, ho, hs⟩
      have hsettles := @Settles.back column closed _ layout hk hl hc hcolumn
      rwa [← hi] at hsettles
    · rw [if_neg hcolumn] at he
      rw [he] at hf
      cases hf

/-- At the end of the source the last line and all blocks are closed. -/
theorem Reached.exists_final (h : Reached source lexer) (hr : lexer.rest = []) :
    ∃ ends dedents final, (tokenize source).tokens =
        lexer.tokens.reverse ++ (ends ++ (dedents ++ [final])) ∧
      (∀ token ∈ dedents, token.kind = .dedent) ∧ dedents.length = lexer.indents.length ∧
      final.kind = .endOfFile ∧ (lexer.isFresh = true → ends = []) ∧
      (lexer.isFresh = false → ∃ newline, ends = [newline] ∧ newline.kind = .newline) := by
  have hrun : (Lexer.start source).run = lexer := by rw [h.run_eq, run_nil hr]
  obtain ⟨ends, hends, hindents, hfresh, hnot⟩ : ∃ ends,
      lexer.endLine.tokens = ends ++ lexer.tokens ∧ lexer.endLine.indents = lexer.indents ∧
        (lexer.isFresh = true → ends = []) ∧
        (lexer.isFresh = false → ∃ newline, ends = [newline] ∧ newline.kind = .newline) := by
    rw [endLine_eq]
    cases lexer.isFresh with
    | true => exact ⟨[], rfl, rfl, fun _ => rfl, nofun⟩
    | false => exact ⟨[_], rfl, rfl, nofun, fun _ => ⟨_, rfl, rfl⟩⟩
  obtain ⟨closed, dedents, hi, -, hl, hk, ht, -⟩ :=
    exists_closes 0 lexer.endLine lexer.endLine.indents
  rw [h.nests.endLine.indents_closeBlocks, List.append_nil] at hi
  obtain ⟨final, hfinal, hfk⟩ : ∃ final, lexer.finish.tokens =
      final :: (closeBlocks 0 lexer.endLine lexer.endLine.indents).tokens ∧
        final.kind = .endOfFile := ⟨_, rfl, rfl⟩
  refine ⟨ends, dedents, final, ?_, hk, by rw [hl, ← hindents, hi], hfk, hfresh, hnot⟩
  have hone : ends.reverse = ends := by
    cases hf : lexer.isFresh with
    | true => rw [hfresh hf]; rfl
    | false =>
      obtain ⟨newline, he, -⟩ := hnot hf
      rw [he]
      rfl
  unfold tokenize
  dsimp only
  rw [hrun, hfinal, ht, hends]
  simp [hone]

structure ReadsLine (source : Bytes) (lexer : Lexer) (words : List Token) (next : Lexer) :
    Prop where
  reached : Reached source next
  atLineStart : next.atLineStart = false
  indents : next.indents = lexer.indents
  tokens : next.tokens = words.reverse ++ lexer.tokens
  offset_le : lexer.offset ≤ next.offset
  bounds : ∀ word ∈ words, word.kind.isLayout = false ∧ lexer.offset ≤ word.offset ∧
    word.stop ≤ next.offset
  idle : isIdleLine (slice source ((words.getLast?.map Token.stop).getD lexer.offset)
    next.offset) = true

namespace ReadsLine

variable {words : List Token} {text : Bytes}

theorem nil (h : Reached source lexer) (hs : lexer.atLineStart = false) :
    ReadsLine source lexer [] lexer := by
  refine ⟨h, hs, rfl, rfl, Nat.le_refl _, List.forall_mem_nil _, ?_⟩
  show isIdleLine (slice source lexer.offset lexer.offset) = true
  rw [slice_self]
  rfl

/-- A line goes on behind a blank. -/
theorem blank {b : UInt8} (hb : isBlank b = true)
    (hd : slice source lexer.offset (lexer.offset + 1) = [b])
    (h : ReadsLine source (lexer.take ⟨.filler, [b]⟩) words next) :
    ReadsLine source lexer words next := by
  have hle : lexer.offset + 1 ≤ next.offset := h.offset_le
  refine ⟨h.reached, h.atLineStart, h.indents, h.tokens, by omega, fun word hm => ?_, ?_⟩
  · obtain ⟨hk, hstart, hstop⟩ := h.bounds word hm
    exact ⟨hk, Nat.le_trans (Nat.le_add_right _ _) hstart, hstop⟩
  · have hidle := h.idle
    cases words with
    | nil =>
      show isIdleLine (slice source lexer.offset next.offset) = true
      rw [← slice_append (Nat.le_add_right _ 1) hle, hd, isIdleLine_append (by simp [hb])]
      exact hidle
    | cons word words =>
      rw [List.getLast?_cons] at hidle ⊢
      exact hidle

/-- A comment ends a line. -/
theorem comment (h : Reached source (lexer.take ⟨.filler, hash :: text⟩))
    (hs : lexer.atLineStart = false)
    (ht : slice source lexer.offset (lexer.offset + (hash :: text).length) = hash :: text) :
    ReadsLine source lexer [] (lexer.take ⟨.filler, hash :: text⟩) := by
  refine ⟨h, hs, rfl, rfl, Nat.le_add_right _ _, List.forall_mem_nil _, ?_⟩
  show isIdleLine (slice source lexer.offset (lexer.offset + (hash :: text).length)) = true
  rw [ht]
  exact isIdleLine_append_cons (List.forall_mem_nil _) rfl text

/-- A line goes on behind a token. -/
theorem token {kind : TokenKind} (hk : kind.isLayout = false)
    (h : ReadsLine source (lexer.take ⟨.token kind, text⟩) words next) :
    ReadsLine source lexer
      (⟨kind, text, lexer.offset, lexer.location, lexer.location.after text⟩ :: words) next := by
  have hle : lexer.offset + text.length ≤ next.offset := h.offset_le
  refine ⟨h.reached, h.atLineStart, h.indents, ?_, by omega, ?_, ?_⟩
  · rw [h.tokens, List.reverse_cons, List.append_assoc]
    rfl
  · refine List.forall_mem_cons.2 ⟨⟨hk, Nat.le_refl _, hle⟩, fun word hm => ?_⟩
    obtain ⟨hk, hstart, hstop⟩ := h.bounds word hm
    exact ⟨hk, Nat.le_trans (Nat.le_add_right _ _) hstart, hstop⟩
  · have hidle := h.idle
    rw [List.getLast?_cons]
    cases words with
    | nil => exact hidle
    | cons word words =>
      rw [List.getLast?_cons] at hidle ⊢
      exact hidle

end ReadsLine

/-- A text without a line feed does not reach behind a line. -/
theorem prefix_of_notMem {text line rest : Bytes} (h : text <+: line ++ rest)
    (hn : lineFeed ∉ text) (hr : rest.head?.all (· == lineFeed) = true) : text <+: line := by
  rcases List.prefix_or_prefix_of_prefix h (List.prefix_append line rest) with h' | ⟨more, rfl⟩
  · exact h'
  · rw [List.prefix_append_right_inj] at h
    cases more with
    | nil => rw [List.append_nil]
    | cons b more =>
      obtain ⟨after, rfl⟩ := h
      have hb : b = lineFeed := by simpa using hr
      exact absurd (by simp [hb]) hn

end Lexer

open Lexer in
theorem LineByLine.blanks_rest {source : Bytes} (h : LineByLine source) {lexer : Lexer}
    (hr : Reached source lexer) : ∀ b ∈ lexer.rest, b ∉ [0x0B, formFeed, carriageReturn] := by
  intro b hb
  rw [hr.stands.rest_eq] at hb
  exact h.blanks b (List.mem_of_mem_drop hb)

open Lexer in
/-- A line is read up to its end. -/
theorem LineByLine.exists_words {source : Bytes} (h : LineByLine source) {lexer : Lexer}
    (hr : Reached source lexer) (hs : lexer.atLineStart = false) {line rest : Bytes}
    (hl : lexer.rest = line ++ rest) (hn : lineFeed ∉ line)
    (he : rest.head?.all (· == lineFeed) = true) : ∃ words next, ReadsLine source lexer words next ∧
      next.rest = rest ∧ next.offset = lexer.offset + line.length := by
  induction hk : line.length using Nat.strong_induction_on generalizing lexer line with
  | _ n ih =>
    subst hk
    -- Not structural: a line goes on behind the lexeme that is read.
    cases line with
    | nil => exact ⟨[], lexer, .nil hr hs, hl, rfl⟩
    | cons b line =>
      obtain ⟨hb, hline⟩ : b ≠ lineFeed ∧ lineFeed ∉ line := by
        rw [List.mem_cons, not_or] at hn
        exact ⟨Ne.symm hn.1, hn.2⟩
      have hslice (part more : Bytes) (hp : part ++ more = b :: line ++ rest) :
          slice source lexer.offset (lexer.offset + part.length) = part :=
        (hr.stands.text_eq ⟨more, hp.trans hl.symm⟩).symm
      have hnext : Reached source (lexer.step b (line ++ rest)) := hr.step hl
      have hstep : lexer.step b (line ++ rest) = lexer.take (Lexeme.read b (line ++ rest)) :=
        if_neg (by simp [hs])
      rw [hstep] at hnext
      have hclean := hnext.faults_eq h.faults_eq
      have hform := Lexeme.form_read b (line ++ rest)
      generalize hlexeme : Lexeme.read b (line ++ rest) = lexeme at hnext hclean hform
      have hrest (part more : Bytes) (hp : part ++ more = b :: line ++ rest) (kind : LexemeKind) :
          (lexer.take ⟨kind, part⟩).rest = more := by
        rw [rest_take, hl, ← hp, List.drop_left]
      cases hform with
      | blank hblank =>
        have hspace : isBlank b = true := by
          have hall : ∀ c ∈ [space, tab, carriageReturn, lineFeed, formFeed], isBlank c = true := by
            decide +kernel
          exact hall b hblank
        obtain ⟨words, next, hw, hnr, hno⟩ := ih line.length (Nat.lt_succ_self _) hnext hs
          (hrest [b] (line ++ rest) rfl .filler) hline rfl
        refine ⟨words, next, hw.blank hspace (hslice [b] (line ++ rest) rfl), hnr, ?_⟩
        rw [hno, List.length_cons]
        show lexer.offset + 1 + line.length = _
        omega
      | join hj => exact absurd ⟨_, (hl.trans hj).symm⟩ (h.unjoined lexer hr)
      | @joinReturn after hj =>
        have hreturn : carriageReturn ∈ lexer.rest := by
          rw [hl, List.cons_append, hj]
          simp
        exact absurd (by simp) (h.blanks_rest hr carriageReturn hreturn)
      | comment hh =>
        subst hh
        rw [takeWhile_ne_append hline he] at hnext
        exact ⟨[], _, .comment hnext hs (hslice (hash :: line) rest rfl),
          hrest (hash :: line) rest rfl .filler, rfl⟩
      | lineBreak hb' => exact absurd hb' hb
      | @token kind text hp =>
        have hne := Lexeme.read_text_ne_nil b (line ++ rest)
        rw [hlexeme] at hne
        have hclear : lineFeed ∉ text :=
          h.unbroken _ (hnext.mem_tokens _ List.mem_cons_self)
        obtain ⟨left, hleft⟩ := @prefix_of_notMem text (b :: line) rest hp hclear he
        have hsplit : text ++ (left ++ rest) = b :: line ++ rest := by
          rw [← List.append_assoc, hleft]
        have hlength : text.length + left.length = (b :: line).length := by
          rw [← hleft, List.length_append]
        have hpos : 0 < text.length := List.length_pos_iff.2 hne
        obtain ⟨words, next, hw, hnr, hno⟩ := ih left.length (by omega) hnext hs
          (hrest text (left ++ rest) hsplit (.token kind))
          (fun hm => hn (by rw [← hleft]; exact List.mem_append_right _ hm)) rfl
        refine ⟨_, next, hw.token (Lexeme.shown_of_read hlexeme).isLayout, hnr, ?_⟩
        rw [hno, ← hlength]
        show lexer.offset + text.length + left.length = _
        omega
      | unclosed => exact absurd hclean (faults_take_unclosed rfl)
      | unknown => exact absurd hclean (faults_take_unknown rfl)

/-- The indentation of a line whose only blanks are spaces and tabs, and its content. -/
theorem exists_blanks {line : Bytes} (hl : ∀ b ∈ line, b ∉ [0x0B, formFeed, carriageReturn])
    (hn : lineFeed ∉ line) : ∃ blanks behind, line = blanks ++ behind ∧
      (∀ b ∈ blanks, Lexer.isIndentByte b = true) ∧
      Lexer.indentColumn blanks = indentation line ∧
      (behind = [] ∧ isIdleLine line = true ∨ ∃ c more, behind = c :: more ∧
        Lexer.isIndentByte c = false ∧ c ≠ carriageReturn ∧ c ≠ lineFeed ∧
        isIdleLine line = (c == hash) ∧ isIdleLine behind = (c == hash)) := by
  have hsplit : line.takeWhile isSpace ++ line.dropWhile isSpace = line :=
    List.takeWhile_append_dropWhile
  have hspace : ∀ b ∈ line.takeWhile isSpace, isSpace b = true := fun b => List.mem_takeWhile_imp
  have hblank : ∀ b ∈ line.takeWhile isSpace, isBlank b = true :=
    fun b hb => isBlank_of_isSpace b (hspace b hb)
  have hcolumn : Lexer.indentColumn (line.takeWhile isSpace) = indentation line := by
    have hstep : ∀ b ∈ line.takeWhile isSpace, b ≠ formFeed := by
      rintro b hb rfl
      exact absurd (hspace _ hb) (by decide)
    exact List.foldl_ext _ _ 0 fun column b hb => if_neg (hstep b hb)
  refine ⟨_, _, hsplit.symm, fun b hb => ?_, hcolumn, ?_⟩
  · unfold Lexer.isIndentByte
    rw [hspace b hb, Bool.true_or]
  cases hd : line.dropWhile isSpace with
  | nil =>
    rw [hd, List.append_nil] at hsplit
    rw [hsplit] at hblank
    have := isIdleLine_append hblank []
    rw [List.append_nil] at this
    exact .inl ⟨rfl, this⟩
  | cons c more =>
    rw [hd] at hsplit
    have hm : c ∈ line := by rw [← hsplit]; simp
    have hc : isSpace c = false := by
      have := List.head?_dropWhile_not isSpace line
      rw [hd] at this
      simpa using this
    -- A byte that is neither a space nor one of the excluded blanks is no blank at all.
    have hall : ∀ c : UInt8, isSpace c = false → c ∉ [0x0B, formFeed, carriageReturn] →
        c ≠ lineFeed → isBlank c = false ∧ Lexer.isIndentByte c = false ∧ c ≠ carriageReturn := by
      decide +kernel
    have hlf : c ≠ lineFeed := by
      rintro rfl
      exact hn hm
    obtain ⟨hcb, hci, hcr⟩ := hall c hc (hl c hm) hlf
    refine .inr ⟨c, more, rfl, hci, hcr, hlf, ?_, ?_⟩
    · rw [← hsplit]
      exact isIdleLine_append_cons hblank hcb more
    · exact isIdleLine_append_cons (List.forall_mem_nil _) hcb more

namespace Lexer

variable {source line rest : Bytes} {lexer : Lexer}

/-- What is left of a source is the line that goes on, and behind it a line break or nothing. -/
theorem Stands.exists_behind (h : lexer.Stands source) : ∃ rest,
    lexer.rest = lineAt source lexer.offset ++ rest ∧ lineFeed ∉ lineAt source lexer.offset ∧
      rest.head?.all (· == lineFeed) = true ∧
      (rest = [] ∧ lexer.offset + (lineAt source lexer.offset).length = source.length ∨
        rest = lineFeed ::
          source.drop (lexer.offset + (lineAt source lexer.offset).length + 1)) := by
  obtain ⟨hsplit, -, hbehind⟩ := drop_lineAt h.offset_le
  refine ⟨_, h.rest_eq.trans hsplit, lineFeed_notMem_lineAt _ _, ?_, hbehind.imp_right And.left⟩
  rcases hbehind with ⟨hd, -⟩ | ⟨hd, -⟩ <;> rw [hd] <;> rfl

/-- A step at the start of a line. -/
theorem Reached.readIndentation (h : Reached source lexer) (hs : lexer.atLineStart = true)
    (hr : lexer.rest ≠ []) : Reached source lexer.readIndentation := by
  obtain ⟨b, rest, hb⟩ := List.exists_cons_of_ne_nil hr
  have hstep := h.step hb
  unfold Lexer.step at hstep
  rwa [if_pos ⟨hs, h.nesting_eq_zero hs⟩] at hstep

/-- A line without content is passed with its end. -/
theorem Reached.skip_idle (h : Reached source lexer) (hs : lexer.atLineStart = true)
    (hl : lexer.rest = line ++ rest) (hb : ∀ b ∈ line, b ∉ [0x0B, formFeed, carriageReturn])
    (hn : lineFeed ∉ line) (he : rest.head?.all (· == lineFeed) = true)
    (hi : isIdleLine line = true) : Reached source (lexer.skip (line ++ rest.take 1)) := by
  -- The end of a line at the start of its line.
  have hend {lexer : Lexer} (h : Reached source lexer) (hs : lexer.atLineStart = true)
      {blanks : Bytes} (hb : ∀ b ∈ blanks, isIndentByte b = true)
        (hl : lexer.rest = blanks ++ rest) :
      Reached source (lexer.skip (blanks ++ rest.take 1)) := by
    cases rest with
    | nil =>
      rw [List.append_nil] at hl
      by_cases hnil : blanks = []
      · subst hnil
        exact h
      · have hread := h.readIndentation hs (by rwa [hl])
        unfold Lexer.readIndentation at hread
        have ht : lexer.rest.takeWhile isIndentByte = blanks := by
          rw [hl, List.takeWhile_eq_self_iff.2 hb]
        have hd : (lexer.skip blanks).rest = [] := by rw [rest_skip, hl, List.drop_length]
        rw [ht] at hread
        dsimp only at hread
        rw [hd] at hread
        simpa using hread
    | cons c more =>
      have hc : c = lineFeed := by simpa using he
      subst hc
      have hread := h.readIndentation hs (by rw [hl]; simp)
      rwa [readIndentation_eq hb (by decide) hl, if_neg (by simp [lineFeed, carriageReturn]),
        if_pos rfl, skip_skip] at hread
  obtain ⟨blanks, behind, rfl, hblanks, -, ⟨rfl, -⟩ | ⟨c, more, rfl, hc, hcr, hlf, hidle, -⟩⟩ :=
    exists_blanks hb hn
  · rw [List.append_nil] at hl ⊢
    exact hend h hs hblanks hl
  · rw [hi] at hidle
    have hhash : c = hash := by simpa using hidle.symm
    rw [List.append_assoc, List.cons_append] at hl
    have hmore : lineFeed ∉ more := fun hm => hn (by simp [hm])
    have hread := h.readIndentation hs (by rw [hl]; simp)
    rw [readIndentation_eq hblanks hc hl, if_neg fun hx => hcr hx.1, if_neg hlf, if_pos hhash,
      takeWhile_ne_append hmore he, skip_skip] at hread
    have hrest : (lexer.skip (blanks ++ c :: more)).rest = rest := by
      rw [rest_skip, hl, ← List.cons_append, ← List.append_assoc, List.drop_left]
    have := @hend (lexer.skip (blanks ++ c :: more)) hread hs [] (List.forall_mem_nil _) hrest
    rwa [List.nil_append, skip_skip] at this

end Lexer

namespace LineByLine

open Lexer

variable {source : Bytes} {lexer : Lexer}

/-- A line with content is read up to its end, and some token stands in it. -/
theorem exists_content (h : LineByLine source) (hr : Reached source lexer)
    (hs : lexer.atLineStart = true) {line rest : Bytes} (hl : lexer.rest = line ++ rest)
    (hn : lineFeed ∉ line) (he : rest.head?.all (· == lineFeed) = true)
    (hi : isIdleLine line = false) : ∃ settled layout words last next,
      settled.tokens = layout.reverse ++ lexer.tokens ∧
      Settles (indentation line) lexer.indents layout settled.indents ∧
      lexer.offset ≤ settled.offset ∧ ReadsLine source settled (words ++ [last]) next ∧
      next.rest = rest ∧ next.offset = lexer.offset + line.length := by
  have hb : ∀ b ∈ line, b ∉ [0x0B, formFeed, carriageReturn] :=
    fun b hm => h.blanks_rest hr b (hl ▸ List.mem_append_left _ hm)
  obtain ⟨blanks, behind, rfl, hblanks, hcolumn,
    ⟨-, hidle⟩ | ⟨c, more, rfl, hc, hcr, hlf, hidle, hbehind⟩⟩ := exists_blanks hb hn
  · rw [hidle] at hi
    cases hi
  rw [hi] at hidle
  have hhash : c ≠ hash := by simpa using hidle.symm
  rw [List.append_assoc] at hl
  have hread := hr.readIndentation hs (by rw [hl]; simp)
  rw [readIndentation_eq hblanks hc hl, if_neg fun hx => hcr hx.1, if_neg hlf, if_neg hhash,
    hcolumn] at hread
  obtain ⟨layout, ht, hsettles, ho, hstart⟩ := settles_settle (hread.faults_eq h.faults_eq)
  have hrest : ((lexer.skip blanks).settle (indentation (blanks ++ c :: more))).rest =
      c :: more ++ rest := by
    rw [rest_settle, rest_skip, hl, List.drop_left]
  obtain ⟨words, next, hwords, hnr, hno⟩ := h.exists_words hread hstart hrest
    (fun hm => hn (List.mem_append_right _ hm)) he
  have hoffset : next.offset = lexer.offset + (blanks ++ c :: more).length := by
    rw [hno, ho, List.length_append]
    exact Nat.add_assoc _ _ _
  -- A line without a token is an idle one, and this line is none.
  rcases List.eq_nil_or_concat words with rfl | ⟨words, last, rfl⟩
  · have hwhole := hwords.idle
    unfold slice at hwhole
    rw [hno] at hwhole
    simp only [List.getLast?_nil, Option.map_none, Option.getD_none, Nat.add_sub_cancel_left,
      ← hread.stands.rest_eq, hrest, List.take_left, hbehind] at hwhole
    exact absurd (eq_of_beq hwhole) hhash
  · rw [List.concat_eq_append] at hwords
    exact ⟨_, layout, words, last, next, ht, hsettles, ho ▸ Nat.le_add_right _ _, hwords,
      hnr, hoffset⟩

/-- The end of a line that has a token. -/
theorem exists_newline (h : LineByLine source) (hr : Reached source lexer)
    (hs : lexer.atLineStart = false) {more : Bytes} (hl : lexer.rest = lineFeed :: more)
    (hf : lexer.isFresh = false) : ∃ newline next, newline.kind = .newline ∧ Reached source next ∧
      next.atLineStart = true ∧ next.tokens = newline :: lexer.tokens ∧
      next.indents = lexer.indents ∧ next.rest = more ∧ next.offset = lexer.offset + 1 := by
  have hstep : lexer.step lineFeed more =
      { (lexer.skip [lineFeed]).endLine with atLineStart := true } := by
    have hread : Lexeme.read lineFeed more = ⟨.lineBreak, [lineFeed]⟩ := rfl
    unfold Lexer.step
    rw [if_neg (by simp [hs]), hread]
    exact if_pos (h.nesting_eq_zero hr hs hl)
  have hend : (lexer.skip [lineFeed]).endLine = (lexer.skip [lineFeed]).addLayout .newline := by
    have hf' : (lexer.skip [lineFeed]).isFresh = false := hf
    rw [endLine_eq, hf']
    rfl
  have hnext := hr.step hl
  rw [hstep, hend] at hnext
  have hrest : lexer.rest.drop 1 = more := by
    rw [hl]
    rfl
  exact ⟨_, _, rfl, hnext, rfl, rfl, rfl, hrest, rfl⟩

def AddsLines (source : Bytes) (lexer : Lexer) : Prop :=
  ∃ later, (tokenize source).tokens = lexer.tokens.reverse ++ later ∧
    PhysicalLines source lexer.offset lexer.indents later

section

variable (h : LineByLine source) (hr : Reached source lexer) (hs : lexer.atLineStart = true)
  (ih : ∀ next, Reached source next → next.atLineStart = true → next.isFresh = true →
    next.rest.length < lexer.rest.length → AddsLines source next)

include h hr hs ih

/-- A line without content adds no token, so the lines behind it are all that is read. -/
theorem addsLines_idle (hf : lexer.isFresh = true)
    (hi : isIdleLine (lineAt source lexer.offset) = true) : AddsLines source lexer := by
  have hle := hr.stands.offset_le
  obtain ⟨rest, hl, hn, he, hbehind⟩ := hr.stands.exists_behind
  have hb : ∀ b ∈ lineAt source lexer.offset, b ∉ [0x0B, formFeed, carriageReturn] :=
    fun b hm => h.blanks_rest hr b (hl ▸ List.mem_append_left _ hm)
  have hnext := hr.skip_idle hs hl hb hn he hi
  rcases hbehind with ⟨rfl, hend⟩ | hd
  · have hnil : (lexer.skip (lineAt source lexer.offset ++ ([] : Bytes).take 1)).rest = [] := by
      rw [rest_skip, hl]
      exact List.drop_length
    obtain ⟨ends, dedents, final, htokens, hdedents, hlength, hfinal, hends, -⟩ :=
      hnext.exists_final hnil
    rw [hends hf] at htokens
    exact ⟨_, htokens, .idle hle hi (.nil (by omega) hdedents hlength hfinal)⟩
  · rw [hd] at hnext hl
    have hlt : (lexer.skip (lineAt source lexer.offset ++ [lineFeed])).rest.length <
        lexer.rest.length := by
      rw [rest_skip, hl, List.length_drop]
      simp only [List.length_append, List.length_cons, List.length_nil]
      omega
    obtain ⟨later, htokens, hlines⟩ := ih _ hnext hs hf hlt
    refine ⟨later, htokens, .idle hle hi ?_⟩
    rwa [Nat.add_assoc, ← List.length_singleton (a := lineFeed), ← List.length_append]

/-- A line with content adds its layout, its words and its end. -/
theorem addsLines_content (hi : isIdleLine (lineAt source lexer.offset) = false) :
    AddsLines source lexer := by
  have hle := hr.stands.offset_le
  obtain ⟨rest, hl, hn, he, hbehind⟩ := hr.stands.exists_behind
  obtain ⟨settled, layout, words, last, next, ht, hsettles, ho, hwords, hnr, hno⟩ :=
    h.exists_content hr hs hl hn he hi
  have htokens := hwords.tokens
  rw [List.reverse_append, List.append_assoc, ht] at htokens
  have hbounds : ∀ word ∈ words ++ [last], word.kind.isLayout = false ∧
      lexer.offset ≤ word.offset ∧
        word.stop ≤ lexer.offset + (lineAt source lexer.offset).length := by
    intro word hm
    obtain ⟨hk, hstart, hend⟩ := hwords.bounds word hm
    exact ⟨hk, Nat.le_trans ho hstart, hno ▸ hend⟩
  have hidle := hwords.idle
  rw [List.getLast?_concat, hno] at hidle
  have hnot : next.isFresh = false := by
    rw [isFresh, htokens]
    exact (hbounds last (by simp)).1
  rcases hbehind with ⟨rfl, hend⟩ | rfl
  · obtain ⟨ends, dedents, final, hall, hdedents, hlength, hfinal, -, hends⟩ :=
      hwords.reached.exists_final hnr
    obtain ⟨newline, rfl, hk⟩ := hends hnot
    refine ⟨_, ?_, .content hle hi hsettles hbounds hidle hk
      (.nil (by omega) hdedents (hwords.indents ▸ hlength) hfinal)⟩
    rw [hall, htokens]
    simp
  · obtain ⟨newline, start, hk, hreached, hstart, hat, hindents, hmore, hoffset⟩ :=
      h.exists_newline hwords.reached hwords.atLineStart hnr hnot
    have hlt : start.rest.length < lexer.rest.length := by
      rw [hmore, hl, List.length_append, List.length_cons]
      omega
    have hfresh : start.isFresh = true := by
      rw [isFresh, hat]
      exact congrArg TokenKind.isLayout hk
    obtain ⟨later, hall, hlines⟩ := ih _ hreached hstart hfresh hlt
    rw [hoffset, hno, hindents, hwords.indents] at hlines
    refine ⟨_, ?_, .content hle hi hsettles hbounds hidle hk hlines⟩
    rw [hall, hat, htokens]
    simp

end

/-- What a lexer reads from the start of a line on. -/
theorem physicalLines (h : LineByLine source) (hr : Reached source lexer)
    (hs : lexer.atLineStart = true) (hf : lexer.isFresh = true) : AddsLines source lexer := by
  -- A line is passed as a whole, so the induction is on the length of what is left.
  induction hk : lexer.rest.length using Nat.strong_induction_on generalizing lexer with
  | _ n ih =>
    subst hk
    have ih (next : Lexer) (hr : Reached source next) (hs : next.atLineStart = true)
        (hf : next.isFresh = true) (hlt : next.rest.length < lexer.rest.length) :
        AddsLines source next := ih _ hlt hr hs hf rfl
    cases hi : isIdleLine (lineAt source lexer.offset) with
    | true => exact h.addsLines_idle hr hs ih hf hi
    | false => exact h.addsLines_content hr hs ih hi

theorem physicalLines_tokenize (h : LineByLine source) :
    PhysicalLines source 0 [] (tokenize source).tokens := by
  obtain ⟨later, ht, hlines⟩ := h.physicalLines .start rfl rfl
  rw [ht]
  exact hlines

end LineByLine

end ManifestScan
