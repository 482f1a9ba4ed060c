import ManifestScan.Proofs.Lexing.Chain

namespace ManifestScan

/-- The tokens with text, a list for each logical line. -/
def Token.lines (tokens : List Token) : List (List Token) :=
  (tokens.splitOnP (·.kind.isLayout)).filter (!·.isEmpty)

/-- Tokens as a lexer lays them out from a place on, first on its line or not, that `depth` brackets
surround: changes of indentation start lines, and no line ends within brackets but at the end. -/
inductive Laid : Bool → Nat → List Token → Prop
  | nil {first : Bool} {depth : Nat} : Laid first depth []
  | text {first : Bool} {depth : Nat} {token : Token} {rest : List Token}
    (hk : token.kind.isLayout = false) (h : Laid false (token.kind.depthAfter depth) rest) :
    Laid first depth (token :: rest)
  | newline {first : Bool} {depth : Nat} {token : Token} {rest : List Token}
    (hk : token.kind = .newline) (hd : depth = 0 ∨ ∀ other ∈ rest, other.kind.isLayout = true)
    (h : Laid true depth rest) : Laid first depth (token :: rest)
  | indentation {depth : Nat} {token : Token} {rest : List Token}
    (hk : token.kind = .indent ∨ token.kind = .dedent)
    (hd : depth = 0 ∨ ∀ other ∈ rest, other.kind.isLayout = true)
    (h : Laid true depth rest) : Laid true depth (token :: rest)

namespace Token

theorem lines_nil : lines [] = [] := rfl

theorem lines_append_layout {tokens others : List Token} {token : Token}
    (hk : token.kind.isLayout = true) :
    lines (tokens ++ token :: others) = lines tokens ++ lines others := by
  unfold lines
  have hs := List.splitOnP_append_cons (p := fun token => token.kind.isLayout) tokens others hk
  rw [hs, List.filter_append]

theorem lines_layout {rest : List Token} {token : Token} (hk : token.kind.isLayout = true) :
    lines (token :: rest) = lines rest := @lines_append_layout [] rest token hk

theorem lines_line {line : List Token} (hn : line ≠ [])
    (hl : ∀ token ∈ line, token.kind.isLayout = false) : lines line = [line] := by
  unfold lines
  rw [List.splitOnP_eq_singleton hl]
  exact List.filter_cons_of_pos (by simpa using hn)

/-- Tokens are read line by line. -/
theorem lines_induction {motive : List Token → Prop}
    (line : ∀ line, (∀ token ∈ line, token.kind.isLayout = false) → motive line)
    (cut : ∀ line token rest, (∀ token ∈ line, token.kind.isLayout = false) →
      token.kind.isLayout = true → motive rest → motive (line ++ token :: rest))
    (tokens : List Token) : motive tokens := by
  induction hn : tokens.length using Nat.strong_induction_on generalizing tokens with
  | _ n ih =>
    subst hn
    have hl : ∀ token ∈ tokens.takeWhile (!·.kind.isLayout), token.kind.isLayout = false := by
      intro token hm
      simpa using List.mem_takeWhile_imp hm
    have he := @List.takeWhile_append_dropWhile _ (!·.kind.isLayout) tokens
    cases hd : tokens.dropWhile (!·.kind.isLayout) with
    | nil =>
      rw [hd, List.append_nil] at he
      exact line tokens (he ▸ hl)
    | cons token rest =>
      have hk := @List.head_dropWhile_not _ (!·.kind.isLayout) tokens (by simp [hd])
      simp only [hd, List.head_cons] at hk
      have hlt : rest.length < tokens.length := by
        have := congrArg List.length he
        rw [hd, List.length_append, List.length_cons] at this
        omega
      rw [← he, hd]
      exact cut _ token rest hl (by simpa using hk) (ih _ hlt rest rfl)

/-- What can be read line by line: `f` reads one line, and `g` reads on behind the end of each. -/
theorem flatMap_lines {α : Type} {f g : List Token → List α} (hn : f [] = [])
    (hl : ∀ line, (∀ token ∈ line, token.kind.isLayout = false) → g line = f line)
    (hc : ∀ line token rest, token.kind.isLayout = true →
      g (line ++ token :: rest) = g line ++ g rest)
    (tokens : List Token) : (lines tokens).flatMap f = g tokens := by
  have line (line : List Token) (ht : ∀ token ∈ line, token.kind.isLayout = false) :
      (lines line).flatMap f = g line := by
    rw [hl line ht]
    by_cases he : line = []
    · rw [he, hn]
      rfl
    · rw [lines_line he ht, List.flatMap_singleton]
  induction tokens using lines_induction with
  | line tokens ht => exact line tokens ht
  | cut tokens token rest ht hk ih =>
    rw [lines_append_layout hk, List.flatMap_append, line tokens ht, ih, hc tokens token rest hk]

/-- The lines hold the tokens with text in their order. -/
theorem flatten_lines (tokens : List Token) :
    (lines tokens).flatten = tokens.filter (!·.kind.isLayout) := by
  rw [← List.flatMap_id]
  refine flatMap_lines rfl (fun line hl => ?_) (fun line token rest hk => ?_) tokens
  · exact List.filter_eq_self.2 fun token hm => by simp [hl token hm]
  · rw [List.filter_append, List.filter_cons_of_neg (by simp [hk])]

end Token

namespace Laid

variable {first : Bool} {depth : Nat} {token : Token} {rest tokens : List Token}

theorem tail (h : Laid first depth (token :: rest)) (hk : token.kind.isLayout = false) :
    Laid false (token.kind.depthAfter depth) rest := by
  cases h with
  | text _ h => exact h
  | newline hn => simp [hn, TokenKind.isLayout] at hk
  | indentation hn => rcases hn with hn | hn <;> simp [hn, TokenKind.isLayout] at hk

/-- A token of text stands on a line as well as at its start. -/
theorem on_line (h : Laid first depth (token :: rest)) (hk : token.kind.isLayout = false) :
    Laid false depth (token :: rest) := .text hk (h.tail hk)

theorem layout (h : Laid first depth (token :: rest)) (hk : token.kind.isLayout = true) :
    (depth = 0 ∨ ∀ other ∈ rest, other.kind.isLayout = true) ∧ Laid true depth rest := by
  cases h with
  | text hn => simp [hn] at hk
  | newline _ hd h => exact ⟨hd, h⟩
  | indentation _ hd h => exact ⟨hd, h⟩

theorem newline_of_layout (h : Laid false depth (token :: rest)) (hk : token.kind.isLayout = true) :
    token.kind = .newline := by
  cases h with
  | text hn => simp [hn] at hk
  | newline hn => exact hn

/-- On a line no block opens or closes. -/
theorem not_indentation (h : Laid false depth (token :: rest)) :
    ¬(token.kind = .indent ∨ token.kind = .dedent) := by
  intro hk
  have hn := h.newline_of_layout (by rcases hk with hk | hk <;> rw [hk] <;> rfl)
  rcases hk with hk | hk <;> cases hn.symm.trans hk

theorem isLayout_of_ne (h : Laid false depth (token :: rest)) (hn : token.kind ≠ .newline) :
    token.kind.isLayout = false := by
  cases hk : token.kind.isLayout with
  | false => rfl
  | true => exact absurd (h.newline_of_layout hk) hn

/-- Where only layout follows the depth has no part in it. -/
theorem of_layout (h : Laid first depth tokens)
    (hl : ∀ token ∈ tokens, token.kind.isLayout = true) (other : Nat) :
    Laid first other tokens := by
  induction h with
  | nil => exact .nil
  | text hk => simp [hk] at hl
  | newline hk _ _ ih =>
    have hr := fun token hm => hl token (List.mem_cons_of_mem _ hm)
    exact .newline hk (.inr hr) (ih hr)
  | indentation hk _ _ ih =>
    have hr := fun token hm => hl token (List.mem_cons_of_mem _ hm)
    exact .indentation hk (.inr hr) (ih hr)

/-- A line starts outside all brackets. -/
theorem line_start (h : Laid first depth (token :: rest)) (hk : token.kind.isLayout = true) :
    Laid true 0 rest := by
  obtain ⟨rfl | hl, hr⟩ := h.layout hk
  · exact hr
  · exact hr.of_layout hl 0

theorem append_indentation {front : List Token}
    (hf : ∀ token ∈ front, token.kind = .indent ∨ token.kind = .dedent)
    (hd : depth = 0 ∨ ∀ token ∈ tokens, token.kind.isLayout = true) (h : Laid true depth tokens) :
    Laid true depth (front ++ tokens) := by
  induction front with
  | nil => exact h
  | cons token front ih =>
    have hr := fun other hm => hf other (List.mem_cons_of_mem _ hm)
    refine .indentation (hf token List.mem_cons_self) (hd.imp_right fun hl => ?_) (ih hr)
    intro other hm
    rcases List.mem_append.1 hm with hm | hm
    · rcases hr other hm with hk | hk <;> rw [hk] <;> rfl
    · exact hl other hm

theorem not_endOfFile (h : Laid first depth tokens) :
    ∀ token ∈ tokens, token.kind ≠ .endOfFile := by
  induction h with
  | nil => exact nofun
  | text hk _ ih =>
    refine List.forall_mem_cons.2 ⟨fun he => ?_, ih⟩
    simp [he, TokenKind.isLayout] at hk
  | newline hk _ _ ih => exact List.forall_mem_cons.2 ⟨by simp [hk], ih⟩
  | indentation hk _ _ ih =>
    exact List.forall_mem_cons.2 ⟨by rcases hk with hk | hk <;> simp [hk], ih⟩

theorem isLayout_of_notMem (h : Laid first depth (token :: rest))
    (hn : token.kind ∉ [.newline, .indent, .dedent]) : token.kind.isLayout = false := by
  have hend := h.not_endOfFile token List.mem_cons_self
  cases hk : token.kind <;> simp_all [TokenKind.isLayout]

end Laid

namespace Lexer

/-- No token with text stands behind the last line end. -/
def isFresh (lexer : Lexer) : Bool := lexer.tokens.head?.all (·.kind.isLayout)

theorem endLine_eq (lexer : Lexer) :
    lexer.endLine = if lexer.isFresh then lexer else lexer.addLayout .newline := by
  unfold endLine isFresh
  cases lexer.tokens with
  | nil => rfl
  | cons last earlier => rfl

/-- A line starts outside all brackets and behind the end of the line before. -/
def Ready (lexer : Lexer) : Prop :=
  lexer.atLineStart = true → lexer.isFresh = true ∧ lexer.nesting = 0

/-- On its way to `next` the lexer adds tokens that are laid out in front of what follows. -/
structure Lays (lexer next : Lexer) : Prop where
  ready : next.Ready
  added : ∃ added, next.tokens = added.reverse ++ lexer.tokens ∧
    ∀ tokens, Laid next.isFresh next.nesting tokens →
      Laid lexer.isFresh lexer.nesting (added ++ tokens)

variable {lexer next last : Lexer}

namespace Lays

theorem trans (h : lexer.Lays next) (h' : next.Lays last) : lexer.Lays last := by
  obtain ⟨-, added, ht, ha⟩ := h
  obtain ⟨hr, more, ht', ha'⟩ := h'
  refine ⟨hr, added ++ more, ?_, fun tokens hk => ?_⟩
  · rw [ht', ht, List.reverse_append, List.append_assoc]
  · rw [List.append_assoc]
    exact ha _ (ha' tokens hk)

/-- A step without a token. -/
theorem of_eq (hr : next.Ready) (ht : next.tokens = lexer.tokens)
    (hn : next.nesting = lexer.nesting) :
    lexer.Lays next := by
  refine ⟨hr, [], ht, fun tokens hk => ?_⟩
  unfold isFresh at hk ⊢
  rwa [ht, hn] at hk

theorem refl (h : lexer.Ready) : lexer.Lays lexer := of_eq h rfl rfl

theorem skip (h : lexer.Ready) (text : Bytes) : lexer.Lays (lexer.skip text) := of_eq h rfl rfl

/-- A token with text. -/
theorem token (hs : lexer.atLineStart = false) {kind : TokenKind} (hk : kind.isLayout = false)
    {text : Bytes} (hs' : next.atLineStart = lexer.atLineStart)
    (ht : next.tokens = (lexer.addToken kind text).tokens)
    (hn : next.nesting = kind.depthAfter lexer.nesting) : lexer.Lays next := by
  refine ⟨fun hl => ?_, [_], ht, fun tokens h => .text hk ?_⟩
  · rw [hs', hs] at hl
    cases hl
  · have hf : next.isFresh = false := by
      unfold isFresh
      rw [ht]
      simpa [addToken] using hk
    rwa [hf, hn] at h

end Lays

theorem isFresh_endLine (lexer : Lexer) : lexer.endLine.isFresh = true := by
  rw [endLine_eq]
  split
  · assumption
  · rfl

theorem laid_endLine (lexer : Lexer) : ∃ added,
    lexer.endLine.tokens = added.reverse ++ lexer.tokens ∧ lexer.endLine.nesting = lexer.nesting ∧
    ∀ tokens, (lexer.nesting = 0 ∨ ∀ token ∈ tokens, token.kind.isLayout = true) →
      Laid true lexer.nesting tokens → Laid lexer.isFresh lexer.nesting (added ++ tokens) := by
  rw [endLine_eq]
  split
  · rename_i hf
    exact ⟨[], rfl, rfl, fun tokens _ h => by rwa [hf]⟩
  · rename_i hf
    exact ⟨[_], rfl, rfl,
      fun tokens hd h => by rw [eq_false_of_ne_true hf]; exact .newline rfl hd h⟩

theorem isFresh_closeBlocks (h : lexer.isFresh = true) (column : Nat) (indents : List Nat) :
    (closeBlocks column lexer indents).isFresh = true := by
  fun_induction closeBlocks column lexer indents with
  | case1 => exact h
  | case2 lexer indent outer _ ih => exact ih rfl
  | case3 => exact h

/-- Of the blocks at the given columns those that are closed, innermost first, with a
token for each. -/
structure Closes (column : Nat) (lexer : Lexer) (indents closed : List Nat) (layout : List Token)
    (next : Lexer) : Prop where
  indents_eq : indents = closed ++ next.indents
  column_lt : ∀ indent ∈ closed, column < indent
  length_eq : layout.length = closed.length
  isDedent : ∀ token ∈ layout, token.kind = .dedent
  tokens_eq : next.tokens = layout.reverse ++ lexer.tokens
  offset_eq : next.offset = lexer.offset
  nesting_eq : next.nesting = lexer.nesting

theorem exists_closes (column : Nat) (lexer : Lexer) (indents : List Nat) : ∃ closed layout,
    Closes column lexer indents closed layout (closeBlocks column lexer indents) := by
  fun_induction closeBlocks column lexer indents with
  | case1 => exact ⟨[], [], rfl, List.forall_mem_nil _, rfl, List.forall_mem_nil _, rfl, rfl, rfl⟩
  | case2 lexer indent outer hlt ih =>
    obtain ⟨closed, layout, hi, hc, hl, hk, ht, ho, hn⟩ := ih
    refine ⟨indent :: closed, ⟨.dedent, [], lexer.offset, lexer.location, lexer.location⟩ :: layout,
      congrArg (indent :: ·) hi, List.forall_mem_cons.2 ⟨hlt, hc⟩, congrArg (· + 1) hl,
      List.forall_mem_cons.2 ⟨rfl, hk⟩, ?_, ho, hn⟩
    rw [ht, List.reverse_cons, List.append_assoc]
    rfl
  | case3 => exact ⟨[], [], rfl, List.forall_mem_nil _, rfl, List.forall_mem_nil _, rfl, rfl, rfl⟩

/-- A line opens or closes blocks before its first token. -/
theorem lays_settle (hf : lexer.isFresh = true) (hn : lexer.nesting = 0) (column : Nat) :
    lexer.Lays (lexer.settle column) := by
  unfold settle
  dsimp only
  split
  · refine ⟨nofun, [_], rfl, fun tokens h => ?_⟩
    rw [hf]
    exact .indentation (.inl rfl) (.inl hn) h
  · obtain ⟨-, added, -, -, -, ha, ht, -, hd⟩ :=
      exists_closes column { lexer with atLineStart := false } lexer.indents
    have hs := atLineStart_closeBlocks column { lexer with atLineStart := false } lexer.indents
    have hfresh := @isFresh_closeBlocks { lexer with atLineStart := false } hf column lexer.indents
    have hl :
        lexer.Lays (closeBlocks column { lexer with atLineStart := false } lexer.indents) := by
      refine ⟨fun h => by simp [hs] at h, added, ht, fun tokens h => ?_⟩
      rw [hfresh, hd, hn] at h
      rw [hf, hn]
      exact .append_indentation (fun token hm => .inr (ha token hm)) (.inl rfl) h
    split
    · exact hl
    · exact hl.trans (.of_eq (fun h => by simp [report, hs] at h) rfl rfl)

theorem lays_readIndentation (h : lexer.Ready) (hs : lexer.atLineStart = true) :
    lexer.Lays lexer.readIndentation := by
  obtain ⟨hf, hn⟩ := h hs
  have hskip : ∀ text, (lexer.skip text).Ready := fun _ => h
  unfold readIndentation
  dsimp only
  refine (Lays.skip h (lexer.rest.takeWhile isIndentByte)).trans ?_
  split
  · exact .refl (hskip _)
  · repeat' split
    · exact .skip (hskip _) _
    · exact .skip (hskip _) _
    · exact .skip (hskip _) _
    · exact @lays_settle (lexer.skip _) hf hn _

theorem lays_take (h : lexer.Ready) (hs : lexer.atLineStart = false) (b : UInt8) (rest : Bytes) :
    lexer.Lays (lexer.take (Lexeme.read b rest)) := by
  have hshown := Lexeme.isShown_read b rest
  generalize Lexeme.read b rest = lexeme at hshown ⊢
  unfold take
  split
  · exact .skip h _
  · dsimp only
    split
    · rename_i hn
      obtain ⟨added, hadded, hnest, hlaid⟩ := laid_endLine (lexer.skip lexeme.text)
      have hf := isFresh_endLine (lexer.skip lexeme.text)
      refine ⟨fun _ => ⟨hf, hnest.trans hn⟩, added, hadded, fun tokens hk => ?_⟩
      refine hlaid tokens (.inl hn) ?_
      have hk : Laid (lexer.skip lexeme.text).endLine.isFresh
        (lexer.skip lexeme.text).endLine.nesting tokens := hk
      rwa [hf, hnest] at hk
    · exact .skip h _
  · rename_i kind hkind
    have hk := (hshown kind hkind).isLayout
    exact .token hs hk rfl rfl rfl
  · exact .token hs (rfl : TokenKind.string.isLayout = false) rfl rfl rfl
  · exact .of_eq h rfl rfl

theorem lays_step (h : lexer.Ready) (b : UInt8) (rest : Bytes) :
    lexer.Lays (lexer.step b rest) := by
  unfold step
  split
  · rename_i hs
    exact lays_readIndentation h hs.1
  · rename_i hs
    refine lays_take h ?_ b rest
    cases hl : lexer.atLineStart with
    | false => rfl
    | true => exact absurd ⟨hl, (h hl).2⟩ hs

theorem lays_run (h : lexer.Ready) : lexer.Lays lexer.run := by
  fun_induction run lexer with
  | case1 => exact .refl h
  | case2 lexer b rest _ ih =>
    have hs := lays_step h b rest
    exact hs.trans (ih hs.ready)

/-- The end closes the last line and the blocks. -/
theorem laid_finish (lexer : Lexer) : ∃ added final,
    lexer.finish.tokens = final :: added.reverse ++ lexer.tokens ∧ final.kind = .endOfFile ∧
      Laid lexer.isFresh lexer.nesting added := by
  obtain ⟨lines, hl, -, hlaid⟩ := laid_endLine lexer
  obtain ⟨-, dedents, -, -, -, hk, hd, -⟩ := exists_closes 0 lexer.endLine lexer.endLine.indents
  have hlayout : ∀ token ∈ dedents, token.kind.isLayout = true := fun token hm => by
    rw [hk token hm]
    rfl
  have hdedents : Laid true lexer.nesting dedents := by
    have h := @Laid.append_indentation lexer.nesting [] dedents (fun token hm => .inr (hk token hm))
      (.inr nofun) .nil
    rwa [List.append_nil] at h
  obtain ⟨final, hfinal, hkind⟩ : ∃ final, lexer.finish.tokens =
      final :: (closeBlocks 0 lexer.endLine lexer.endLine.indents).tokens ∧
        final.kind = .endOfFile := ⟨_, rfl, rfl⟩
  refine ⟨lines ++ dedents, final, ?_, hkind, hlaid dedents (.inr hlayout) hdedents⟩
  rw [hfinal, hd, hl, List.reverse_append, List.cons_append, List.append_assoc]

end Lexer

/-- The tokens of a source are laid out in lines, up to the one that marks its end. -/
theorem laid_tokenize (source : Bytes) : ∃ tokens final,
    (tokenize source).tokens = tokens ++ [final] ∧ final.kind = .endOfFile ∧
      Laid true 0 tokens := by
  have hs : (Lexer.start source).Ready := fun _ => ⟨rfl, rfl⟩
  obtain ⟨-, added, ht, ha⟩ := Lexer.lays_run hs
  obtain ⟨more, final, hm, hf, hl⟩ := Lexer.laid_finish (Lexer.start source).run
  refine ⟨added ++ more, final, ?_, hf, ha more hl⟩
  unfold tokenize
  dsimp only
  rw [hm, ht]
  simp [Lexer.start]

end ManifestScan
