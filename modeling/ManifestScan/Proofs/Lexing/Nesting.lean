import ManifestScan.Proofs.Lexing.Lines
import ManifestScan.Proofs.Lexing.Partner
import Mathlib.Data.List.Infix

namespace ManifestScan

def Token.count (kind : TokenKind) (tokens : List Token) : Nat := tokens.countP (·.kind == kind)

theorem Token.count_cons (kind : TokenKind) (token : Token) (rest : List Token) :
    count kind (token :: rest) = count kind rest + if token.kind = kind then 1 else 0 := by
  simp [count, List.countP_cons]

/-- Tokens, latest first, that leave `blocks` blocks open: a line end stands directly behind a token
with text, and every block that is closed was opened before. -/
inductive Nested : List Token → Nat → Prop
  | nil : Nested [] 0
  | text {token : Token} {rest : List Token} {blocks : Nat} (hk : token.kind.isLayout = false)
    (h : Nested rest blocks) : Nested (token :: rest) blocks
  | newline {token last : Token} {rest : List Token} {blocks : Nat} (hk : token.kind = .newline)
    (hl : last.kind.isLayout = false) (h : Nested (last :: rest) blocks) :
    Nested (token :: last :: rest) blocks
  | indent {token : Token} {rest : List Token} {blocks : Nat} (hk : token.kind = .indent)
    (h : Nested rest blocks) : Nested (token :: rest) (blocks + 1)
  | dedent {token : Token} {rest : List Token} {blocks : Nat} (hk : token.kind = .dedent)
    (h : Nested rest (blocks + 1)) : Nested (token :: rest) blocks

namespace Nested

variable {tokens rest : List Token} {token : Token} {blocks : Nat}

theorem tail (h : Nested (token :: rest) blocks) : ∃ outer, Nested rest outer := by
  cases h with
  | text _ h => exact ⟨_, h⟩
  | newline _ _ h => exact ⟨_, h⟩
  | indent _ h => exact ⟨_, h⟩
  | dedent _ h => exact ⟨_, h⟩

/-- What stood before is nested too. -/
theorem suffix (h : Nested tokens blocks) (hr : rest <:+ tokens) : ∃ outer, Nested rest outer := by
  obtain ⟨added, rfl⟩ := hr
  induction added generalizing blocks with
  | nil => exact ⟨blocks, h⟩
  | cons token added ih =>
    obtain ⟨outer, h⟩ := h.tail
    exact ih h

/-- The open blocks are those opened less those closed. -/
theorem count_indent (h : Nested tokens blocks) :
    Token.count .indent tokens = Token.count .dedent tokens + blocks := by
  induction h with
  | nil => rfl
  | @text token rest blocks hk _ ih =>
    have hi : token.kind ≠ .indent := fun he => by simp [he, TokenKind.isLayout] at hk
    have hd : token.kind ≠ .dedent := fun he => by simp [he, TokenKind.isLayout] at hk
    rwa [Token.count_cons, Token.count_cons, if_neg hi, if_neg hd]
  | newline hk _ _ ih =>
    rw [Token.count_cons, @Token.count_cons .dedent, hk]
    exact ih
  | indent hk _ ih =>
    rw [Token.count_cons, Token.count_cons, hk, ih, if_pos rfl, if_neg (by decide)]
    omega
  | dedent hk _ ih =>
    rw [Token.count_cons, Token.count_cons, hk, ih, if_pos rfl, if_neg (by decide)]
    omega

theorem behind_text (h : Nested (token :: rest) blocks) (hk : token.kind = .newline) :
    ∃ last ∈ rest.head?, last.kind.isLayout = false := by
  cases h with
  | text hn => simp [hk, TokenKind.isLayout] at hn
  | newline _ hl => exact ⟨_, rfl, hl⟩
  | indent hn => simp [hk] at hn
  | dedent hn => simp [hk] at hn

end Nested

namespace Token

/-- The tokens from an opening bracket to the closing one that first brings their
balance to zero. -/
def Encloses (opening : Token) (inner : List Token) (closing : Token) : Prop :=
  opening.kind.isOpening = true ∧ closing.kind.isClosing = true ∧
    balance (opening :: (inner ++ [closing])) = 0 ∧
    ∀ front ∈ inner.inits, balance (opening :: front) ≠ 0

instance (opening : Token) (inner : List Token) (closing : Token) :
    Decidable (opening.Encloses inner closing) :=
  inferInstanceAs (Decidable (_ ∧ _ ∧ _ ∧ _))

/-- A running depth comes down to the closing bracket that first brings the count of the open
ones to zero. -/
theorem closer?_append {closing : Token} {inner : List Token} {depth : Nat}
    (hc : closing.kind.isClosing = true) (hz : (depth : Int) + balance (inner ++ [closing]) = 0)
    (hn : ∀ front, front <+: inner → (depth : Int) + balance front ≠ 0) (behind : List Token) :
    closer? depth (inner ++ closing :: behind) = some closing := by
  have hdepth : depth ≠ 0 := by
    have := hn [] List.nil_prefix
    simpa [balance] using this
  induction inner generalizing depth with
  | nil =>
    rw [List.nil_append, balance_closing hc] at hz
    exact if_pos ⟨hc, by omega⟩
  | cons token inner ih =>
    have hs := @balance_singleton token depth hdepth
    have hsplit (front : List Token) :
        (depth : Int) + balance (token :: front) = token.kind.depthAfter depth + balance front := by
      have := balance_append [token] front
      rw [List.singleton_append] at this
      omega
    have hlast : ¬(token.kind.isClosing = true ∧ depth = 1) := by
      rintro ⟨hk, rfl⟩
      refine hn [token] (List.cons_prefix_cons.2 ⟨rfl, List.nil_prefix⟩) ?_
      rw [balance_closing hk]
      rfl
    rw [List.cons_append, hsplit] at hz
    rw [List.cons_append, closer?, if_neg hlast]
    refine ih hz (fun front hf => ?_) (TokenKind.depthAfter_ne_zero hdepth hlast)
    rw [← hsplit]
    exact hn (token :: front) (List.cons_prefix_cons.2 ⟨rfl, hf⟩)

theorem Encloses.closer?_eq {opening closing : Token} {inner : List Token}
    (h : opening.Encloses inner closing) (behind : List Token) :
    closer? 1 (inner ++ closing :: behind) = some closing := by
  obtain ⟨ho, hc, hz, hn⟩ := h
  rw [balance_opening ho] at hz
  refine closer?_append hc hz (fun front hf => ?_) behind
  have := hn front ((List.mem_inits front inner).2 hf)
  rwa [balance_opening ho] at this

end Token

namespace TokenKind

theorem depthAfter_le {depth other : Nat} (kind : TokenKind) (h : depth ≤ other) :
    kind.depthAfter depth ≤ kind.depthAfter other := by
  unfold depthAfter
  split
  · omega
  · split <;> omega

theorem isLayout_of_isOpening {kind : TokenKind} (h : kind.isOpening = true) :
    kind.isLayout = false := by
  cases kind <;> first | rfl | cases h

theorem isLayout_of_isClosing {kind : TokenKind} (h : kind.isClosing = true) :
    kind.isLayout = false := by
  cases kind <;> first | rfl | cases h

end TokenKind

namespace Laid

variable {first : Bool} {depth : Nat} {front inner behind tokens : List Token}
  {opening closing : Token}

theorem of_append (h : Laid first depth (front ++ tokens)) :
    ∃ first depth, Laid first depth tokens := by
  induction front generalizing first depth with
  | nil => exact ⟨_, _, h⟩
  | cons token front ih =>
    cases hk : token.kind.isLayout with
    | false => exact ih (h.tail hk)
    | true => exact ih (h.layout hk).2

/-- Up to the bracket that closes the first of `count` open ones no token is layout. A stray closing
bracket leaves the depth as it is, so the depth may be greater than the count. -/
theorem inside {count : Nat} (h : Laid first depth (inner ++ closing :: behind))
    (hc : closing.kind.isLayout = false) (hle : count ≤ depth)
    (hn : ∀ front, front <+: inner → (count : Int) + Token.balance front ≠ 0) :
    ∀ token ∈ inner, token.kind.isLayout = false := by
  induction inner generalizing first count depth with
  | nil => exact nofun
  | cons token inner ih =>
    have hcount : count ≠ 0 := by
      have := hn [] List.nil_prefix
      simpa [Token.balance] using this
    have hk : token.kind.isLayout = false := by
      by_contra hk
      rw [Bool.not_eq_false] at hk
      rcases (h.layout hk).1 with hd | hl
      · omega
      · have := hl closing (List.mem_append_right _ List.mem_cons_self)
        rw [hc] at this
        cases this
    refine List.forall_mem_cons.2 ⟨hk, ih (h.tail hk) (token.kind.depthAfter_le hle) ?_⟩
    intro front hf
    have hb := hn (token :: front) (List.cons_prefix_cons.2 ⟨rfl, hf⟩)
    have hs := Token.balance_append [token] front
    rw [List.singleton_append] at hs
    rwa [← Token.balance_singleton hcount, Int.add_assoc, ← hs]

/-- No line starts or ends within brackets. -/
theorem enclosed (h : Laid first depth (front ++ opening :: (inner ++ closing :: behind)))
    (he : opening.Encloses inner closing) : ∀ token ∈ inner, token.kind.isLayout = false := by
  obtain ⟨ho, hc, -, hn⟩ := he
  obtain ⟨first, depth, h⟩ := h.of_append
  have ht := h.tail (TokenKind.isLayout_of_isOpening ho)
  have hd : opening.kind.depthAfter depth = depth + 1 := if_pos ho
  rw [hd] at ht
  refine ht.inside (TokenKind.isLayout_of_isClosing hc) (Nat.le_add_left 1 depth) ?_
  intro front hf
  have := hn front ((List.mem_inits front inner).2 hf)
  rwa [Token.balance_opening ho] at this

end Laid

namespace Lexer

/-- The columns of the open blocks, the outermost one first. -/
def stack (lexer : Lexer) : List Nat := 0 :: lexer.indents.reverse

/-- The blocks that the tokens leave open are indented as `indents` says, each by more than the
one around it. -/
structure Nests (lexer : Lexer) (indents : List Nat) : Prop where
  tokens : Nested lexer.tokens indents.length
  columns : (indents ++ [0]).Pairwise (· > ·)

variable {lexer : Lexer} {indents : List Nat}

namespace Nests

theorem start (source : Bytes) : (start source).Nests [] := ⟨.nil, List.pairwise_singleton _ _⟩

theorem stack_pairwise (h : lexer.Nests lexer.indents) : lexer.stack.Pairwise (· < ·) := by
  have hr := List.pairwise_reverse.2 h.columns
  rwa [List.reverse_append] at hr

/-- No open block is indented by more than the innermost one. -/
theorem le_column (h : lexer.Nests lexer.indents) : ∀ column ∈ lexer.indents ++ [0],
    column ≤ lexer.column := by
  have hc := h.columns
  unfold column
  generalize lexer.indents = indents at hc ⊢
  cases indents with
  | nil => simp
  | cons indent outer =>
    rw [List.cons_append, List.pairwise_cons] at hc
    rw [List.cons_append]
    exact List.forall_mem_cons.2 ⟨Nat.le_refl _, fun column hm => Nat.le_of_lt (hc.1 column hm)⟩

theorem endLine (h : lexer.Nests lexer.indents) :
    lexer.endLine.Nests lexer.endLine.indents := by
  have hn := h.tokens
  unfold Lexer.endLine
  split
  · exact h
  · rename_i last earlier ht
    split
    · exact h
    · rename_i hk
      refine ⟨?_, h.columns⟩
      unfold addLayout addToken
      dsimp only
      rw [ht] at hn ⊢
      exact .newline rfl (by simpa using hk) hn

/-- Closing a block takes it from the tokens and from the columns alike. -/
theorem dedent {indent : Nat} {outer : List Nat} (h : lexer.Nests (indent :: outer)) :
    (lexer.addLayout .dedent).Nests outer :=
  ⟨.dedent rfl h.tokens, (List.pairwise_cons.1 h.columns).2⟩

theorem closeBlocks (h : lexer.Nests indents) (column : Nat) :
    (closeBlocks column lexer indents).Nests (closeBlocks column lexer indents).indents := by
  fun_induction Lexer.closeBlocks column lexer indents with
  | case1 => exact ⟨h.tokens, h.columns⟩
  | case2 lexer indent outer _ ih => exact ih h.dedent
  | case3 => exact ⟨h.tokens, h.columns⟩

theorem settle (h : lexer.Nests lexer.indents) (column : Nat) :
    (lexer.settle column).Nests (lexer.settle column).indents := by
  have hs : ({ lexer with atLineStart := false } : Lexer).Nests lexer.indents :=
    ⟨h.tokens, h.columns⟩
  unfold Lexer.settle
  dsimp only
  split
  · rename_i hlt
    refine ⟨.indent rfl h.tokens, List.pairwise_cons.2 ⟨fun outer hm => ?_, h.columns⟩⟩
    exact Nat.lt_of_le_of_lt (h.le_column outer hm) hlt
  · have hc := hs.closeBlocks column
    split
    · exact hc
    · exact ⟨hc.tokens, hc.columns⟩

theorem readIndentation (h : lexer.Nests lexer.indents) :
    lexer.readIndentation.Nests lexer.readIndentation.indents := by
  have hs (text : Bytes) : (lexer.skip text).Nests (lexer.skip text).indents :=
    ⟨h.tokens, h.columns⟩
  unfold Lexer.readIndentation
  dsimp only
  split
  · exact hs _
  · repeat' split
    · exact ⟨h.tokens, h.columns⟩
    · exact ⟨h.tokens, h.columns⟩
    · exact ⟨h.tokens, h.columns⟩
    · exact (hs _).settle _

theorem take (h : lexer.Nests lexer.indents) (b : UInt8) (rest : Bytes) :
    (lexer.take (Lexeme.read b rest)).Nests (lexer.take (Lexeme.read b rest)).indents := by
  have hshown := Lexeme.isShown_read b rest
  generalize Lexeme.read b rest = lexeme at hshown ⊢
  unfold Lexer.take
  split
  · exact ⟨h.tokens, h.columns⟩
  · have hs : (lexer.skip lexeme.text).Nests (lexer.skip lexeme.text).indents :=
      ⟨h.tokens, h.columns⟩
    have he := hs.endLine
    dsimp only
    split
    · exact ⟨he.tokens, he.columns⟩
    · exact hs
  · rename_i kind hkind
    have hk := (hshown kind hkind).isLayout
    exact ⟨.text hk h.tokens, h.columns⟩
  · exact ⟨.text rfl h.tokens, h.columns⟩
  · exact ⟨h.tokens, h.columns⟩

theorem step (h : lexer.Nests lexer.indents) (b : UInt8) (rest : Bytes) :
    (lexer.step b rest).Nests (lexer.step b rest).indents := by
  unfold Lexer.step
  split
  · exact h.readIndentation
  · exact h.take b rest

/-- No block stays open at column zero. -/
theorem indents_closeBlocks (h : lexer.Nests indents) :
    (Lexer.closeBlocks 0 lexer indents).indents = [] := by
  fun_induction Lexer.closeBlocks 0 lexer indents with
  | case1 => rfl
  | case2 lexer indent outer _ ih => exact ih h.dedent
  | case3 lexer indent outer hlt =>
    have hpos := (List.pairwise_cons.1 h.columns).1 0 (List.mem_append_right _ List.mem_cons_self)
    exact absurd hpos hlt

end Nests

variable {source : Bytes}

theorem Reached.nests (h : Reached source lexer) : lexer.Nests lexer.indents := by
  induction h with
  | start => exact .start source
  | step _ _ ih => exact ih.step _ _

theorem Reached.run (h : Reached source lexer) : Reached source lexer.run := by
  fun_induction Lexer.run lexer with
  | case1 lexer => exact h
  | case2 lexer b rest hr ih => exact ih (h.step hr)

/-- The end closes every block. -/
theorem Nests.finish (h : lexer.Nests lexer.indents) : ∃ closed final,
    lexer.finish.tokens = final :: closed ∧ final.kind = .endOfFile ∧ Nested closed 0 ∧
      lexer.finish.indents = [] := by
  have hc := h.endLine.closeBlocks 0
  have hn := h.endLine.indents_closeBlocks
  have ht := hc.tokens
  rw [hn] at ht
  exact ⟨_, _, rfl, rfl, ht, hn⟩

end Lexer

namespace Token

structure LaidOut (tokens : List Token) : Prop where
  /-- No block is closed before it is opened. -/
  opened : ∀ front, front <+: tokens → count .dedent front ≤ count .indent front
  /-- Every block is closed. -/
  closed : count .dedent tokens = count .indent tokens
  ended : ∃ body final, tokens = body ++ [final] ∧ final.kind = .endOfFile ∧
    ∀ token ∈ body, token.kind ≠ .endOfFile
  /-- A line end stands directly behind a token with text. -/
  lines : ∀ front token behind, tokens = front ++ token :: behind → token.kind = .newline →
    ∃ last ∈ front.getLast?, last.kind.isLayout = false
  brackets : ∀ front opening inner closing behind,
    tokens = front ++ opening :: (inner ++ closing :: behind) → opening.Encloses inner closing →
      ∀ token ∈ inner, token.kind.isLayout = false

variable {tokens front behind : List Token} {token final : Token}

theorem count_reverse (kind : TokenKind) (tokens : List Token) :
    count kind tokens.reverse = count kind tokens := List.countP_reverse

theorem count_concat (kind : TokenKind) (tokens : List Token) (token : Token) :
    count kind (tokens ++ [token]) = count kind tokens + if token.kind = kind then 1 else 0 := by
  simp [count, List.countP_append, List.countP_singleton]

/-- What stands in front of the last token, but for the last token itself. -/
theorem append_of_concat (h : tokens ++ [final] = front ++ token :: behind)
    (hk : token.kind ≠ final.kind) : ∃ more, tokens = front ++ token :: more := by
  rcases List.eq_nil_or_concat behind with rfl | ⟨more, last, rfl⟩
  · obtain ⟨-, h⟩ := List.append_inj' h rfl
    cases h
    exact absurd rfl hk
  · rw [List.concat_eq_append, ← List.cons_append, ← List.append_assoc] at h
    exact ⟨more, (List.append_inj' h rfl).1⟩

/-- The tokens between layout and nesting: the last one marks the end of the source. -/
theorem LaidOut.of_nested (hf : final.kind = .endOfFile) (hl : Laid true 0 tokens)
    (hn : Nested tokens.reverse 0) : LaidOut (tokens ++ [final]) := by
  have opened (front : List Token) (h : front <+: tokens) :
      count .dedent front ≤ count .indent front := by
    obtain ⟨outer, h⟩ := hn.suffix (List.reverse_suffix.2 h)
    have hc := h.count_indent
    rw [count_reverse, count_reverse] at hc
    omega
  have closed : count .dedent (tokens ++ [final]) = count .indent (tokens ++ [final]) := by
    have hc := hn.count_indent
    rw [count_reverse, count_reverse] at hc
    rw [count_concat, count_concat, hf, hc]
    rfl
  refine ⟨fun front h => ?_, closed, ⟨tokens, final, rfl, hf, hl.not_endOfFile⟩, ?_, ?_⟩
  · rcases List.prefix_concat_iff.1 h with rfl | h
    · exact closed.le
    · exact opened front h
  · intro front token behind h hk
    obtain ⟨more, rfl⟩ := append_of_concat h (by simp [hk, hf])
    rw [List.reverse_append, List.reverse_cons, List.append_assoc] at hn
    obtain ⟨outer, hn⟩ := hn.suffix (List.suffix_append _ _)
    rw [← List.head?_reverse]
    exact hn.behind_text hk
  · intro front opening inner closing behind h he
    have hk : closing.kind ≠ final.kind := fun hk => by
      have hc := he.2.1
      rw [hk, hf] at hc
      cases hc
    rw [← List.cons_append, ← List.append_assoc] at h
    obtain ⟨more, hm⟩ := append_of_concat h hk
    rw [hm, List.append_assoc, List.cons_append] at hl
    exact hl.enclosed he

end Token

/-- The layout of a source's tokens fits together, whatever the source, and at every step the column
of an open block is greater than that of the block around it. -/
theorem tokenize_layout (source : Bytes) :
    Token.LaidOut (tokenize source).tokens ∧
      (∀ lexer, Lexer.Reached source lexer →
        lexer.stack.head? = some 0 ∧ lexer.stack.Pairwise (· < ·)) ∧
      (Lexer.start source).run.finish.stack = [0] := by
  have hr : Lexer.Reached source (Lexer.start source).run := Lexer.Reached.start.run
  obtain ⟨closed, final, ht, hf, hn, hi⟩ := hr.nests.finish
  obtain ⟨tokens, last, hl, -, hlaid⟩ := laid_tokenize source
  have he : (tokenize source).tokens = closed.reverse ++ [final] := by
    rw [← List.reverse_cons, ← ht]
    rfl
  have hb : closed.reverse = tokens := (List.append_inj' (he.symm.trans hl) rfl).1
  refine ⟨?_, fun lexer h => ⟨rfl, h.nests.stack_pairwise⟩, ?_⟩
  · rw [he]
    refine .of_nested hf (hb ▸ hlaid) ?_
    rwa [List.reverse_reverse]
  · unfold Lexer.stack
    rw [hi]
    rfl

/-- A line indented between two blocks, and a line end within brackets. -/
theorem tokenize_layout_unmatched :
    let source := ascii "if f(a,\n b):\n    c\n  d\n"
    let tokens := (tokenize source).tokens
    let opening : Token := ⟨.leftParen, ascii "(", 4, ⟨⟨1, 5⟩, ⟨1, 6⟩⟩⟩
    let closing : Token := ⟨.rightParen, ascii ")", 10, ⟨⟨2, 3⟩, ⟨2, 4⟩⟩⟩
    let inner := (tokens.drop 3).take 3
    (tokenize source).faults.map (·.cause) = [.unmatchedUnindent] ∧
      opening.Encloses inner closing ∧ (∀ token ∈ inner, token.kind.isLayout = false) ∧
      Token.count .dedent (tokens.take 13) = 1 ∧ Token.count .indent (tokens.take 13) = 1 ∧
      (Lexer.start source).run.stack.Pairwise (· < ·) := by
  intro source tokens opening closing inner
  obtain ⟨hl, hs, -⟩ := tokenize_layout source
  have he : opening.Encloses inner closing := by decide +kernel
  have ht : tokens = tokens.take 2 ++ opening :: (inner ++ closing :: tokens.drop 7) := by
    decide +kernel
  have hd : Token.count .dedent (tokens.take 13) = 1 := by decide +kernel
  refine ⟨by decide +kernel, he, hl.brackets _ _ _ _ _ ht he, hd, ?_, ?_⟩
  · decide +kernel
  · exact (hs _ Lexer.Reached.start.run).2

end ManifestScan
