import ManifestScan.Proofs.Lexing.LineEnd
import ManifestScan.Proofs.Lexing.Parallel

namespace ManifestScan

/-- The kind of a token, and its text without carriage returns. -/
def Token.bare (token : Token) : TokenKind × Bytes := (token.kind, withoutReturns token.text)

/-- What is left of a text with carriage returns: all that belongs to `rest`, or all but the
carriage return in front of the line end that `rest` starts with. -/
inductive Lags : Bytes → Bytes → Prop
  | level (rest : Bytes) : Lags rest (withReturns rest)
  | behind (rest : Bytes) : Lags (lineFeed :: rest) (lineFeed :: withReturns rest)

namespace Lags

variable {b : UInt8} {rest other : Bytes}

theorem nil (h : Lags [] other) : other = [] := by
  cases h
  rfl

theorem cons (h : Lags (b :: rest) other) (hb : b ≠ lineFeed) : other = b :: withReturns rest := by
  cases h with
  | level => exact withReturns_cons hb rest
  | behind => exact absurd rfl hb

theorem lineFeed (h : Lags (ManifestScan.lineFeed :: rest) other) :
    other = carriageReturn :: ManifestScan.lineFeed :: withReturns rest ∨
      other = ManifestScan.lineFeed :: withReturns rest := by
  cases h with
  | level => exact .inl rfl
  | behind => exact .inr rfl

theorem exists_cons (h : Lags (b :: rest) other) : ∃ c behind, other = c :: behind := by
  by_cases hb : b = ManifestScan.lineFeed
  · subst hb
    rcases h.lineFeed with ho | ho <;> exact ⟨_, _, ho⟩
  · exact ⟨_, _, h.cons hb⟩

theorem blanks (h : Lags rest other) {p : UInt8 → Bool} (hl : p ManifestScan.lineFeed = false)
    (hr : p carriageReturn = false) :
    other.takeWhile p = rest.takeWhile p ∧ Lags (rest.dropWhile p) (other.dropWhile p) := by
  cases h with
  | level =>
    rw [takeWhile_withReturns hl hr, dropWhile_withReturns hl hr]
    exact ⟨rfl, .level _⟩
  | behind more =>
    have hn : ¬p ManifestScan.lineFeed = true := by simp [hl]
    rw [List.takeWhile_cons_of_neg hn, List.takeWhile_cons_of_neg hn, List.dropWhile_cons_of_neg hn,
      List.dropWhile_cons_of_neg hn]
    exact ⟨rfl, .behind more⟩

end Lags

theorem Lexeme.Kept.exists_after {after : Bytes} {lexeme other : Lexeme}
    (h : Lexeme.Kept after lexeme other) :
    ∃ next, withReturns (lexeme.text ++ after) = other.text ++ next ∧ Lags after next := by
  cases h with
  | same => exact ⟨withReturns after, withReturns_append _ _, .level after⟩
  | @ended kind text ht hr =>
    obtain ⟨more, rfl⟩ := eq_cons_of_head? hr
    refine ⟨lineFeed :: withReturns more, ?_, .behind more⟩
    rw [withReturns_append, withReturns_eq_self ht, withReturns_lineFeed, List.append_assoc]
    rfl

theorem Lexeme.Kept.bare_eq {after : Bytes} {lexeme other : Lexeme}
    (h : Lexeme.Kept after lexeme other) : other.kind = lexeme.kind ∧
      withoutReturns other.text = withoutReturns lexeme.text ∧
      (lexeme.kind = .token .string ∨ lexeme.kind = .unclosed →
        Literal.isSplit lexeme.text = false) := by
  cases h with
  | same hs => exact ⟨rfl, withoutReturns_withReturns _, hs⟩
  | ended ht =>
    refine ⟨rfl, ?_, fun _ => Literal.isSplit_eq_false ht⟩
    rw [withoutReturns_append]
    exact List.append_nil _

namespace Lexer

/-- No literal so far that one quote opens goes over a line end. -/
def IsWhole (lexer : Lexer) : Prop :=
  ∀ token ∈ lexer.tokens, token.kind = .string → Literal.isSplit token.text = false

/-- Two lexers that have read the same tokens, up to their places and the carriage returns in them,
and have found the same faults. -/
structure Alike (lexer other : Lexer) : Prop extends Parallel withoutReturns lexer other where
  whole : IsWhole lexer

variable {lexer other next last : Lexer} {text more : Bytes}

theorem rest_skip_one {b : UInt8} {rest : Bytes} (hr : lexer.rest = b :: rest) :
    (lexer.skip [b]).rest = rest := by
  rw [rest_skip, hr]
  rfl

theorem tokens_take_literal (lexer : Lexer) {lexeme : Lexeme}
    (hk : lexeme.kind = .token .string ∨ lexeme.kind = .unclosed) :
    ∃ token : Token, (lexer.take lexeme).tokens = token :: lexer.tokens ∧ token.kind = .string ∧
      token.text = lexeme.text := by
  unfold Lexer.take
  rcases hk with hk | hk <;> rw [hk] <;> exact ⟨_, rfl, rfl, rfl⟩

namespace IsWhole

/-- Layout tokens are no literals. -/
theorem layout (h : IsWhole lexer) (ha : lexer.AddsLayout next) : IsWhole next := by
  obtain ⟨added, ht, hl⟩ := ha
  unfold IsWhole
  rw [ht]
  refine List.forall_mem_append.2 ⟨fun token hm hk => ?_, h⟩
  have := hl token hm
  rw [hk] at this
  cases this

theorem take (h : IsWhole lexer) (kind : LexemeKind)
    (hs : kind = .token .string ∨ kind = .unclosed → Literal.isSplit text = false) :
    IsWhole (lexer.take ⟨kind, text⟩) := by
  cases kind with
  | filler => exact h
  | lineBreak =>
    unfold Lexer.take
    dsimp only
    split
    · exact h.layout (AddsLayout.endLine _)
    · exact h
  | token kind => exact List.forall_mem_cons.2 ⟨fun hk => hs (.inl (congrArg _ hk)), h⟩
  | unclosed => exact List.forall_mem_cons.2 ⟨fun _ => hs (.inr rfl), h⟩
  | unknown => exact h

end IsWhole

namespace Alike

theorem skip (h : Alike lexer other) (text more : Bytes) :
    Alike (lexer.skip text) (other.skip more) :=
  ⟨h.toParallel.skip text more, h.whole⟩

theorem settle (h : Alike lexer other) (column : Nat) :
    Alike (lexer.settle column) (other.settle column) :=
  ⟨h.toParallel.settle column, h.whole.layout (AddsLayout.settle lexer column)⟩

theorem take (h : Alike lexer other) (kind : LexemeKind)
    (ht : withoutReturns more = withoutReturns text)
    (hs : kind = .token .string ∨ kind = .unclosed → Literal.isSplit text = false) :
    Alike (lexer.take ⟨kind, text⟩) (other.take ⟨kind, more⟩) :=
  ⟨h.toParallel.take kind ht, h.whole.take kind hs⟩

theorem finish (h : Alike lexer other) : Alike lexer.finish other.finish :=
  ⟨h.toParallel.finish, h.whole.layout (AddsLayout.finish lexer)⟩

end Alike

/-- The lexers have read different tokens at the same place; `lexer` has a literal there that one
quote opens and that goes over a line end. -/
def Apart (lexer other : Lexer) : Prop :=
  ∃ token token' before before', token :: before <:+ lexer.tokens ∧
    token' :: before' <:+ other.tokens ∧ before'.length = before.length ∧
    token.kind = .string ∧ Literal.isSplit token.text = true ∧ token'.bare ≠ token.bare

namespace Apart

theorem later (h : Apart lexer other) (hl : lexer.Precedes next) (ho : other.Precedes last) :
    Apart next last := by
  obtain ⟨token, token', before, before', ht, ht', hb⟩ := h
  obtain ⟨added, ha, -⟩ := hl.tokens
  obtain ⟨added', ha', -⟩ := ho.tokens
  exact ⟨token, token', before, before', ht.trans ⟨added, ha.symm⟩,
    ht'.trans ⟨added', ha'.symm⟩, hb⟩

theorem exists_split (h : Apart lexer other) :
    ∃ token ∈ lexer.tokens, token.kind = .string ∧ Literal.isSplit token.text = true := by
  obtain ⟨token, _, _, _, ht, _, _, hk, hs, _⟩ := h
  exact ⟨token, ht.subset List.mem_cons_self, hk, hs⟩

theorem bare_ne (h : Apart lexer other) :
    other.tokens.map Token.bare ≠ lexer.tokens.map Token.bare := by
  obtain ⟨token, token', before, before', ht, ht', hb, -, -, hn⟩ := h
  intro he
  have hs := ht.map Token.bare
  have hs' := ht'.map Token.bare
  rw [he] at hs'
  have hl : (List.map Token.bare (token' :: before')).length =
      (List.map Token.bare (token :: before)).length := by
    simp [hb]
  have heq := (List.suffix_of_suffix_length_le hs' hs hl.le).eq_of_length hl
  exact hn (List.cons.inj heq).1

end Apart

/-- A lexer in front of a text, and one in front of the same text with carriage returns. -/
structure Abreast (lexer other : Lexer) : Prop extends Alike lexer other where
  rest : Lags lexer.rest other.rest
  notMem : carriageReturn ∉ lexer.rest

namespace Abreast

open Lexeme

variable {b : UInt8} {rest after behind : Bytes} {lexeme lexeme' : Lexeme}

theorem of_alike (h : Abreast lexer other) (ha : Alike next last)
    (hr : lexer.rest = text ++ after) (ho : other.rest = more ++ behind) (hl : Lags after behind)
    (hn : next.rest = lexer.rest.drop text.length) (hn' : last.rest = other.rest.drop more.length) :
    Abreast next last := by
  rw [hr, List.drop_left] at hn
  rw [ho, List.drop_left] at hn'
  refine { ha with rest := hn ▸ hn' ▸ hl, notMem := fun hm => h.notMem ?_ }
  rw [hr]
  exact List.mem_append_right _ (hn ▸ hm)

theorem skip (h : Abreast lexer other) (hr : lexer.rest = text ++ after)
    (ho : other.rest = more ++ behind) (hl : Lags after behind) :
    Abreast (lexer.skip text) (other.skip more) :=
  h.of_alike (h.toAlike.skip text more) hr ho hl rfl rfl

theorem take_kept (h : Abreast lexer other) (hr : lexer.rest = lexeme.text ++ after)
    (ho : other.rest = withReturns lexer.rest) (hk : Kept after lexeme lexeme') :
    Abreast (lexer.take lexeme) (other.take lexeme') := by
  obtain ⟨behind, hb, hl⟩ := hk.exists_after
  obtain ⟨hkind, htext, hs⟩ := hk.bare_eq
  obtain ⟨kind, text⟩ := lexeme'
  cases hkind
  exact h.of_alike (h.toAlike.take lexeme.kind htext hs) hr (by rw [ho, hr, hb]) hl
    (rest_take _ _) (rest_take _ _)

theorem take_torn (h : Abreast lexer other) (ht : Torn lexeme lexeme') :
    Apart (lexer.take lexeme) (other.take lexeme') := by
  obtain ⟨token, hl, hk, htext⟩ := tokens_take_literal lexer ht.isLiteral
  obtain ⟨token', ho, -, htext'⟩ := tokens_take_literal other (.inr ht.unclosed)
  have hlength := congrArg List.length h.tokens
  rw [List.length_map, List.length_map] at hlength
  refine ⟨token, token', _, _, hl ▸ List.suffix_rfl, ho ▸ List.suffix_rfl, hlength, hk,
    htext ▸ ht.isSplit, fun hb => ?_⟩
  -- Only the first of the two texts has a line end.
  have hmem : lineFeed ∈ withoutReturns lexeme.text := by
    have hs := ht.isSplit
    simp only [Literal.isSplit, Bool.and_eq_true, List.contains_iff_mem] at hs
    exact List.mem_filter.2 ⟨hs.1, by decide⟩
  have hbare : withoutReturns token'.text = withoutReturns token.text := congrArg Prod.snd hb
  rw [← htext, ← hbare, htext'] at hmem
  exact ht.notMem (List.mem_filter.1 hmem).1

theorem settle (h : Abreast lexer other) (column : Nat) :
    Abreast (lexer.settle column) (other.settle column) :=
  { h.toAlike.settle column with
    rest := by rw [rest_settle, rest_settle]; exact h.rest
    notMem := by rw [rest_settle]; exact h.notMem }

theorem readIndentation (h : Abreast lexer other) :
    Abreast lexer.readIndentation other.readIndentation := by
  obtain ⟨htake, hdrop⟩ := h.rest.blanks (p := isIndentByte) (by decide) (by decide)
  have hblanks : Abreast (lexer.skip (lexer.rest.takeWhile isIndentByte))
      (other.skip (other.rest.takeWhile isIndentByte)) :=
    h.skip List.takeWhile_append_dropWhile.symm List.takeWhile_append_dropWhile.symm hdrop
  unfold Lexer.readIndentation
  dsimp only
  rw [htake] at hblanks ⊢
  generalize lexer.rest.takeWhile isIndentByte = blanks at hblanks ⊢
  generalize lexer.skip blanks = ahead at hblanks ⊢
  generalize other.skip blanks = ahead' at hblanks ⊢
  cases hr : ahead.rest with
  | nil =>
    have hlags : Lags [] ahead'.rest := hr ▸ hblanks.rest
    rw [hlags.nil]
    exact hblanks
  | cons b rest =>
    have hlags : Lags (b :: rest) ahead'.rest := hr ▸ hblanks.rest
    -- The texts differ in front of a line feed only.
    by_cases hb : b = lineFeed
    · subst hb
      rcases hlags.lineFeed with ho | ho
      · rw [ho]
        exact hblanks.skip hr ho (.level rest)
      · rw [ho]
        exact hblanks.skip hr ho (.level rest)
    · have ho := hlags.cons hb
      have hn (more : Bytes) : ¬(b = carriageReturn ∧ more.head? = some lineFeed) := by
        rintro ⟨rfl, -⟩
        exact hblanks.notMem (hr ▸ List.mem_cons_self)
      rw [ho]
      dsimp only
      rw [if_neg (hn rest), if_neg hb, if_neg (hn (withReturns rest)), if_neg hb]
      split
      · rename_i hh
        subst hh
        have hbehind : hash :: rest = hash :: rest.takeWhile (· != lineFeed) ++
            rest.dropWhile (· != lineFeed) := by
          rw [List.cons_append, List.takeWhile_append_dropWhile]
        exact hblanks.take_kept (hr.trans hbehind) (by rw [ho, hr, withReturns_cons hb])
          (kept_comment hbehind)
      · exact hblanks.settle _

/-- A carriage return in front of a line end is passed on its own. -/
theorem skip_return (h : Abreast lexer other) (hr : lexer.rest = lineFeed :: rest)
    (ho : other.rest = carriageReturn :: lineFeed :: withReturns rest) :
    Abreast lexer (other.skip [carriageReturn]) := by
  refine { h.toAlike.skip [] [carriageReturn] with rest := ?_, notMem := h.notMem }
  rw [hr, rest_skip_one ho]
  exact .behind rest

theorem take_lineFeed (h : Abreast lexer other) (hr : lexer.rest = lineFeed :: rest)
    (ho : other.rest = lineFeed :: withReturns rest) :
    Abreast (lexer.take (read lineFeed rest)) (other.take (read lineFeed (withReturns rest))) := by
  have hbreak : Alike (lexer.take ⟨.lineBreak, [lineFeed]⟩) (other.take ⟨.lineBreak, [lineFeed]⟩) :=
    h.toAlike.take .lineBreak rfl (by rintro (hk | hk) <;> cases hk)
  exact h.of_alike hbreak hr ho (.level rest) (rest_take _ _) (rest_take _ _)

theorem take_other (h : Abreast lexer other) (hr : lexer.rest = b :: rest)
    (ho : other.rest = b :: withReturns rest) (hb : b ≠ lineFeed) :
    Abreast (lexer.take (read b rest)) (other.take (read b (withReturns rest))) ∨
      Apart (lexer.take (read b rest)) (other.take (read b (withReturns rest))) := by
  have hn : carriageReturn ∉ rest := fun hm => h.notMem (hr ▸ List.mem_cons_of_mem _ hm)
  obtain ⟨after, he⟩ := prefix_read b rest
  rcases kept_or_torn_read hb hn he.symm with hk | ht
  · exact .inl (h.take_kept (hr.trans he.symm) (by rw [ho, hr, withReturns_cons hb]) hk)
  · exact .inr (h.take_torn ht)

/-- Away from the start of a line both read a lexeme. -/
theorem run_eq (h : Abreast lexer other) (hs : ¬(lexer.atLineStart = true ∧ lexer.nesting = 0))
    {c : UInt8} (ho : other.rest = c :: behind) : other.run = (other.take (read c behind)).run := by
  rw [run_cons ho]
  unfold Lexer.step
  rw [h.atLineStart, h.nesting, if_neg hs]

/-- The two step together, except that one passes a carriage return in front of a line end alone. -/
theorem step (h : Abreast lexer other) (hr : lexer.rest = b :: rest) :
    ∃ next, other.run = next.run ∧
      (Abreast (lexer.step b rest) next ∨ Apart (lexer.step b rest) next) := by
  have hlags : Lags (b :: rest) other.rest := hr ▸ h.rest
  by_cases hs : lexer.atLineStart = true ∧ lexer.nesting = 0
  · obtain ⟨c, behind, ho⟩ := hlags.exists_cons
    refine ⟨other.step c behind, run_cons ho, .inl ?_⟩
    unfold Lexer.step
    rw [if_pos hs, h.atLineStart, h.nesting, if_pos hs]
    exact h.readIndentation
  have hstep : lexer.step b rest = lexer.take (read b rest) := if_neg hs
  rw [hstep]
  by_cases hb : b = lineFeed
  · subst hb
    rcases hlags.lineFeed with ho | ho
    · have hreturn := h.skip_return hr ho
      have hrest := rest_skip_one ho
      exact ⟨_, (h.run_eq hs ho).trans (hreturn.run_eq hs hrest),
        .inl (hreturn.take_lineFeed hr hrest)⟩
    · exact ⟨_, h.run_eq hs ho, .inl (h.take_lineFeed hr ho)⟩
  · have ho := hlags.cons hb
    exact ⟨_, h.run_eq hs ho, h.take_other hr ho hb⟩

theorem run (h : Abreast lexer other) : Alike lexer.run other.run ∨ Apart lexer.run other.run := by
  -- Along the run of `lexer`. Once apart the two stay apart, since tokens are only added.
  fun_induction Lexer.run lexer generalizing other with
  | case1 lexer hr =>
    have hlags : Lags [] other.rest := hr ▸ h.rest
    rw [run_nil hlags.nil]
    exact .inl h.toAlike
  | case2 lexer b rest hr ih =>
    obtain ⟨next, hrun, habreast | hapart⟩ := h.step hr
    · rw [hrun]
      exact ih habreast
    · rw [hrun]
      exact .inr (hapart.later (.run _) (.run _))

theorem start {source : Bytes} (h : carriageReturn ∉ source) :
    Abreast (Lexer.start source) (Lexer.start (withReturns source)) :=
  ⟨⟨⟨rfl, rfl, rfl, rfl, rfl⟩, List.forall_mem_nil _⟩, .level source, h⟩

end Abreast

end Lexer

/-- Carriage returns in front of the line ends change no kind of a token, no text but for themselves
and no fault, if and only if no literal that one quote opens goes over the end of a line. -/
theorem tokenize_withReturns {source : Bytes} (h : carriageReturn ∉ source) :
    let stream := tokenize source
    let other := tokenize (withReturns source)
    other.tokens.map Token.bare = stream.tokens.map Token.bare ∧
        other.faults.map Fault.code = stream.faults.map Fault.code ↔
      ∀ token ∈ stream.tokens, token.kind = .string → Literal.isSplit token.text = false := by
  intro stream other
  have hreverse (tokens others : List Token) :
      others.reverse.map Token.bare = tokens.reverse.map Token.bare ↔
        others.map Token.bare = tokens.map Token.bare := by
    rw [List.map_reverse, List.map_reverse, List.reverse_inj]
  rcases (Lexer.Abreast.start h).run with hrun | hrun
  · have hf := hrun.finish
    have hcodes := congrArg (List.map FaultCause.code) hf.causes
    rw [List.map_map, List.map_map] at hcodes
    refine ⟨fun _ token hm => hf.whole token (List.mem_reverse.1 hm), fun _ => ⟨?_, ?_⟩⟩
    · exact (hreverse _ _).2 hf.tokens
    · exact (List.map_reverse ..).trans ((congrArg _ hcodes).trans (List.map_reverse ..).symm)
  · have hf := hrun.later (.finish _) (.finish _)
    refine ⟨fun ht => absurd ((hreverse _ _).1 ht.1) hf.bare_ne, fun hwhole => ?_⟩
    obtain ⟨token, hm, hk, hs⟩ := hf.exists_split
    exact absurd (hwhole token (List.mem_reverse.2 hm) hk) (by simp [hs])

/-- A literal of three quotes, a comment and a joined line end, inside and outside of brackets. -/
theorem tokenize_withReturns_lines :
    let source := ascii "f(a,  # one\n  b)\n  x = \"\"\"p\nq\"\"\" + \\\n 1\n\n# two\ny = 'open\n"
    carriageReturn ∉ source ∧
      (∀ token ∈ (tokenize source).tokens, token.kind = .string →
        Literal.isSplit token.text = false) ∧
      (tokenize (withReturns source)).tokens.map Token.bare =
        (tokenize source).tokens.map Token.bare ∧
      (tokenize (withReturns source)).faults.map Fault.code =
        (tokenize source).faults.map Fault.code := by
  intro source
  have hn : carriageReturn ∉ source := by decide +kernel
  have hs : ∀ token ∈ (tokenize source).tokens, token.kind = .string →
      Literal.isSplit token.text = false := by decide +kernel
  exact ⟨hn, hs, (tokenize_withReturns hn).2 hs⟩

/-- A backslash joins the lines of a literal only where a bare line feed ends them. -/
theorem tokenize_withReturns_escaped :
    let source := ascii "x = \"a\\\nb\"\n"
    carriageReturn ∉ source ∧ (tokenize source).faults = [] ∧
      (tokenize source).tokens.map Token.bare =
        [(.identifier, ascii "x"), (.equals, ascii "="), (.string, ascii "\"a\\\nb\""),
          (.newline, []), (.endOfFile, [])] ∧
      (tokenize (withReturns source)).faults.map Fault.code =
        [ascii "MEX-E2001", ascii "MEX-E2001"] ∧
      (tokenize (withReturns source)).tokens.map Token.bare =
        [(.identifier, ascii "x"), (.equals, ascii "="), (.string, ascii "\"a\\"), (.newline, []),
          (.string, ascii "b\""), (.newline, []), (.endOfFile, [])] := by
  decide +kernel

end ManifestScan
