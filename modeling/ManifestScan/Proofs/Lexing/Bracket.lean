import ManifestScan.Proofs.Lexing.Partner

namespace ManifestScan

/-- A token that is a bracket is the mark of its kind. -/
theorem Lexeme.Shown.exists_mark {kind : TokenKind} {text : Bytes} (h : Shown kind text)
    (hn : kind.isFlat = false) : ∃ b, text = [b] ∧ TokenKind.marks.lookup b = some kind := by
  cases h with
  | @mark b kind hm =>
    have hmarks : ∀ entry ∈ TokenKind.marks, TokenKind.marks.lookup entry.1 = some entry.2 := by
      decide
    exact ⟨b, rfl, hmarks _ hm⟩
  | word => cases hn.symm.trans (isFlat_ofWord _)
  | colon => cases hn
  | other hk =>
    have hflat : ∀ kind ∈ TokenKind.others, kind.isFlat = true := by decide
    cases hn.symm.trans (hflat kind hk)

/-- A bracket is the one byte of its kind, and other tokens but strings have no bytes
of brackets. -/
structure Token.Apt (token : Token) : Prop where
  bracket : token.kind.isFlat = false →
    ∃ b, token.text = [b] ∧ TokenKind.marks.lookup b = some token.kind
  inert : token.kind.isFlat = true → token.kind ≠ .string → Lexeme.Inert token.text

namespace Token.Apt

variable {token : Token}

theorem of_read {b : UInt8} {rest text : Bytes} {kind : TokenKind}
    (hl : Lexeme.read b rest = ⟨.token kind, text⟩) (offset : Nat) (span : Span) :
    Token.Apt ⟨kind, text, offset, span⟩ := by
  have hs := Lexeme.sound_read b rest
  rw [hl] at hs
  refine ⟨(Lexeme.shown_of_read hl).exists_mark, fun hf hk => ?_⟩
  obtain hu | hu | ⟨after, -, hs⟩ := hs
  · cases hu
  · cases hu
  cases hs with
  | inert hi => exact hi
  | literal => exact absurd rfl hk
  | @bracket b kind hb hq hh ho hc =>
    -- No byte of a flat kind is a bracket, and no other byte is taken for one.
    simp only [TokenKind.isFlat, Bool.and_eq_true, Bool.not_eq_true', ho, hc] at hf
    simp [Lexeme.isInert, hq, hf, bne, hh] at hb

theorem leftParen (h : token.Apt) (hk : token.kind = .leftParen) :
    token.text = [ManifestScan.leftParen] := by
  have hb : ∀ b, TokenKind.marks.lookup b = some .leftParen → b = ManifestScan.leftParen := by
    decide +kernel
  obtain ⟨b, ht, hl⟩ := h.bracket (by rw [hk]; rfl)
  rw [ht, hb b (hk ▸ hl)]

theorem stop_eq (h : token.Apt) (hk : token.kind.isClosing = true) :
    token.stop = token.offset + 1 := by
  obtain ⟨b, ht, -⟩ := h.bracket (by simp [TokenKind.isFlat, hk])
  rw [Token.stop, Token.length, ht]
  rfl

end Token.Apt

/-- What holds of layout, of every lexeme that is a token and of literals without an end holds
of all tokens. -/
theorem Lexer.Path.forall_tokens {holds : Token → Prop}
    (hlayout : ∀ token : Token, token.kind.isLayout = true → token.text = [] → holds token)
    (htoken : ∀ (b : UInt8) (rest : Bytes) (token : Token),
      Lexeme.read b rest = ⟨.token token.kind, token.text⟩ → holds token)
    (hstring : ∀ token : Token, token.kind = .string → holds token) {lexer next : Lexer}
    (h : Path lexer next) (ht : ∀ token ∈ lexer.tokens, holds token) :
    ∀ token ∈ next.tokens, holds token := by
  induction h with
  | trans _ _ ih ih' => exact ih' (ih ht)
  | same _ _ _ he => exact he ▸ ht
  | gap => exact ht
  | layout lexer hk => exact List.forall_mem_cons.2 ⟨hlayout _ hk rfl, ht⟩
  | @token lexer b rest _ _ hr hl => exact List.forall_mem_cons.2 ⟨htoken b rest _ hl, ht⟩
  | unclosed => exact List.forall_mem_cons.2 ⟨hstring _ rfl, ht⟩
  | unknown => exact ht
  | unindent => exact ht

theorem forall_tokenize {holds : Token → Prop}
    (hlayout : ∀ token : Token, token.kind.isLayout = true → token.text = [] → holds token)
    (htoken : ∀ (b : UInt8) (rest : Bytes) (token : Token),
      Lexeme.read b rest = ⟨.token token.kind, token.text⟩ → holds token)
    (hstring : ∀ token : Token, token.kind = .string → holds token) (source : Bytes) :
    ∀ token ∈ (tokenize source).tokens, holds token := by
  have hp : Lexer.Path (Lexer.start source) (Lexer.start source).run.finish :=
    (Lexer.Path.run _).trans (.finish _)
  intro token hm
  exact hp.forall_tokens hlayout htoken hstring nofun token (List.mem_reverse.1 hm)

theorem apt_tokenize (source : Bytes) : ∀ token ∈ (tokenize source).tokens, token.Apt := by
  refine forall_tokenize (fun token hk ht => ?_) (fun b rest token hl => ?_)
    (fun token hk => ?_) source
  · have hf := TokenKind.isFlat_of_isLayout hk
    refine ⟨fun hn => absurd (hf.symm.trans hn) nofun, fun _ _ => ?_⟩
    rw [ht]
    exact nofun
  · exact .of_read hl _ _
  · refine ⟨fun hn => ?_, fun _ hs => absurd hk hs⟩
    rw [hk] at hn
    cases hn

/-- The text of a name is a word. -/
theorem isWord_tokenize (source : Bytes) : ∀ token ∈ (tokenize source).tokens,
    token.kind = .identifier → token.text.all Lexeme.isWordByte = true := by
  refine forall_tokenize (fun token hk _ hi => ?_) (fun b rest token hl hi => ?_)
    (fun token hk hi => ?_) source
  · rw [hi] at hk
    cases hk
  · exact (Lexeme.shown_of_read hl).all_isWordByte hi
  · cases hk.symm.trans hi

namespace Tiling

variable {source : Bytes} {offset : Nat} {token next : Token} {front tokens : List Token}

theorem uncons (h : Tiling source offset (token :: tokens) []) :
    token.Follows source offset [] ∧ (tokens ≠ [] → Tiling source token.stop tokens []) := by
  generalize hu : [] = unknown at h
  cases h with
  | last h => exact ⟨h, absurd rfl⟩
  | cons h ht =>
    obtain ⟨rfl, rfl⟩ := List.append_eq_nil_iff.1 hu.symm
    exact ⟨h, fun _ => ht⟩

theorem of_append (h : Tiling source offset (front ++ tokens) []) (hn : tokens ≠ []) :
    ∃ start, Tiling source start tokens [] := by
  induction front generalizing offset with
  | nil => exact ⟨offset, h⟩
  | cons token front ih => exact ih (h.uncons.2 (by simp [hn]))

/-- Behind a token, up to the next one, nothing turns a bracket. -/
theorem exists_gap (h : Tiling source offset (token :: next :: tokens) []) :
    ∃ gap, source.drop token.offset = token.text ++ (gap ++ source.drop next.offset) ∧
      Unturned (source.drop next.offset) gap ∧
      next.offset = token.offset + token.text.length + gap.length := by
  obtain ⟨hf, ht⟩ := h.uncons
  have hn := (ht (List.cons_ne_nil _ _)).uncons.1
  have hle : token.offset ≤ token.stop := Nat.le_add_right _ _
  refine ⟨slice source token.stop next.offset, ?_, .of_gap hn.gap, ?_⟩
  · rw [slice_append_drop hn.offset_le, hf.text_eq, slice_append_drop hle]
  · have hlen := hn.stop_le
    have hstop : token.stop = token.offset + token.text.length := rfl
    have := hn.offset_le
    unfold Token.stop at hlen
    rw [slice, List.length_take, List.length_drop, ← hstop]
    omega

/-- Tokens that turn no bracket and the gaps behind them. -/
theorem exists_unturned {passed : List Token}
    (h : Tiling source offset (token :: (passed ++ next :: tokens)) [])
    (hi : ∀ other ∈ token :: passed, Lexeme.Inert other.text) :
    ∃ text, source.drop token.offset = text ++ source.drop next.offset ∧
      Unturned (source.drop next.offset) text ∧ next.offset = token.offset + text.length := by
  induction passed generalizing token offset with
  | nil =>
    obtain ⟨gap, hd, hgap, ho⟩ := h.exists_gap
    refine ⟨token.text ++ gap, by rw [hd, List.append_assoc],
      (Unturned.inert _ (hi token List.mem_cons_self)).append hgap, ?_⟩
    rw [ho, List.length_append, Nat.add_assoc]
  | cons other passed ih =>
    obtain ⟨gap, hd, hgap, ho⟩ := h.exists_gap
    obtain ⟨hother, hpassed⟩ := List.forall_mem_cons.1 hi
    obtain ⟨text, hd', htext, ho'⟩ := ih (h.uncons.2 (List.cons_ne_nil _ _)) hpassed
    have hfront := (Unturned.inert _ hother).append hgap
    rw [hd'] at hd hfront
    refine ⟨token.text ++ gap ++ text, by rw [hd]; simp, hfront.append htext, ?_⟩
    rw [ho', ho, List.length_append, List.length_append]
    omega

end Tiling

/-- A name that is called in a source without faults: nothing turns a bracket up to its parenthesis,
which is closed where the tokens say. -/
theorem called_tokenize {source : Bytes} (hf : (tokenize source).faults = [])
    {front links behind : List Token} {name paren close : Token}
    (ht : (tokenize source).tokens = front ++ name :: (links ++ paren :: behind))
    (hl : ∀ token ∈ name :: links, token.kind = .identifier ∨ token.kind = .dot)
    (hp : paren.kind = .leftParen) (hc : Token.closer? 1 behind = some close) :
    ∃ text rest, source.drop name.offset = text ++ leftParen :: rest ∧
      Unturned (leftParen :: rest) text ∧
      matching? source (name.offset + text.length) = some close.offset := by
  obtain ⟨unknown, htiling, hu⟩ := tiling_tokenize source
  rw [hf] at hu
  obtain rfl := List.map_eq_nil_iff.1 hu.symm
  have hparen : paren.Apt := apt_tokenize source paren (by simp [ht])
  have hinert : ∀ token ∈ name :: links, Lexeme.Inert token.text := by
    intro token hm
    refine (apt_tokenize source token ?_).inert ?_ ?_
    · rw [ht]
      simp only [List.mem_append, List.mem_cons] at hm ⊢
      tauto
    · rcases hl token hm with hk | hk <;> rw [hk] <;> rfl
    · rcases hl token hm with hk | hk <;> rw [hk] <;> decide
  have hm := (agrees_tokenize hf).matching (front ++ name :: links) paren behind
    (by rw [ht, List.append_assoc]; rfl) (by rw [hp]; rfl)
  rw [ht] at htiling
  obtain ⟨start, hname⟩ := htiling.of_append (List.cons_ne_nil _ _)
  obtain ⟨text, hd, htext, ho⟩ := hname.exists_unturned hinert
  obtain ⟨_, _, -, hfollows⟩ := htiling.follows paren (by simp)
  have hdrop : source.drop paren.offset = leftParen :: source.drop paren.stop := by
    rw [← slice_append_drop (Nat.le_add_right paren.offset paren.length), ← Token.stop,
      ← hfollows.text_eq, hparen.leftParen hp]
    rfl
  rw [hdrop] at hd htext
  refine ⟨text, _, hd, htext, ?_⟩
  rw [← ho, hm, hc]
  rfl

end ManifestScan
