import ManifestScan.Proofs.Lexing.Cut

namespace ManifestScan

open Lexeme

namespace Token

def lexeme (token : Token) : Lexeme := ⟨.token token.kind, token.text⟩

/-- The text of the token, read alone, is the token. -/
def StandsAlone (token : Token) : Prop :=
  ∃ b front, token.text = b :: front ∧ read b front = token.lexeme

variable {token : Token} {tokens : List Token}

/-- Whatever stood behind the token. -/
theorem standsAlone_of_read {b : UInt8} {rest : Bytes} (h : read b rest = token.lexeme) :
    token.StandsAlone := by
  have hp := prefix_read b rest
  have hn := read_text_ne_nil b rest
  rw [h] at hp hn
  cases ht : token.text with
  | nil => exact absurd ht hn
  | cons c front =>
    obtain ⟨after, he⟩ := hp
    have htext : token.lexeme.text = c :: front := ht
    rw [htext] at he
    cases he
    refine ⟨b, front, ht, (read_cut ?_).trans h⟩
    exact (congrArg Lexeme.text h).trans htext ▸ List.prefix_rfl

namespace StandsAlone

/-- In front of a byte that ends it the text is read as when it is alone. -/
theorem lexes (h : token.StandsAlone) {rest : Bytes} (hr : EndsLexeme rest) :
    Lexes rest token.text [token.lexeme] := by
  obtain ⟨b, front, ht, hread⟩ := h
  have hh : b ≠ hash := by
    rintro rfl
    cases (congrArg Lexeme.kind hread : (read hash front).kind = .token token.kind)
  have hu : (read b front).kind ≠ .unclosed := hread ▸ nofun
  have hn : (read b front).kind ≠ .unknown := hread ▸ nofun
  have hlexeme : read b (front ++ rest) = token.lexeme := (read_append hr hh hu hn).trans hread
  rw [ht]
  refine .one hlexeme ht ?_
  have hsound := sound_read b (front ++ rest)
  rw [hlexeme] at hsound
  obtain hk | hk | ⟨after, he, hs⟩ := hsound
  · cases hk
  · cases hk
  · have htext : token.lexeme.text = b :: front := ht
    rw [htext] at he
    obtain rfl : rest = after := List.append_cancel_left (List.cons.inj he).2
    exact hs

/-- The text starts with no blank, line end or comment. -/
theorem head (h : token.StandsAlone) : ∃ b front, token.text = b :: front ∧
    Lexer.isIndentByte b = false ∧ b ≠ carriageReturn ∧ b ≠ lineFeed ∧ b ≠ hash := by
  obtain ⟨b, front, ht, hread⟩ := h
  refine ⟨b, front, ht, ?_⟩
  have hblank : ∀ b : UInt8, Lexer.isIndentByte b = true ∨ b = carriageReturn →
      isFiller b = true := by decide +kernel
  have hfiller : isFiller b = false := by
    by_contra hf
    have he : read b front = ⟨.filler, [b]⟩ := if_pos (Bool.not_eq_false _ ▸ hf)
    cases (congrArg Lexeme.kind (he.symm.trans hread) : LexemeKind.filler = .token token.kind)
  refine ⟨?_, ?_, ?_, ?_⟩
  · by_contra hi
    exact absurd (hblank b (.inl (Bool.not_eq_false _ ▸ hi))) (by simp [hfiller])
  · intro hr
    exact absurd (hblank b (.inr hr)) (by simp [hfiller])
  · rintro rfl
    cases (congrArg Lexeme.kind hread : (read lineFeed front).kind = .token token.kind)
  · rintro rfl
    cases (congrArg Lexeme.kind hread : (read hash front).kind = .token token.kind)

end StandsAlone

/-- The tokens in a line, with a blank between each two. -/
def spaced (tokens : List Token) : List Lexeme := (tokens.map lexeme).intersperse blank

theorem lexes_spaced (h : ∀ token ∈ tokens, token.StandsAlone) :
    Lexes [] (joinWith [space] (tokens.map text)) (spaced tokens) := by
  induction tokens with
  | nil => exact .nil
  | cons token others ih =>
    obtain ⟨htoken, hothers⟩ := List.forall_mem_cons.1 h
    cases others with
    | nil => exact htoken.lexes nofun
    | cons other others =>
      rw [List.map_cons, joinWith_cons _ (by simp)]
      have hblank : EndsLexeme ([space] ++ joinWith [space] ((other :: others).map text) ++ []) :=
        (IsBoundary.cons (by decide) _).endsLexeme
      exact (htoken.lexes hblank).append ((Lexes.space _).append (ih hothers))

theorem reading_spaced (tokens : List Token) (offset : Nat) (location : Location) :
    (tokensOf offset location (spaced tokens)).map reading = tokens.map reading := by
  induction tokens generalizing offset location with
  | nil => rfl
  | cons token others ih =>
    cases others with
    | nil => rfl
    | cons other others => exact congrArg (token.reading :: ·) (ih _ _)

theorem flow_spaced (tokens : List Token) (nesting : Nat) :
    flow nesting (spaced tokens) = true := by
  refine flow_of_kinds (fun other hm => ?_) nesting
  induction tokens with
  | nil => cases hm
  | cons token others ih =>
    cases others with
    | nil => exact .inr ⟨_, congrArg Lexeme.kind (List.mem_singleton.1 hm)⟩
    | cons other' others =>
      rcases List.mem_cons.1 hm with rfl | hm
      · exact .inr ⟨_, rfl⟩
      rcases List.mem_cons.1 hm with rfl | hm
      · exact .inl rfl
      · exact ih hm

end Token

/-- Without a fault each token on the way was read in front of some text. -/
theorem Lexer.Path.standsAlone {lexer next : Lexer} (h : Path lexer next) (hf : next.faults = [])
    (ht : ∀ token ∈ lexer.tokens, token.kind.isLayout = false → token.StandsAlone) :
    ∀ token ∈ next.tokens, token.kind.isLayout = false → token.StandsAlone := by
  induction h with
  | trans _ h' ih ih' => exact ih' hf (ih ((Precedes.of_path h').faults_nil hf) ht)
  | same _ _ _ he => exact he ▸ ht
  | gap => exact ht
  | layout lexer hk =>
    exact List.forall_mem_cons.2 ⟨fun hn => absurd (hn.symm.trans hk) nofun, ht⟩
  | token lexer hr hl =>
    exact List.forall_mem_cons.2 ⟨fun _ => Token.standsAlone_of_read hl, ht⟩
  | unclosed => cases hf
  | unknown => cases hf
  | unindent => cases hf

theorem standsAlone_tokenize {source : Bytes} (hf : (tokenize source).faults = []) :
    ∀ token ∈ (tokenize source).tokens, token.kind.isLayout = false → token.StandsAlone := by
  have hp : Lexer.Path (Lexer.start source) (Lexer.start source).run.finish :=
    (Lexer.Path.run _).trans (.finish _)
  intro token hm
  exact hp.standsAlone (List.reverse_eq_nil_iff.1 hf) nofun token (List.mem_reverse.1 hm)

/-- The end of a source ends the line in front of it. -/
theorem Lexer.finish_line {lexer : Lexer} {last : Token} {before : List Token}
    (hi : lexer.indents = []) (ht : lexer.tokens = last :: before)
    (hl : last.kind.isLayout = false) :
    lexer.finish.tokens = .layout .endOfFile lexer.offset lexer.location ::
        .layout .newline lexer.offset lexer.location :: lexer.tokens ∧
      lexer.finish.faults = lexer.faults := by
  have hend : lexer.endLine = lexer.addLayout .newline := by
    unfold endLine
    rw [ht]
    exact if_neg (by simp [hl])
  have hindents : (lexer.addLayout .newline).indents = [] := hi
  unfold finish
  dsimp only
  rw [hend, hindents, closeBlocks]
  exact ⟨rfl, rfl⟩

/-- Tokens with a blank between each two are a line. -/
theorem tokenize_spaced {tokens : List Token} (h : ∀ token ∈ tokens, token.StandsAlone)
    (hl : ∀ token ∈ tokens, token.kind.isLayout = false) (hn : tokens ≠ []) :
    let stream := tokenize (joinWith [space] (tokens.map Token.text))
    stream.faults = [] ∧ stream.tokens.map Token.reading =
      tokens.map Token.reading ++ [(.newline, []), (.endOfFile, [])] := by
  intro stream
  have hlexes := Token.lexes_spaced h
  have hreading := Token.reading_spaced tokens 0 Location.start
  generalize htext : joinWith [space] (tokens.map Token.text) = text at hlexes
  obtain ⟨first, others, rfl⟩ := List.exists_cons_of_ne_nil hn
  obtain ⟨b, front, hb, hcontent⟩ := (h first List.mem_cons_self).head
  obtain ⟨more, rfl⟩ : ∃ more, text = b :: more := by
    refine eq_cons_of_head? ?_
    rw [← htext, List.map_cons, head?_joinWith (by simp [hb]), hb]
    rfl
  let lexer : Lexer := ⟨b :: more, 0, Location.start, false, 0, [], [], []⟩
  have hstart : (Lexer.start (b :: more)).run = lexer.run :=
    @Lexer.run_content (Lexer.start (b :: more)) rfl rfl [] b more (List.forall_mem_nil _)
      hcontent rfl
  have hrun : lexer.run = lexer.through (b :: more) [] (Token.spaced (first :: others)) := by
    rw [Lexer.run_lexes hlexes (List.append_nil _).symm rfl (Token.flow_spaced _ 0)]
    exact Lexer.run_nil rfl
  have hstream : stream = tokenize (b :: more) := congrArg tokenize htext
  -- The line has the token that stands first, so it has a last one.
  obtain ⟨last, before, hlast⟩ : ∃ last before,
      (tokensOf 0 Location.start (Token.spaced (first :: others))).reverse = last :: before := by
    refine List.exists_cons_of_ne_nil fun he => ?_
    rw [List.reverse_eq_nil_iff.1 he] at hreading
    cases hreading
  have hlayout : last.kind.isLayout = false := by
    refine hlexes.not_layout 0 Location.start last (List.mem_reverse.1 ?_)
    rw [hlast]
    exact List.mem_cons_self
  have htokens : (lexer.through (b :: more) [] (Token.spaced (first :: others))).tokens =
      last :: before := by
    rw [← hlast]
    exact List.append_nil _
  obtain ⟨hend, hfaults⟩ := @Lexer.finish_line _ last before rfl htokens hlayout
  rw [hstream]
  unfold tokenize
  dsimp only
  rw [hstart, hrun, hend, hfaults, htokens, ← hlast]
  refine ⟨rfl, ?_⟩
  rw [List.reverse_cons, List.reverse_cons, List.reverse_reverse, List.map_append, List.map_append,
    hreading, List.append_assoc]
  rfl

/-- The tokens of a source without a fault are their own delimiters: in one line with a blank
between each two they are read again as they were. -/
theorem tokenize_joinWith {source : Bytes} (hf : (tokenize source).faults = [])
    (hn : ∃ token ∈ (tokenize source).tokens, token.kind.isLayout = false) :
    let tokens := (tokenize source).tokens.filter (!·.kind.isLayout)
    let stream := tokenize (joinWith [space] (tokens.map Token.text))
    stream.faults = [] ∧ stream.tokens.map Token.reading =
      tokens.map Token.reading ++ [(.newline, []), (.endOfFile, [])] := by
  intro tokens
  have hmem : ∀ token ∈ tokens, token ∈ (tokenize source).tokens ∧ token.kind.isLayout = false := by
    intro token hm
    obtain ⟨hm, hk⟩ := List.mem_filter.1 hm
    exact ⟨hm, by simpa using hk⟩
  refine tokenize_spaced (fun token hm => ?_) (fun token hm => (hmem token hm).2) ?_
  · exact standsAlone_tokenize hf token (hmem token hm).1 (hmem token hm).2
  · obtain ⟨token, hm, hk⟩ := hn
    exact List.ne_nil_of_mem (List.mem_filter.2 ⟨hm, by simp [hk]⟩)

/-- Marked literals, numbers of all forms and operators of up to three bytes that touch each other,
over two lines within brackets. -/
theorem tokenize_joinWith_touching :
    let source := ascii "x=[rb'a'+0x1Fif y else.5e-3j**1.//2,\n# c\n'''p\nq'''f\"\",a->b>>=c...d]\n"
    (tokenize source).faults = [] ∧
      (∃ token ∈ (tokenize source).tokens, token.kind.isLayout = false) ∧
      let tokens := (tokenize source).tokens.filter (!·.kind.isLayout)
      let stream := tokenize (joinWith [space] (tokens.map Token.text))
      stream.faults = [] ∧ stream.tokens.map Token.reading =
        tokens.map Token.reading ++ [(.newline, []), (.endOfFile, [])] := by
  intro source
  have hf : (tokenize source).faults = [] := by decide +kernel
  have hn : ∃ token ∈ (tokenize source).tokens, token.kind.isLayout = false := by decide +kernel
  exact ⟨hf, hn, tokenize_joinWith hf hn⟩

end ManifestScan
