import ManifestScan.Proofs.Lexing.Path
import Mathlib.Data.List.Induction

namespace ManifestScan

namespace Location

/-- The place of the byte at an offset: the line feeds before it and the bytes behind the last of
these, both counted from one. -/
def ofOffset (source : Bytes) (offset : Nat) : Location :=
  ⟨1 + (source.take offset).count lineFeed,
    1 + ((source.take offset).reverse.takeWhile (· != lineFeed)).length⟩

theorem after_start (text : Bytes) :
    start.after text =
      ⟨1 + text.count lineFeed, 1 + (text.reverse.takeWhile (· != lineFeed)).length⟩ := by
  induction text using List.reverseRecOn with
  | nil => rfl
  | append_singleton text b ih =>
    rw [Lexer.location_after_append, ih]
    by_cases hb : b = lineFeed
    · subst hb
      simp [after, advance, Nat.add_assoc]
    · simp [after, advance, hb, Nat.add_assoc]

theorem ofOffset_eq (source : Bytes) (offset : Nat) :
    ofOffset source offset = start.after (source.take offset) :=
  (after_start _).symm

/-- Neither number grows beyond the length of the source. -/
theorem ofOffset_le (source : Bytes) (offset : Nat) :
    (ofOffset source offset).line ≤ source.length + 1 ∧
      (ofOffset source offset).column ≤ source.length + 1 := by
  have hl : (source.take offset).length ≤ source.length := List.length_take_le' _ _
  have hc : (source.take offset).count lineFeed ≤ _ := List.count_le_length
  have hw := (@List.takeWhile_prefix _ (source.take offset).reverse (· != lineFeed)).length_le
  rw [List.length_reverse] at hw
  simp only [ofOffset]
  omega

end Location

theorem slice_append {text : Bytes} {start middle stop : Nat} (h : start ≤ middle)
    (h' : middle ≤ stop) :
    slice text start middle ++ slice text middle stop = slice text start stop := by
  have hd : text.drop middle = (text.drop start).drop (middle - start) := by
    rw [List.drop_drop, Nat.add_sub_cancel' h]
  have hs : stop - start = (middle - start) + (stop - middle) := by omega
  unfold slice
  rw [hd, hs, List.take_add]

theorem slice_append_drop {text : Bytes} {start middle : Nat} (h : start ≤ middle) :
    slice text start middle ++ text.drop middle = text.drop start := by
  have hd : text.drop middle = (text.drop start).drop (middle - start) := by
    rw [List.drop_drop, Nat.add_sub_cancel' h]
  unfold slice
  rw [hd, List.take_append_drop]

theorem slice_self (text : Bytes) (offset : Nat) : slice text offset offset = [] := by
  simp [slice]

/-- A token of a source behind a gap that starts at an offset, with the offsets of the bytes in the
gap that start no token. -/
structure Token.Follows (source : Bytes) (offset : Nat) (token : Token) (unknown : List Nat) :
    Prop where
  offset_le : offset ≤ token.offset
  gap : Gap (source.drop token.offset) offset (slice source offset token.offset) unknown
  text_eq : token.text = slice source token.offset token.stop
  stop_le : token.stop ≤ source.length
  isLayout_iff : token.kind.isLayout = true ↔ token.text = []
  span_eq : token.span =
    ⟨Location.ofOffset source token.offset, Location.ofOffset source token.stop⟩

/-- Tokens with gaps between them that make up a source from an offset on. -/
inductive Tiling (source : Bytes) : Nat → List Token → List Nat → Prop
  | last {offset : Nat} {token : Token} {unknown : List Nat}
    (h : token.Follows source offset unknown) (hs : token.stop = source.length) :
    Tiling source offset [token] unknown
  | cons {offset : Nat} {token : Token} {tokens : List Token} {unknown others : List Nat}
    (h : token.Follows source offset unknown) (ht : Tiling source token.stop tokens others) :
    Tiling source offset (token :: tokens) (unknown ++ others)

namespace Token

/-- A gap in front of a token grows by a text. -/
theorem Follows.prepend {source text : Bytes} {offset : Nat} {token : Token}
    {unknown others : List Nat} (h : token.Follows source (offset + text.length) others)
    (ht : text = slice source offset (offset + text.length))
    (hg : Gap (source.drop (offset + text.length)) offset text unknown) :
    token.Follows source offset (unknown ++ others) := by
  have ho : offset ≤ offset + text.length := Nat.le_add_right _ _
  refine ⟨Nat.le_trans ho h.offset_le, ?_, h.text_eq, h.stop_le, h.isLayout_iff, h.span_eq⟩
  rw [← slice_append_drop h.offset_le] at hg
  rw [← slice_append ho h.offset_le, ← ht]
  exact hg.append h.gap

/-- A token directly at an offset. -/
theorem follows_here {source text : Bytes} {offset : Nat} {kind : TokenKind} {span : Span}
    (ht : text = slice source offset (offset + text.length))
    (hl : offset + text.length ≤ source.length) (hk : kind.isLayout = true ↔ text = [])
    (hs : span =
      ⟨Location.ofOffset source offset, Location.ofOffset source (offset + text.length)⟩) :
    Token.Follows source offset ⟨kind, text, offset, span⟩ [] := by
  refine ⟨Nat.le_refl _, ?_, ht, hl, hk, hs⟩
  rw [slice_self]
  exact .nil

end Token

theorem Tiling.prepend {source text : Bytes} {offset : Nat} {tokens : List Token}
    {unknown others : List Nat} (h : Tiling source (offset + text.length) tokens others)
    (ht : text = slice source offset (offset + text.length))
    (hg : Gap (source.drop (offset + text.length)) offset text unknown) :
    Tiling source offset tokens (unknown ++ others) := by
  cases h with
  | last h hs => exact .last (h.prepend ht hg) hs
  | cons h hr =>
    rw [← List.append_assoc]
    exact .cons (h.prepend ht hg) hr

namespace Fault

def ofUnknown (source : Bytes) (offset : Nat) : Fault :=
  ⟨.unknownByte, Location.ofOffset source offset, Location.ofOffset source (offset + 1)⟩

def isUnknown (fault : Fault) : Bool := fault.code == ascii "MEX-E2000"

end Fault

namespace Lexer

/-- The lexer has read the source up to its offset, and not behind its end. -/
structure Stands (source : Bytes) (lexer : Lexer) : Prop where
  offset_le : lexer.offset ≤ source.length
  rest_eq : lexer.rest = source.drop lexer.offset
  location_eq : lexer.location = Location.ofOffset source lexer.offset

variable {source text : Bytes} {lexer next last : Lexer}

theorem stands_start (source : Bytes) : (start source).Stands source :=
  ⟨Nat.zero_le _, rfl, rfl⟩

namespace Stands

theorem of_eq (h : lexer.Stands source) (hr : next.rest = lexer.rest)
    (ho : next.offset = lexer.offset) (hl : next.location = lexer.location) : next.Stands source :=
  ⟨ho ▸ h.offset_le, by rw [hr, ho, h.rest_eq], by rw [hl, ho, h.location_eq]⟩

variable (h : lexer.Stands source) (hp : text <+: lexer.rest)

include h hp

theorem stop_le : lexer.offset + text.length ≤ source.length := by
  have hl := hp.length_le
  have := h.offset_le
  rw [h.rest_eq, List.length_drop] at hl
  omega

theorem text_eq : text = slice source lexer.offset (lexer.offset + text.length) := by
  unfold slice
  rw [← h.rest_eq, Nat.add_sub_cancel_left]
  exact List.prefix_iff_eq_take.1 hp

theorem after_eq :
    lexer.location.after text = Location.ofOffset source (lexer.offset + text.length) := by
  have ht := h.text_eq hp
  have hs : source.take (lexer.offset + text.length) = source.take lexer.offset ++ text := by
    rw [List.take_add, ← h.rest_eq, ← List.prefix_iff_eq_take.1 hp]
  rw [h.location_eq, Location.ofOffset_eq, Location.ofOffset_eq, hs, location_after_append]

theorem skip : (lexer.skip text).Stands source := by
  refine ⟨h.stop_le hp, ?_, h.after_eq hp⟩
  show lexer.rest.drop text.length = source.drop (lexer.offset + text.length)
  rw [h.rest_eq, List.drop_drop]

end Stands

theorem Path.stands (h : Path lexer next) (hs : lexer.Stands source) : next.Stands source := by
  induction h with
  | trans _ _ ih ih' => exact ih' (ih hs)
  | same hr ho hl => exact hs.of_eq hr ho hl
  | gap lexer hr => exact hs.skip ⟨_, hr.symm⟩
  | layout => exact hs.of_eq rfl rfl rfl
  | token lexer hr hl => exact (hs.skip (Lexeme.prefix_token hr hl)).of_eq rfl rfl rfl
  | unclosed lexer hr hl => exact (hs.skip (Lexeme.prefix_unclosed hr hl)).of_eq rfl rfl rfl
  | unknown lexer hr => exact (hs.skip ⟨_, hr.symm⟩).of_eq rfl rfl rfl
  | unindent => exact hs.of_eq rfl rfl rfl

theorem Reached.stands (h : Reached source lexer) : lexer.Stands source :=
  h.path.stands (stands_start source)

/-- What the lexer adds on its way to `next` makes up the source from one offset to the other. -/
def Tiles (source : Bytes) (lexer next : Lexer) : Prop :=
  ∃ added unknown, next.tokens = added.reverse ++ lexer.tokens ∧
    next.faults.filter Fault.isUnknown =
      (unknown.map (Fault.ofUnknown source)).reverse ++ lexer.faults.filter Fault.isUnknown ∧
    ∀ {tokens others}, Tiling source next.offset tokens others →
      Tiling source lexer.offset (added ++ tokens) (unknown ++ others)

namespace Tiles

theorem trans (h : Tiles source lexer next) (h' : Tiles source next last) :
    Tiles source lexer last := by
  obtain ⟨added, unknown, ht, hf, hk⟩ := h
  obtain ⟨more, others, ht', hf', hk'⟩ := h'
  refine ⟨added ++ more, unknown ++ others, ?_, ?_, fun hl => ?_⟩
  · rw [ht', ht, List.reverse_append, List.append_assoc]
  · rw [hf', hf, List.map_append, List.reverse_append, List.append_assoc]
  · rw [List.append_assoc, List.append_assoc]
    exact hk (hk' hl)

/-- A text between tokens. -/
theorem skip (h : lexer.Stands source) {after : Bytes} (hr : lexer.rest = text ++ after)
    (hg : Gap after lexer.offset text []) : Tiles source lexer (lexer.skip text) := by
  refine ⟨[], [], rfl, rfl, fun hk => hk.prepend (h.text_eq ⟨after, hr.symm⟩) ?_⟩
  rwa [← List.drop_drop, ← h.rest_eq, hr, List.drop_left]

/-- A byte that starts no token. -/
theorem unknown (h : lexer.Stands source) {b : UInt8} (hp : [b] <+: lexer.rest) :
    Tiles source lexer ((lexer.report .unknownByte [b]).skip [b]) := by
  refine ⟨[], [lexer.offset], rfl, ?_, fun hk => hk.prepend (h.text_eq hp) (.unknown .nil)⟩
  have hf : (⟨.unknownByte, lexer.location, lexer.location.after [b]⟩ : Fault) =
      Fault.ofUnknown source lexer.offset := by
    rw [h.after_eq hp, h.location_eq]
    rfl
  show (⟨.unknownByte, lexer.location, lexer.location.after [b]⟩ :: lexer.faults).filter _ = _
  rw [hf]
  rfl

theorem report {cause : FaultCause} (hc : cause.code ≠ ascii "MEX-E2000") (lexer : Lexer)
    (text : Bytes) : Tiles source lexer (lexer.report cause text) := by
  refine ⟨[], [], rfl, ?_, id⟩
  exact List.filter_cons_of_neg (by simp [Fault.isUnknown, Fault.code, hc])

/-- A token of the text in front of the lexer, which is passed. -/
theorem token (h : lexer.Stands source) {kind : TokenKind} (hp : text <+: lexer.rest)
    (hk : kind.isLayout = true ↔ text = []) :
    Tiles source lexer ((lexer.addToken kind text).skip text) := by
  refine ⟨[_], [], rfl, rfl, fun ht => ?_⟩
  refine .cons (Token.follows_here (h.text_eq hp) (h.stop_le hp) hk ?_) ht
  rw [h.after_eq hp, h.location_eq]

end Tiles

theorem Path.tiles (h : Path lexer next) (hs : lexer.Stands source) :
    Tiles source lexer next := by
  induction h with
  | trans h _ ih ih' => exact (ih hs).trans (ih' (h.stands hs))
  | same _ ho _ ht hf => exact ⟨[], [], ht, by rw [hf]; rfl, fun hk => ho ▸ hk⟩
  | gap lexer hr hg => exact .skip hs hr hg
  | layout lexer hk => exact .token hs List.nil_prefix (by simp [hk])
  | token lexer hr hl => exact .token hs (Lexeme.prefix_token hr hl) (Lexeme.isLayout_token hl)
  | @unclosed lexer b rest text hr hl =>
    have hn : text ≠ [] := by
      have ht := Lexeme.read_text_ne_nil b rest
      rwa [hl] at ht
    have hd : Tiles source lexer (lexer.report .unclosedLiteral text) :=
      .report (by decide) lexer text
    exact hd.trans (.token (hs.of_eq rfl rfl rfl) (Lexeme.prefix_unclosed hr hl)
      (by simp [hn, TokenKind.isLayout]))
  | unknown lexer hr => exact .unknown hs ⟨_, hr.symm⟩
  | unindent lexer => exact .report (by decide) lexer _

/-- The token that marks the end stands at the end of the source. -/
theorem tiling_finish (h : lexer.Stands source) (hr : lexer.rest = []) :
    ∃ added unknown, lexer.finish.tokens = added.reverse ++ lexer.tokens ∧
      lexer.finish.faults.filter Fault.isUnknown =
        (unknown.map (Fault.ofUnknown source)).reverse ++ lexer.faults.filter Fault.isUnknown ∧
      Tiling source lexer.offset added unknown := by
  have hb : Path lexer (closeBlocks 0 lexer.endLine lexer.endLine.indents) :=
    (Path.endLine lexer).trans (.closeBlocks _ _ _)
  have hrest : (closeBlocks 0 lexer.endLine lexer.endLine.indents).rest = [] := by
    rw [rest_closeBlocks, rest_endLine, hr]
  unfold finish
  dsimp only
  generalize closeBlocks 0 lexer.endLine lexer.endLine.indents = last at hb hrest ⊢
  have hs := hb.stands h
  obtain ⟨added, unknown, ht, hf, hk⟩ := hb.tiles h
  have hstop : last.offset = source.length := by
    have hl := hs.offset_le
    rw [hs.rest_eq, List.drop_eq_nil_iff] at hrest
    omega
  have hp : [] <+: last.rest := List.nil_prefix
  have hend : Token.Follows source last.offset ⟨.endOfFile, [], last.offset, last.location,
      last.location.after []⟩ [] := by
    refine Token.follows_here (hs.text_eq hp) (hs.stop_le hp) (by simp [TokenKind.isLayout]) ?_
    rw [hs.after_eq hp, hs.location_eq]
  refine ⟨added ++ [_], unknown ++ [], ?_, ?_, hk (.last hend hstop)⟩
  · rw [List.reverse_append, List.append_assoc, ← ht]
    rfl
  · rw [List.append_nil]
    exact hf

end Lexer

/-- The tokens of a source make it up with gaps between them, and its bytes that start no token are
reported one by one. -/
theorem tiling_tokenize (source : Bytes) : ∃ unknown,
    Tiling source 0 (tokenize source).tokens unknown ∧
      (tokenize source).faults.filter Fault.isUnknown = unknown.map (Fault.ofUnknown source) := by
  have hp := Lexer.Path.run (Lexer.start source)
  have hs := Lexer.stands_start source
  obtain ⟨added, unknown, ht, hf, hk⟩ := hp.tiles hs
  obtain ⟨more, others, ht', hf', hm⟩ := Lexer.tiling_finish (hp.stands hs) (Lexer.rest_run _)
  refine ⟨unknown ++ others, ?_, ?_⟩
  · have ha : (tokenize source).tokens = added ++ more := by
      unfold tokenize
      dsimp only
      rw [ht', ht]
      simp [Lexer.start]
    rw [ha]
    exact hk hm
  · unfold tokenize
    dsimp only
    rw [List.filter_reverse, hf', hf]
    simp [Lexer.start]

namespace Tiling

variable {source : Bytes} {offset : Nat} {tokens : List Token} {unknown : List Nat}

theorem follows (h : Tiling source offset tokens unknown) :
    ∀ token ∈ tokens, ∃ start found, offset ≤ start ∧ token.Follows source start found := by
  induction h with
  | last h hs =>
    intro token hm
    obtain rfl := List.mem_singleton.1 hm
    exact ⟨_, _, Nat.le_refl _, h⟩
  | @cons offset first tokens unknown others h _ ih =>
    intro token hm
    rcases List.mem_cons.1 hm with rfl | hm
    · exact ⟨_, _, Nat.le_refl _, h⟩
    · obtain ⟨start, found, hle, hf⟩ := ih token hm
      have := h.offset_le
      unfold Token.stop at hle
      exact ⟨start, found, by omega, hf⟩

theorem stop_le (h : Tiling source offset tokens unknown) :
    ∀ token ∈ tokens, token.stop ≤ source.length := by
  intro token hm
  obtain ⟨start, found, -, hf⟩ := h.follows token hm
  exact hf.stop_le

/-- The tokens stand one behind the other. -/
theorem pairwise (h : Tiling source offset tokens unknown) :
    tokens.Pairwise fun token later => token.stop ≤ later.offset := by
  induction h with
  | last => exact List.pairwise_singleton _ _
  | cons _ ht ih =>
    refine List.pairwise_cons.2 ⟨fun later hm => ?_, ih⟩
    obtain ⟨start, found, hle, hf⟩ := ht.follows later hm
    exact Nat.le_trans hle hf.offset_le

end Tiling

/-- Tokens keep all of a source. They stand in the order of the text and each is the text of its
place; what is between them are blanks, comments, joined lines and bytes that start no token, each
of which has its own fault. Every line and column fits into 32 bits, and the lexer never stands
behind the end. -/
theorem tokenize_lossless (source : Bytes) (hl : source.length < 4294967295) :
    let stream := tokenize source
    (stream.tokens.Pairwise fun token later => token.offset + token.length ≤ later.offset) ∧
      (∀ token ∈ stream.tokens,
        token.text = slice source token.offset (token.offset + token.length) ∧
        (token.kind.isLayout = true ↔ token.length = 0) ∧
        token.span.start = Location.ofOffset source token.offset ∧
        token.span.stop = Location.ofOffset source (token.offset + token.length)) ∧
      (∃ unknown, Tiling source 0 stream.tokens unknown ∧
        stream.faults.filter Fault.isUnknown = unknown.map (Fault.ofUnknown source)) ∧
      (∀ offset, (Location.ofOffset source offset).line < 4294967296 ∧
        (Location.ofOffset source offset).column < 4294967296) ∧
      ∀ lexer, Lexer.Reached source lexer →
        lexer.offset ≤ source.length ∧ lexer.rest = source.drop lexer.offset := by
  intro stream
  obtain ⟨unknown, ht, hu⟩ := tiling_tokenize source
  refine ⟨ht.pairwise, fun token hm => ?_, ⟨unknown, ht, hu⟩, fun offset => ?_, fun lexer hr => ?_⟩
  · obtain ⟨start, found, -, hf⟩ := ht.follows token hm
    refine ⟨hf.text_eq, ?_, by rw [hf.span_eq], by rw [hf.span_eq]; rfl⟩
    rw [hf.isLayout_iff, Token.length, List.length_eq_zero_iff]
  · have := Location.ofOffset_le source offset
    omega
  · exact ⟨hr.stands.offset_le, hr.stands.rest_eq⟩

/-- Two bytes that start no token, a joined line, a comment and a literal without end. -/
theorem tokenize_lossless_faulty :
    let source := ascii "\tx $ \\\r\n= # c\n\x0cy = ?'z"
    source.length < 4294967295 ∧
      ∃ unknown, Tiling source 0 (tokenize source).tokens unknown ∧ unknown.length = 2 := by
  intro source
  have hl : source.length < 4294967295 := by decide
  obtain ⟨-, -, ⟨unknown, ht, hu⟩, -⟩ := tokenize_lossless source hl
  refine ⟨hl, unknown, ht, ?_⟩
  rw [← List.length_map (f := Fault.ofUnknown source), ← hu]
  decide +kernel

end ManifestScan
