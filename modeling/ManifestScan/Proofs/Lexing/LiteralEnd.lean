import ManifestScan.Proofs.Lexing.Within
import ManifestScan.Proofs.Text.First
import ManifestScan.Proofs.Text.Style

/-! The lexer and the scan of a text end a string literal at the same byte. -/

namespace ManifestScan

namespace Literal

/-- Where the literal ends that starts at an offset of a source. -/
def stop? (source : Bytes) (start : Nat) : Option Nat :=
  (after? (source.drop start)).map (source.length - ·.length)

/-- Whether a line ends at an offset of a text, behind no unpaired backslash. -/
def IsBreak (text : Bytes) (offset : Nat) : Prop :=
  text[offset]? = some lineFeed ∧ Even (trailingBackslashes (text.take offset))

theorem trailingBackslashes_cons {b : UInt8} (hb : b ≠ backslash) (text : Bytes) :
    trailingBackslashes (b :: text) = trailingBackslashes text := by
  have hz : trailingBackslashes [b] = 0 := by simp [trailingBackslashes, hb]
  rw [← List.singleton_append, trailingBackslashes_append, hz]
  split
  · rename_i h
    rw [h, Nat.add_zero]
  · apply Eq.refl

/-- A backslash and the byte behind it change no parity. -/
theorem even_trailingBackslashes_pair (c : UInt8) (text : Bytes) :
    Even (trailingBackslashes (backslash :: c :: text)) ↔ Even (trailingBackslashes text) := by
  have hp : backslash :: c :: text = [backslash, c] ++ text := by simp
  have he : Even (trailingBackslashes [backslash, c]) := by
    by_cases hc : c = backslash
    · subst hc
      decide
    · have hz : trailingBackslashes [backslash, c] = 0 := by simp [trailingBackslashes, hc]
      rw [hz]
      exact Even.zero
  rw [hp, trailingBackslashes_append]
  split
  · rename_i h
    rw [h, Nat.even_add]
    simp [he]
  · exact Iff.rfl

theorem not_isBreak_nil (offset : Nat) : ¬IsBreak [] offset := by
  intro h
  cases h.1

theorem isBreak_byte {b : UInt8} (hb : b ≠ backslash) (hl : b ≠ lineFeed) (rest : Bytes)
    (offset : Nat) : IsBreak (b :: rest) offset ↔ ∃ i, offset = i + 1 ∧ IsBreak rest i := by
  unfold IsBreak
  cases offset with
  | zero => simp [hl]
  | succ i => simp [trailingBackslashes_cons hb]

theorem isBreak_escape (c : UInt8) (rest : Bytes) (offset : Nat) :
    IsBreak (backslash :: c :: rest) offset ↔ ∃ i, offset = i + 2 ∧ IsBreak rest i := by
  unfold IsBreak
  match offset with
  | 0 =>
    have hl : backslash ≠ lineFeed := by decide
    simp [hl]
  | 1 =>
    have ho : ¬Even (trailingBackslashes [backslash]) := by decide
    simp [ho]
  | i + 2 => simp [even_trailingBackslashes_pair]

theorem isLeast_lineFeed (rest : Bytes) : IsLeast {i | IsBreak (lineFeed :: rest) i} 0 := by
  refine ⟨⟨by simp, ?_⟩, fun i _ => Nat.zero_le i⟩
  rw [List.take_zero]
  exact Even.zero

end Literal

namespace Lexeme

open Literal

variable {quote : UInt8} {text : Bytes}

/-- A literal that is not closed has no end. -/
theorem afterPlain?_unclosed (hq : quote ≠ lineFeed) (h : (plainBody quote text).closed = false) :
    afterPlain? quote text = none := by
  fun_induction plainBody quote text with
  | case1 => rfl
  | case2 => rfl
  | case3 c escaped ih =>
    rw [afterPlain?, if_pos rfl]
    exact ih h
  | case4 rest =>
    rw [afterPlain?.eq_def]
    dsimp only
    rw [if_neg (by decide), if_neg hq.symm, if_pos rfl]
  | case5 => cases h
  | case6 b rest hb hl hn ih =>
    rw [afterPlain?.eq_def]
    dsimp only
    rw [if_neg hb, if_neg hn, if_neg hl]
    exact ih h

theorem afterTriple?_unclosed (h : (tripleBody quote text).closed = false) :
    afterTriple? quote text = none := by
  fun_induction tripleBody quote text with
  | case1 => rfl
  | case2 => rfl
  | case3 c escaped ih =>
    rw [afterTriple?, if_pos rfl]
    exact ih h
  | case4 => cases h
  | case5 b rest hb hn ih =>
    rw [afterTriple?.eq_def]
    dsimp only
    rw [if_neg hb, if_neg hn]
    exact ih h

/-- An open literal of one line has the text up to the first break, or all of it. -/
theorem plainBody_open (h : (plainBody quote text).closed = false) :
    (∃ i, IsLeast {i | IsBreak text i} i ∧ (plainBody quote text).text = text.take i) ∨
      (∀ i, ¬IsBreak text i) ∧ (plainBody quote text).text = text := by
  -- An escape and a byte each move every break, so the first one of the rest stays the first.
  fun_induction plainBody quote text with
  | case1 => exact .inr ⟨not_isBreak_nil, rfl⟩
  | case2 =>
    refine .inr ⟨fun i hi => ?_, rfl⟩
    cases i with
    | zero => cases hi.1
    | succ i => cases hi.1
  | case3 c escaped ih =>
    have hshift := isBreak_escape c escaped
    rcases ih h with ⟨i, hi, ht⟩ | ⟨hn, ht⟩
    · refine .inl ⟨i + 2, isLeast_shift hshift hi, ?_⟩
      rw [Body.text_prepend, ht]
      simp
    · refine .inr ⟨fun i hi => ?_, ?_⟩
      · obtain ⟨j, -, hj⟩ := (hshift i).1 hi
        exact hn j hj
      · rw [Body.text_prepend, ht]
        simp
  | case4 rest => exact .inl ⟨0, isLeast_lineFeed rest, rfl⟩
  | case5 => cases h
  | case6 b rest hb hl _ ih =>
    have hshift := isBreak_byte hb hl rest
    rcases ih h with ⟨i, hi, ht⟩ | ⟨hn, ht⟩
    · refine .inl ⟨i + 1, isLeast_shift hshift hi, ?_⟩
      rw [Body.text_prepend, ht]
      simp
    · refine .inr ⟨fun i hi => ?_, ?_⟩
      · obtain ⟨j, -, hj⟩ := (hshift i).1 hi
        exact hn j hj
      · rw [Body.text_prepend, ht]
        simp

/-- Without an end, a literal of three quotes has the whole text, and any other one the text up to
the first break. -/
theorem literalBody_open (hq : quote ≠ lineFeed) (h : (literalBody quote text).closed = false) :
    after? (quote :: text) = none ∧
      (opensTriple (quote :: text) = false → ∀ i, IsLeast {i | IsBreak text i} i →
        (literalBody quote text).text = quote :: text.take i) ∧
      (opensTriple (quote :: text) = true ∨ (∀ i, ¬IsBreak text i) →
        (literalBody quote text).text = quote :: text) := by
  have ho : opensTriple (quote :: text) = (afterWord? [quote, quote] text).isSome := rfl
  unfold literalBody at h ⊢
  unfold after?
  dsimp only
  cases hw : afterWord? [quote, quote] text with
  | some body =>
    rw [hw] at h ho
    have hopen := tripleBody_open h
    refine ⟨afterTriple?_unclosed h, ?_, fun _ => ?_⟩
    · rw [ho]
      nofun
    · rw [Body.text_prepend, hopen, eq_append_of_afterWord? hw]
      simp
  | none =>
    rw [hw] at h ho
    refine ⟨afterPlain?_unclosed hq h, fun _ i hi => ?_, fun hn => ?_⟩
    · rw [Body.text_prepend, List.singleton_append]
      rcases plainBody_open h with ⟨j, hj, ht⟩ | ⟨hnone, -⟩
      · rw [ht, hi.unique hj]
      · exact absurd hi.1 (hnone i)
    · rw [Body.text_prepend, List.singleton_append]
      rcases plainBody_open h with ⟨j, hj, -⟩ | ⟨-, ht⟩
      · rw [ho] at hn
        exact absurd hj.1 (hn.resolve_left nofun j)
      · rw [ht]

section

variable {source : Bytes} {start : Nat}

theorem drop_quote (hs : source[start]? = some quote) :
    source.drop start = quote :: source.drop (start + 1) := by
  obtain ⟨hlt, hquote⟩ := List.getElem?_eq_some_iff.1 hs
  rw [List.drop_eq_getElem_cons hlt, hquote]

/-- A closed literal ends where its text does. -/
theorem stop?_closed (hs : source[start]? = some quote)
    (hc : (literalBody quote (source.drop (start + 1))).closed = true) :
    stop? source start =
      some (start + (literalBody quote (source.drop (start + 1))).text.length) := by
  obtain ⟨after, ha, he⟩ := literalBody_closed hc
  rw [← drop_quote hs] at ha he
  have hl := congrArg List.length he
  rw [List.length_append, List.length_drop] at hl
  have hlt := (List.getElem?_eq_some_iff.1 hs).1
  unfold stop?
  rw [ha, Option.map_some, Option.some_inj]
  omega

/-- An open literal has no end, and its text goes on to the first break or to that of the source. -/
theorem stop?_open (hs : source[start]? = some quote) (hq : quote ≠ lineFeed)
    (hc : (literalBody quote (source.drop (start + 1))).closed = false) :
    stop? source start = none ∧
      (opensTriple (source.drop start) = false →
        ∀ i, IsLeast {i | IsBreak (source.drop (start + 1)) i} i →
          (literalBody quote (source.drop (start + 1))).text.length = 1 + i) ∧
      (opensTriple (source.drop start) = true ∨ (∀ i, ¬IsBreak (source.drop (start + 1)) i) →
        start + (literalBody quote (source.drop (start + 1))).text.length = source.length) := by
  obtain ⟨hn, hplain, hwhole⟩ := literalBody_open hq hc
  rw [← drop_quote hs] at hn hplain hwhole
  unfold stop?
  refine ⟨by rw [hn, Option.map_none], fun ho i hi => ?_, fun hb => ?_⟩
  · have hlt := (List.getElem?_eq_some_iff.1 hi.1.1).1
    rw [hplain ho i hi, List.length_cons, List.length_take_of_le (Nat.le_of_lt hlt), Nat.add_comm]
  · have hlt := (List.getElem?_eq_some_iff.1 hs).1
    rw [hwhole hb, List.length_drop]
    omega

end

theorem read_quote (hq : isQuote quote = true) (text : Bytes) :
    read quote text = ofLiteral [] quote text := by
  rcases isQuote_cases hq with rfl | rfl <;>
    exact read_of_ne (by decide) (by decide) (by decide) text

end Lexeme

namespace Lexer

/-- The lexer behind the lexeme at an offset of a source, where no line starts. -/
def readAt (lexer : Lexer) (source : Bytes) (offset : Nat) : Lexer :=
  match source.drop offset with
  | [] => lexer
  | b :: rest =>
    { lexer with rest := b :: rest, offset := offset, atLineStart := false }.step b rest

section

variable {lexer : Lexer} {source rest : Bytes} {start : Nat} {quote : UInt8}

theorem readAt_quote (hd : source.drop start = quote :: rest)
    (hq : Literal.isQuote quote = true) : lexer.readAt source start =
      { lexer with rest := quote :: rest, offset := start, atLineStart := false }.take
        (Lexeme.ofLiteral [] quote rest) := by
  unfold readAt step
  rw [hd]
  dsimp only
  rw [if_neg (by simp), Lexeme.read_quote hq]

/-- Closed or not, a literal becomes a token with all of its text. -/
theorem take_ofLiteral (lexer : Lexer) (quote : UInt8) (rest : Bytes) :
    let text := (Lexeme.literalBody quote rest).text
    let next := lexer.take (Lexeme.ofLiteral [] quote rest)
    next.offset = lexer.offset + text.length ∧ next.rest = lexer.rest.drop text.length ∧
      (∃ span, next.tokens = ⟨.string, text, lexer.offset, span⟩ :: lexer.tokens) ∧
      ((Lexeme.literalBody quote rest).closed = true → next.faults = lexer.faults) ∧
      ((Lexeme.literalBody quote rest).closed = false →
        ∃ fault, next.faults = fault :: lexer.faults ∧ fault.cause = .unclosedLiteral) := by
  unfold Lexeme.ofLiteral
  dsimp only
  rw [Lexeme.Body.text_prepend, List.nil_append]
  unfold Lexeme.Body.prepend
  dsimp only
  cases (Lexeme.literalBody quote rest).closed with
  | true => exact ⟨rfl, rfl, ⟨_, rfl⟩, fun _ => rfl, nofun⟩
  | false => exact ⟨rfl, rfl, ⟨_, rfl⟩, nofun, fun _ => ⟨_, rfl, rfl⟩⟩

/-- At the quote of any source, a string token is read that ends where the scan of the text finds
the end of the literal, and without an end there is a fault. The token without an end reaches to
the first break of the line, or to the end of the source when none is there or the literal opens
with three quotes. -/
theorem readAt_quote_stop (hs : source[start]? = some quote)
    (hq : Literal.isQuote quote = true) (lexer : Lexer) :
    let next := lexer.readAt source start
    let behind := source.drop (start + 1)
    (∀ stop, Literal.stop? source start = some stop ↔
      next.faults = lexer.faults ∧ next.offset = stop) ∧
    (Literal.stop? source start = none ↔
      ∃ fault, next.faults = fault :: lexer.faults ∧ fault.code = ascii "MEX-E2001") ∧
    (Literal.stop? source start = none →
      (Literal.opensTriple (source.drop start) = false →
        ∀ i, IsLeast {i | Literal.IsBreak behind i} i → next.offset = start + 1 + i) ∧
      (Literal.opensTriple (source.drop start) = true ∨ (∀ i, ¬Literal.IsBreak behind i) →
        next.offset = source.length)) ∧
    next.rest = source.drop next.offset ∧
    ∃ span, next.tokens =
      ⟨.string, slice source start next.offset, start, span⟩ :: lexer.tokens := by
  have hd := Lexeme.drop_quote hs
  dsimp only
  rw [readAt_quote hd hq]
  obtain ⟨ho, hr, ⟨span, ht⟩, hclosed, hopen⟩ := take_ofLiteral
    { lexer with rest := quote :: source.drop (start + 1), offset := start, atLineStart := false }
    quote (source.drop (start + 1))
  have hp : (Lexeme.literalBody quote (source.drop (start + 1))).text <+: source.drop start :=
    hd ▸ Lexeme.prefix_ofLiteral [] quote (source.drop (start + 1))
  generalize Lexer.take _ _ = next at *
  dsimp only at ho hr ht hclosed hopen
  have hrest : next.rest = source.drop next.offset := by rw [hr, ← hd, List.drop_drop, ho]
  have htext : (Lexeme.literalBody quote (source.drop (start + 1))).text =
      slice source start next.offset := by
    unfold slice
    rw [ho, Nat.add_sub_cancel_left]
    exact List.prefix_iff_eq_take.1 hp
  rw [← htext]
  refine and_assoc.1 (and_assoc.1 ⟨?_, hrest, span, ht⟩)
  cases hc : (Lexeme.literalBody quote (source.drop (start + 1))).closed with
  | true =>
    rw [Lexeme.stop?_closed hs hc, ← ho, hclosed hc]
    simp
  | false =>
    obtain ⟨hn, hplain, hwhole⟩ := Lexeme.stop?_open hs (Literal.isQuote_apart hq).2 hc
    obtain ⟨fault, hf, hcause⟩ := hopen hc
    rw [hn, hf, ho]
    refine ⟨⟨by simp, fun _ => ⟨fault, rfl, congrArg FaultCause.code hcause⟩, fun _ => rfl⟩,
      fun _ => ⟨fun hs i hi => ?_, hwhole⟩⟩
    rw [hplain hs i hi, Nat.add_assoc]

end

/-- The escaped quote ends no literal, and the quote behind it stands in the next line. -/
theorem readAt_quote_stop_line :
    let source := ascii "a='b\\'c\nd'"
    let next := (Lexer.start source).readAt source 2
    source[2]? = some singleQuote ∧ Literal.isQuote singleQuote = true ∧
      Literal.stop? source 2 = none ∧ next.offset = 7 ∧
      ∃ fault, next.faults = [fault] ∧ fault.code = ascii "MEX-E2001" := by
  have hs : (ascii "a='b\\'c\nd'")[2]? = some singleQuote := by decide
  have hn : Literal.stop? (ascii "a='b\\'c\nd'") 2 = none := by decide +kernel
  have hleast : IsLeast {i | Literal.IsBreak ((ascii "a='b\\'c\nd'").drop 3) i} 4 := by
    refine ⟨⟨by decide, by decide⟩, fun i hi => ?_⟩
    by_contra hlt
    have hnone : ∀ i < 4, ((ascii "a='b\\'c\nd'").drop 3)[i]? ≠ some lineFeed := by decide
    exact hnone i (by omega) hi.1
  obtain ⟨-, hfault, hoffset, -⟩ :=
    readAt_quote_stop hs (by decide) (Lexer.start (ascii "a='b\\'c\nd'"))
  exact ⟨hs, by decide, hn, (hoffset hn).1 (by decide) 4 hleast, hfault.1 hn⟩

end Lexer

end ManifestScan
