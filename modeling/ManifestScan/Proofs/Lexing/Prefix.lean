import ManifestScan.Text.Bracket
import ManifestScan.Token.Lexeme
import Mathlib.Data.List.TakeWhile

namespace ManifestScan.Lexeme

theorem append_prefix_of_drop {front more text : Bytes} (hf : front <+: text)
    (hm : more <+: text.drop front.length) : front ++ more <+: text := by
  obtain ⟨rest, rfl⟩ := hf
  rw [List.drop_left] at hm
  exact List.prefix_append_right_inj _ |>.2 hm

theorem eq_cons_of_head? {b : UInt8} {text : Bytes} (h : text.head? = some b) :
    ∃ rest, text = b :: rest := by
  cases text with
  | nil => cases h
  | cons c rest => cases h; exact ⟨rest, rfl⟩

/-- A closed literal ends where a scan for its closing quote ends. -/
theorem plainBody_closed {quote : UInt8} {text : Bytes} (h : (plainBody quote text).closed = true) :
    ∃ rest, Literal.afterPlain? quote text = some rest ∧
      text = (plainBody quote text).text ++ rest := by
  fun_induction plainBody quote text with
  | case1 => cases h
  | case2 => cases h
  | case3 c escaped ih =>
    obtain ⟨rest, ha, he⟩ := ih h
    refine ⟨rest, ?_, ?_⟩
    · rwa [Literal.afterPlain?, if_pos rfl]
    · rw [Body.text_prepend, List.append_assoc, ← he]
      rfl
  | case4 => cases h
  | case5 rest hb hl =>
    refine ⟨rest, ?_, rfl⟩
    rw [Literal.afterPlain?.eq_def]
    dsimp only
    rw [if_neg hb, if_pos rfl]
  | case6 b text hb hl hq ih =>
    obtain ⟨rest, ha, he⟩ := ih h
    refine ⟨rest, ?_, ?_⟩
    · rw [Literal.afterPlain?.eq_def]
      dsimp only
      rwa [if_neg hb, if_neg hq, if_neg hl]
    · rw [Body.text_prepend, List.append_assoc, ← he]
      rfl

theorem tripleBody_closed {quote : UInt8} {text : Bytes}
    (h : (tripleBody quote text).closed = true) :
    ∃ rest, Literal.afterTriple? quote text = some rest ∧
      text = (tripleBody quote text).text ++ rest := by
  -- Along the scan: a backslash takes its byte with it, and only three quotes end the body.
  fun_induction tripleBody quote text with
  | case1 => cases h
  | case2 => cases h
  | case3 c escaped ih =>
    obtain ⟨rest, ha, he⟩ := ih h
    refine ⟨rest, ?_, ?_⟩
    · rwa [Literal.afterTriple?, if_pos rfl]
    · rw [Body.text_prepend, List.append_assoc, ← he]
      rfl
  | case4 b text hb hq =>
    obtain ⟨rest, ht⟩ := Option.isSome_iff_exists.1 hq.2
    refine ⟨rest, ?_, ?_⟩
    · rw [Literal.afterTriple?.eq_def]
      dsimp only
      rw [if_neg hb, if_pos hq, eq_append_of_afterWord? ht]
      rfl
    · rw [eq_append_of_afterWord? ht, hq.1]
      rfl
  | case5 b text hb hq ih =>
    obtain ⟨rest, ha, he⟩ := ih h
    refine ⟨rest, ?_, ?_⟩
    · rw [Literal.afterTriple?.eq_def]
      dsimp only
      rwa [if_neg hb, if_neg hq]
    · rw [Body.text_prepend, List.append_assoc, ← he]
      rfl

theorem literalBody_closed {quote : UInt8} {text : Bytes}
    (h : (literalBody quote text).closed = true) :
    ∃ rest, Literal.after? (quote :: text) = some rest ∧
      quote :: text = (literalBody quote text).text ++ rest := by
  cases hb : afterWord? [quote, quote] text with
  | some body =>
    have hl : literalBody quote text = (tripleBody quote body).prepend [quote, quote, quote] := by
      rw [literalBody, hb]
    rw [hl] at h ⊢
    obtain ⟨rest, ha, he⟩ := tripleBody_closed h
    refine ⟨rest, ?_, ?_⟩
    · rw [Literal.after?, hb]
      exact ha
    · rw [Body.text_prepend, List.append_assoc, ← he, eq_append_of_afterWord? hb]
      rfl
  | none =>
    have hl : literalBody quote text = (plainBody quote text).prepend [quote] := by
      rw [literalBody, hb]
    rw [hl] at h ⊢
    obtain ⟨rest, ha, he⟩ := plainBody_closed h
    refine ⟨rest, ?_, ?_⟩
    · rw [Literal.after?, hb]
      exact ha
    · rw [Body.text_prepend, List.append_assoc, ← he]
      rfl

/-- Bytes that neither start a literal or comment nor are brackets. -/
def isInert (b : UInt8) : Bool :=
  !Literal.isQuote b && b != hash && !isOpening b && !isClosing b

def Inert (part : Bytes) : Prop := ∀ b ∈ part, isInert b = true

theorem Inert.append {part more : Bytes} (h : Inert part) (h' : Inert more) :
    Inert (part ++ more) := by
  intro b hb
  rcases List.mem_append.1 hb with hb | hb
  · exact h b hb
  · exact h' b hb

theorem Inert.cons {b : UInt8} {part : Bytes} (hb : isInert b = true) (h : Inert part) :
    Inert (b :: part) := by
  intro c hc
  rcases List.mem_cons.1 hc with rfl | hc
  · exact hb
  · exact h c hc

theorem inert_takeWhile {p : UInt8 → Bool} (hp : ∀ b, p b = true → isInert b = true)
    (text : Bytes) : Inert (text.takeWhile p) :=
  fun b hb => hp b (List.mem_takeWhile_imp hb)

theorem isInert_wordByte : ∀ b, isWordByte b = true → isInert b = true := by decide +kernel

theorem isInert_figure : ∀ b, isFigure b = true → isInert b = true := by decide +kernel

theorem prefix_fraction (text : Bytes) : fraction text <+: text ∧ Inert (fraction text) := by
  unfold fraction
  split
  · exact ⟨List.nil_prefix, List.forall_mem_nil _⟩
  · split
    · rename_i b rest hb
      refine ⟨?_, .cons (by rw [hb]; decide) (inert_takeWhile isInert_figure rest)⟩
      exact List.cons_prefix_cons.2 ⟨rfl, List.takeWhile_prefix _⟩
    · exact ⟨List.nil_prefix, List.forall_mem_nil _⟩

theorem prefix_exponent (text : Bytes) : exponent text <+: text ∧ Inert (exponent text) := by
  have he : ∀ b, isExponent b = true → isInert b = true := by decide +kernel
  have hs : ∀ b, isSign b = true → isInert b = true := by decide +kernel
  unfold exponent
  split
  · rename_i e d rest
    split
    · rename_i h
      exact ⟨List.cons_prefix_cons.2 ⟨rfl, List.takeWhile_prefix _⟩,
        .cons (he e h.1) (inert_takeWhile isInert_figure _)⟩
    · split
      · rename_i h
        exact ⟨List.cons_prefix_cons.2
          ⟨rfl, List.cons_prefix_cons.2 ⟨rfl, List.takeWhile_prefix _⟩⟩,
          .cons (he e h.1) (.cons (hs d h.2.1) (inert_takeWhile isInert_figure _))⟩
      · exact ⟨List.nil_prefix, nofun⟩
  · exact ⟨List.nil_prefix, nofun⟩

theorem prefix_decimalNumber (text : Bytes) :
    decimalNumber text <+: text ∧ Inert (decimalNumber text) := by
  have hi : ∀ b, isImaginary b = true → isInert b = true := by decide +kernel
  unfold decimalNumber
  dsimp only
  -- Each part is read where the one before it ends.
  generalize hw : text.takeWhile isFigure = whole
  have hp := prefix_fraction (text.drop whole.length)
  generalize fraction (text.drop whole.length) = point at hp ⊢
  have he := prefix_exponent (text.drop (whole ++ point).length)
  generalize exponent (text.drop (whole ++ point).length) = power at he ⊢
  have hwp : whole <+: text := hw ▸ List.takeWhile_prefix _
  have hwi : Inert whole := hw ▸ inert_takeWhile isInert_figure _
  have hpp := append_prefix_of_drop hwp hp.1
  have hep := append_prefix_of_drop hpp he.1
  refine ⟨append_prefix_of_drop hep ?_, ((hwi.append hp.2).append he.2).append
    (inert_takeWhile hi _)⟩
  exact (List.takeWhile_prefix _).trans (List.take_prefix _ _)

theorem prefix_number (text : Bytes) : number text <+: text ∧ Inert (number text) := by
  have hr : ∀ b, isRadix b = true → isInert b = true := by decide +kernel
  have hd : ∀ b, (isLetter b || isFigure b) = true → isInert b = true := by decide +kernel
  unfold number
  split
  · split
    · rename_i h
      refine ⟨List.cons_prefix_cons.2 ⟨rfl, List.cons_prefix_cons.2 ⟨rfl, List.takeWhile_prefix _⟩⟩,
        .cons ?_ (.cons (hr _ h.2) (inert_takeWhile hd _))⟩
      rw [h.1]
      decide
    · exact prefix_decimalNumber _
  · exact prefix_decimalNumber _

end ManifestScan.Lexeme
