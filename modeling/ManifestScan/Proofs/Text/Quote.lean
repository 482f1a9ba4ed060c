import ManifestScan.Proofs.Lexing.Chain
import ManifestScan.Text.Escape

namespace ManifestScan

namespace Literal

def escape (b : UInt8) : Bytes :=
  if b = backslash ∨ b = doubleQuote then [backslash, b]
  else if b = lineFeed then [backslash, 0x6E]
  else if b = carriageReturn then [backslash, 0x72]
  else if b = tab then [backslash, 0x74]
  else [b]

def quote (text : Bytes) : Bytes := doubleQuote :: (text.flatMap escape ++ [doubleQuote])

/-- A byte is written as an escape that stands for it, or as itself. -/
theorem escape_cases (b : UInt8) :
    (∃ c, escape b = [backslash, c] ∧ escaped c = [b] ∧ c ≠ lineFeed) ∨
      (escape b = [b] ∧ b ≠ backslash ∧ b ≠ doubleQuote ∧ b ≠ lineFeed) := by
  by_cases hs : b = backslash ∨ b = doubleQuote
  · left
    obtain rfl | rfl := hs
    · exact ⟨backslash, by decide⟩
    · exact ⟨doubleQuote, by decide⟩
  · by_cases hl : b = lineFeed
    · subst hl
      exact .inl ⟨0x6E, by decide⟩
    · by_cases hr : b = carriageReturn
      · subst hr
        exact .inl ⟨0x72, by decide⟩
      · by_cases ht : b = tab
        · subst ht
          exact .inl ⟨0x74, by decide⟩
        · right
          rw [not_or] at hs
          refine ⟨?_, hs.1, hs.2, hl⟩
          unfold escape
          rw [if_neg (not_or.2 hs), if_neg hl, if_neg hr, if_neg ht]

/-- A byte as it is written between two of the given quotes: the other quote stands for itself. -/
def escapeIn (mark b : UInt8) : Bytes :=
  if b = mark then [backslash, b] else if isQuote b then [b] else escape b

def quoteIn (mark : UInt8) (text : Bytes) : Bytes :=
  mark :: (text.flatMap (escapeIn mark) ++ [mark])

theorem quote_eq (text : Bytes) : quote text = quoteIn doubleQuote text := by
  have he : escape = escapeIn doubleQuote := by
    funext b
    have h : ∀ b, escape b = escapeIn doubleQuote b := by decide +kernel
    exact h b
  rw [quote, quoteIn, he]

variable {mark : UInt8}

theorem isQuote_cases (h : isQuote mark = true) : mark = doubleQuote ∨ mark = singleQuote := by
  simpa [isQuote] using h

theorem isQuote_apart (h : isQuote mark = true) :
    mark ≠ backslash ∧ mark ≠ lineFeed := by
  rcases isQuote_cases h with rfl | rfl <;> decide

theorem escapeIn_cases (h : isQuote mark = true) (b : UInt8) :
    (∃ c, escapeIn mark b = [backslash, c] ∧ escaped c = [b] ∧ c ≠ lineFeed) ∨
      (escapeIn mark b = [b] ∧ b ≠ backslash ∧ b ≠ mark ∧ b ≠ lineFeed) := by
  unfold escapeIn
  by_cases hm : b = mark
  · left
    rw [if_pos hm, hm]
    refine ⟨mark, rfl, ?_, (isQuote_apart h).2⟩
    rcases isQuote_cases h with rfl | rfl <;> rfl
  rw [if_neg hm]
  by_cases hq : isQuote b = true
  · right
    rw [if_pos hq]
    exact ⟨rfl, (isQuote_apart hq).1, hm, (isQuote_apart hq).2⟩
  · rw [if_neg hq]
    rcases escape_cases b with hc | ⟨he, hb, -, hl⟩
    · exact .inl hc
    · exact .inr ⟨he, hb, hm, hl⟩

/-- A text is found again when each byte is written as an escape that stands for it or as itself. -/
theorem unescape_flatMap {write : UInt8 → Bytes}
    (h : ∀ b, (∃ c, write b = [backslash, c] ∧ escaped c = [b]) ∨ (write b = [b] ∧ b ≠ backslash))
    (text : Bytes) : unescape (text.flatMap write) = text := by
  induction text with
  | nil => rfl
  | cons b text ih =>
    rw [List.flatMap_cons]
    rcases h b with ⟨c, he, hc⟩ | ⟨he, hb⟩
    · rw [he]
      show escaped c ++ unescape (text.flatMap write) = b :: text
      rw [hc, ih]
      rfl
    · rw [he, List.singleton_append]
      -- A byte at the very end is kept as it is, before the backslash is looked for.
      cases hm : text.flatMap write with
      | nil =>
        rw [hm] at ih
        rw [← ih]
        rfl
      | cons d more =>
        rw [hm] at ih
        rw [unescape, if_neg hb, ih]

theorem quoteIn_append (mark : UInt8) (text rest : Bytes) :
    quoteIn mark text ++ rest = mark :: (text.flatMap (escapeIn mark) ++ mark :: rest) := by
  simp [quoteIn]

section

variable (h : isQuote mark = true)

include h

theorem lineFeed_notMem_quoteIn (text : Bytes) : lineFeed ∉ quoteIn mark text := by
  intro hm
  have hd : lineFeed ≠ mark := (isQuote_apart h).2.symm
  have hb : lineFeed ≠ backslash := by decide
  simp only [quoteIn, List.mem_cons, List.mem_append, List.mem_flatMap, hd, List.not_mem_nil,
    false_or, or_false] at hm
  obtain ⟨b, -, hm⟩ := hm
  rcases escapeIn_cases h b with ⟨c, he, -, hc⟩ | ⟨he, -, -, hn⟩
  · simp only [he, List.mem_cons, hb, hc.symm, List.not_mem_nil, or_self] at hm
  · simp only [he, List.mem_cons, hn.symm, List.not_mem_nil, or_self] at hm

theorem afterPlain?_escapeIn (text rest : Bytes) :
    afterPlain? mark (text.flatMap (escapeIn mark) ++ mark :: rest) = some rest := by
  induction text with
  | nil =>
    rw [List.flatMap_nil, List.nil_append, afterPlain?.eq_def]
    dsimp only
    rw [if_neg (isQuote_apart h).1, if_pos rfl]
  | cons b text ih =>
    rw [List.flatMap_cons, List.append_assoc]
    rcases escapeIn_cases h b with ⟨c, he, -, -⟩ | ⟨he, hb, hq, hl⟩
    · rw [he]
      exact ih
    · rw [he, List.singleton_append, afterPlain?.eq_def]
      dsimp only
      rw [if_neg hb, if_neg hq, if_neg hl]
      exact ih

theorem unescape_escapeIn (text : Bytes) : unescape (text.flatMap (escapeIn mark)) = text := by
  refine unescape_flatMap (fun b => ?_) text
  rcases escapeIn_cases h b with ⟨c, he, hc, -⟩ | ⟨he, hb, -, -⟩
  · exact .inl ⟨c, he, hc⟩
  · exact .inr ⟨he, hb⟩

/-- No two quotes follow the one that opens the literal. -/
theorem afterWord?_escapeIn (text : Bytes) {rest : Bytes} (hr : rest.head? ≠ some mark) :
    afterWord? [mark, mark] (text.flatMap (escapeIn mark) ++ mark :: rest) = none := by
  cases text with
  | nil =>
    rw [List.flatMap_nil, List.nil_append, afterWord?, if_pos rfl]
    cases rest with
    | nil => rfl
    | cons c rest =>
      have hc : c ≠ mark := fun he => hr (by rw [he]; rfl)
      rw [afterWord?, if_neg hc]
  | cons b text =>
    rw [List.flatMap_cons, List.append_assoc]
    rcases escapeIn_cases h b with ⟨c, he, -, -⟩ | ⟨he, -, hq, -⟩
    · rw [he, List.cons_append, afterWord?, if_neg (isQuote_apart h).1.symm]
    · rw [he, List.singleton_append, afterWord?, if_neg hq]

theorem after?_quoteIn (text : Bytes) {rest : Bytes} (hr : rest.head? ≠ some mark) :
    after? (quoteIn mark text ++ rest) = some rest := by
  rw [quoteIn_append, after?, afterWord?_escapeIn h text hr]
  exact afterPlain?_escapeIn h text rest

theorem isQuoted_quoteIn (text : Bytes) : isQuoted (quoteIn mark text) = true := by
  have ha := after?_quoteIn h text (show ([] : Bytes).head? ≠ some mark by nofun)
  rw [List.append_nil] at ha
  unfold isQuoted
  show (isQuote mark && after? (quoteIn mark text) == some []) = true
  rw [ha, h]
  rfl

theorem quoteWidth_quoteIn (text : Bytes) : quoteWidth (quoteIn mark text) = 1 := by
  have ha := afterWord?_escapeIn h text (show ([] : Bytes).head? ≠ some mark by nofun)
  show (if 6 ≤ (quoteIn mark text).length ∧
    (afterWord? [mark, mark] (text.flatMap (escapeIn mark) ++ [mark])).isSome = true
      then 3 else 1) = 1
  rw [ha]
  exact if_neg fun he => Bool.noConfusion he.2

/-- The literal of a text denotes the text. -/
theorem unquote_quoteIn (text : Bytes) : unquote (quoteIn mark text) = text := by
  have hb : ((quoteIn mark text).drop 1).take ((quoteIn mark text).length - 2 * 1) =
      text.flatMap (escapeIn mark) := by
    have hl : (quoteIn mark text).length - 2 * 1 = (text.flatMap (escapeIn mark)).length := by
      simp [quoteIn]
    rw [hl]
    exact List.take_left ..
  unfold unquote
  rw [if_pos (isQuoted_quoteIn h text), quoteWidth_quoteIn h]
  dsimp only
  rw [hb, unescape_escapeIn h]

end

theorem lineFeed_notMem_quote (text : Bytes) : lineFeed ∉ quote text := by
  rw [quote_eq]
  exact lineFeed_notMem_quoteIn rfl text

theorem after?_quote (text : Bytes) {rest : Bytes} (hr : rest.head? ≠ some doubleQuote) :
    after? (quote text ++ rest) = some rest := by
  rw [quote_eq]
  exact after?_quoteIn rfl text hr

theorem isQuoted_quote (text : Bytes) : isQuoted (quote text) = true := by
  rw [quote_eq]
  exact isQuoted_quoteIn rfl text

theorem unquote_quote (text : Bytes) : unquote (quote text) = text := by
  rw [quote_eq]
  exact unquote_quoteIn rfl text

end Literal

namespace Lexeme

variable {mark : UInt8} (h : Literal.isQuote mark = true)

include h

theorem plainBody_escapeIn (text rest : Bytes) :
    plainBody mark (text.flatMap (Literal.escapeIn mark) ++ mark :: rest) =
      ⟨text.flatMap (Literal.escapeIn mark) ++ [mark], true⟩ := by
  obtain ⟨hq, hl⟩ := Literal.isQuote_apart h
  induction text with
  | nil =>
    rw [List.flatMap_nil, List.nil_append, plainBody.eq_def]
    dsimp only
    rw [if_neg hq, if_neg hl, if_pos rfl]
    rfl
  | cons b text ih =>
    rw [List.flatMap_cons, List.append_assoc, List.append_assoc]
    rcases Literal.escapeIn_cases h b with ⟨c, he, -, -⟩ | ⟨he, hb, hq, hl⟩
    · rw [he]
      show (plainBody mark (text.flatMap (Literal.escapeIn mark) ++ mark :: rest)).prepend
        [backslash, c] = _
      rw [ih]
      rfl
    · rw [he, List.singleton_append, plainBody.eq_def]
      dsimp only
      rw [if_neg hb, if_neg hl, if_neg hq, ih]
      rfl

theorem read_quoteIn (text : Bytes) {rest : Bytes} (hr : rest.head? ≠ some mark) :
    read mark (text.flatMap (Literal.escapeIn mark) ++ mark :: rest) =
      ⟨.token .string, Literal.quoteIn mark text⟩ := by
  have hq : read mark (text.flatMap (Literal.escapeIn mark) ++ mark :: rest) =
      ofLiteral [] mark (text.flatMap (Literal.escapeIn mark) ++ mark :: rest) := by
    rcases Literal.isQuote_cases h with rfl | rfl <;> rfl
  rw [hq, ofLiteral, literalBody, Literal.afterWord?_escapeIn h text hr]
  dsimp only
  rw [plainBody_escapeIn h]
  rfl

end Lexeme

/-- The literal of a text is one lexeme. -/
theorem Lexes.quoteIn {mark : UInt8} (h : Literal.isQuote mark = true) (text : Bytes) {rest : Bytes}
    (hr : rest.head? ≠ some mark) :
    Lexes rest (Literal.quoteIn mark text) [⟨.token .string, Literal.quoteIn mark text⟩] := by
  have hs : Lexeme.Sound rest ⟨.token .string, [] ++ Literal.quoteIn mark text⟩ :=
    .literal nofun h (Literal.after?_quoteIn h text hr)
  refine .one ?_ rfl hs
  rw [List.append_assoc]
  exact Lexeme.read_quoteIn h text hr

theorem Lexes.quote (text : Bytes) {rest : Bytes} (hr : rest.head? ≠ some doubleQuote) :
    Lexes rest (Literal.quote text) [⟨.token .string, Literal.quote text⟩] := by
  rw [Literal.quote_eq]
  exact .quoteIn rfl text hr

end ManifestScan
