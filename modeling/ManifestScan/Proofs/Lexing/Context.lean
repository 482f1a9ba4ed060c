import ManifestScan.Proofs.Listing.Stream
import Mathlib.Data.List.Basic

namespace ManifestScan

/-- The bytes that end every lexeme in front of them. -/
def boundaries : Bytes := [comma, rightParen, colon, space, lineFeed]

def IsBoundary (rest : Bytes) : Prop := ∀ b ∈ rest.head?, b ∈ boundaries

namespace IsBoundary

theorem nil : IsBoundary [] := nofun

theorem cons {b : UInt8} (h : b ∈ boundaries) (rest : Bytes) :
    IsBoundary (b :: rest) := by
  intro c hc
  cases hc
  exact h

end IsBoundary

/-- The bytes that end every lexeme in front of them but a comment. -/
def lexemeEnds : Bytes := carriageReturn :: boundaries

def EndsLexeme (rest : Bytes) : Prop := ∀ b ∈ rest.head?, b ∈ lexemeEnds

theorem IsBoundary.endsLexeme {rest : Bytes} (h : IsBoundary rest) : EndsLexeme rest :=
  fun b hb => List.mem_cons_of_mem _ (h b hb)

theorem eq_false_of_lexemeEnds {p : UInt8 → Bool} (hp : lexemeEnds.all (!p ·) = true) {b : UInt8}
    (hb : b ∈ lexemeEnds) : p b = false := by
  simpa using List.all_eq_true.1 hp b hb

namespace EndsLexeme

variable {rest : Bytes}

theorem any_eq_false (h : EndsLexeme rest) {p : UInt8 → Bool}
    (hp : lexemeEnds.all (!p ·) = true) :
    rest.head?.any p = false := by
  cases rest with
  | nil => rfl
  | cons b rest => exact eq_false_of_lexemeEnds hp (h b rfl)

theorem takeWhile_eq_nil (h : EndsLexeme rest) {p : UInt8 → Bool}
    (hp : lexemeEnds.all (!p ·) = true) :
    rest.takeWhile p = [] := by
  cases rest with
  | nil => rfl
  | cons b rest => exact List.takeWhile_cons_of_neg (by simp [eq_false_of_lexemeEnds hp (h b rfl)])

theorem takeWhile_append (h : EndsLexeme rest) {p : UInt8 → Bool}
    (hp : lexemeEnds.all (!p ·) = true) (text : Bytes) :
    (text ++ rest).takeWhile p = text.takeWhile p := by
  rw [List.takeWhile_append, h.takeWhile_eq_nil hp, List.append_nil]
  split
  · rename_i he
    exact ((List.takeWhile_prefix p).eq_of_length he).symm
  · rfl

theorem dropWhile_append (h : EndsLexeme rest) {p : UInt8 → Bool}
    (hp : lexemeEnds.all (!p ·) = true) (text : Bytes) :
    (text ++ rest).dropWhile p = text.dropWhile p ++ rest := by
  have hfront := @List.takeWhile_append_dropWhile _ p (text ++ rest)
  rw [h.takeWhile_append hp] at hfront
  refine List.append_cancel_left (hfront.trans ?_)
  rw [← List.append_assoc, List.takeWhile_append_dropWhile]

theorem endsName (h : EndsLexeme rest) : endsName rest = true := by
  unfold ManifestScan.endsName
  rw [h.any_eq_false (by decide)]
  rfl

theorem head?_ne_quote (h : EndsLexeme rest) {mark : UInt8} (hm : Literal.isQuote mark = true) :
    rest.head? ≠ some mark := by
  intro hb
  have hn : Literal.isQuote mark = false := eq_false_of_lexemeEnds (by decide) (h mark hb)
  rw [hn] at hm
  cases hm

/-- A byte that ends no lexeme follows in the text or not at all. -/
theorem head?_append (h : EndsLexeme rest) {b : UInt8}
    (hb : b ∉ lexemeEnds) (text : Bytes) :
    (text ++ rest).head? = some b ↔ text.head? = some b := by
  cases text with
  | nil => exact ⟨fun he => absurd (h b he) hb, nofun⟩
  | cons c text => exact Iff.rfl

theorem any_append (h : EndsLexeme rest) {p : UInt8 → Bool}
    (hp : lexemeEnds.all (!p ·) = true) (text : Bytes) :
    (text ++ rest).head?.any p = text.head?.any p := by
  cases text with
  | nil => exact h.any_eq_false hp
  | cons c text => rfl

end EndsLexeme

namespace Lexeme

theorem plainBody_append {quote : UInt8} {text : Bytes} (hc : (plainBody quote text).closed = true)
    (more : Bytes) : plainBody quote (text ++ more) = plainBody quote text := by
  fun_induction plainBody quote text with
  | case1 => cases hc
  | case2 => cases hc
  | case3 c escaped ih =>
    rw [List.cons_append, List.cons_append, plainBody, if_pos rfl, ih hc]
  | case4 => cases hc
  | case5 rest hb hl =>
    rw [List.cons_append, plainBody.eq_def]
    dsimp only
    rw [if_neg hb, if_neg hl, if_pos rfl]
  | case6 b rest hb hl hq ih =>
    rw [List.cons_append, plainBody.eq_def]
    dsimp only
    rw [if_neg hb, if_neg hl, if_neg hq, ih hc]

theorem tripleBody_short {quote b : UInt8} : (tripleBody quote [b]).closed = false := by
  unfold tripleBody
  split
  · rfl
  · split
    · rename_i h
      cases h.2
    · rfl

theorem tripleBody_append {quote : UInt8} {text : Bytes}
    (hc : (tripleBody quote text).closed = true) (more : Bytes) :
    tripleBody quote (text ++ more) = tripleBody quote text := by
  fun_induction tripleBody quote text with
  | case1 => cases hc
  | case2 => cases hc
  | case3 c escaped ih =>
    rw [List.cons_append, List.cons_append, tripleBody, if_pos rfl, ih hc]
  | case4 b rest hb hq =>
    rw [List.cons_append, tripleBody.eq_def]
    dsimp only
    rw [if_neg hb, if_pos ⟨hq.1, startsWith_append hq.2 more⟩]
  | case5 b rest hb hq ih =>
    have hs := ih hc
    rw [List.cons_append, tripleBody.eq_def]
    dsimp only
    rw [if_neg hb]
    -- A literal that goes on has two bytes more, so the text behind decides nothing here.
    rw [if_neg fun hn => hq ⟨hn.1, ?_⟩, hs]
    rcases rest with _ | ⟨c, _ | ⟨d, rest⟩⟩
    · cases hc
    · rw [Body.prepend, tripleBody_short] at hc
      cases hc
    · have := hn.2
      rw [List.cons_append, List.cons_append, Literal.startsWith_pair] at this
      rwa [Literal.startsWith_pair]

theorem read_backslash {text : Bytes} (hl : text.head? ≠ some lineFeed)
    (hr : ¬startsWith [carriageReturn, lineFeed] text = true) :
    read backslash text = ⟨.unknown, [backslash]⟩ := by
  unfold read
  rw [if_neg (by decide), if_neg (fun he => hl he.2), if_neg fun he => hr he.2]
  rfl

/-- A backslash is a fault unless it joins two lines. -/
theorem joins_of_read {text : Bytes} (hn : (read backslash text).kind ≠ .unknown) :
    text.head? = some lineFeed ∨ startsWith [carriageReturn, lineFeed] text = true := by
  by_contra hj
  rw [not_or] at hj
  exact hn (congrArg kind (read_backslash hj.1 hj.2))

/-- What is read of a text that starts with no word, comment or backslash. -/
theorem read_of_ne {b : UInt8} (hb : b ≠ backslash) (hh : b ≠ hash) (hw : ¬startsWord b = true)
    (text : Bytes) : read b text =
      if isFiller b then ⟨.filler, [b]⟩
      else if b = lineFeed then ⟨.lineBreak, [b]⟩
      else if isDigit b ∨ (b = dot ∧ text.head?.any isDigit) then
        ⟨.token .number, number (b :: text)⟩
      else if Literal.isQuote b then ofLiteral [] b text
      else punctuation b text := by
  unfold read
  refine if_congr Iff.rfl rfl ?_
  rw [if_neg fun he => hb he.1, if_neg fun he => hb he.1, if_neg hh, if_neg hw]

section

variable {rest : Bytes} (h : EndsLexeme rest)

include h

theorem fraction_append (text : Bytes) : fraction (text ++ rest) = fraction text := by
  cases text with
  | nil =>
    cases rest with
    | nil => rfl
    | cons b rest =>
      have hb : b ≠ dot := by
        rintro rfl
        exact absurd (h dot rfl) (by decide)
      exact if_neg hb
  | cons b text =>
    rw [List.cons_append, fraction, fraction, h.takeWhile_append (by decide)]

theorem exponent_append (text : Bytes) : exponent (text ++ rest) = exponent text := by
  match text with
  | [] =>
    match rest with
    | [] => rfl
    | [b] => rfl
    | b :: c :: rest =>
      have hb : isExponent b = false := eq_false_of_lexemeEnds (by decide) (h b rfl)
      simp [exponent, hb]
  | [e] =>
    match rest with
    | [] => rfl
    | b :: rest =>
      have hd : isDigit b = false := eq_false_of_lexemeEnds (by decide) (h b rfl)
      have hs : isSign b = false := eq_false_of_lexemeEnds (by decide) (h b rfl)
      simp [exponent, hd, hs]
  | e :: d :: text =>
    have hdigits : (d :: (text ++ rest)).takeWhile isFigure = (d :: text).takeWhile isFigure :=
      h.takeWhile_append (by decide) (d :: text)
    simp only [List.cons_append, exponent]
    rw [hdigits, h.takeWhile_append (by decide), h.any_append (by decide)]

theorem decimalNumber_append (text : Bytes) :
    decimalNumber (text ++ rest) = decimalNumber text := by
  have hdrop (part : Bytes) (hp : part <+: text) :
      (text ++ rest).drop part.length = text.drop part.length ++ rest :=
    List.drop_append_of_le_length hp.length_le
  have hunit (part : Bytes) : ((part ++ rest).take 1).takeWhile isImaginary =
      (part.take 1).takeWhile isImaginary := by
    cases part with
    | nil =>
      cases rest with
      | nil => rfl
      | cons b rest =>
        have hb : isImaginary b = false := eq_false_of_lexemeEnds (by decide) (h b rfl)
        simp [hb]
    | cons b part => rfl
  have hw : text.takeWhile isFigure <+: text := List.takeWhile_prefix _
  unfold decimalNumber
  dsimp only
  rw [h.takeWhile_append (by decide), hdrop _ hw, fraction_append h]
  have hp :=
    append_prefix_of_drop hw (prefix_fraction (text.drop (text.takeWhile isFigure).length)).1
  rw [hdrop _ hp, exponent_append h]
  have he := append_prefix_of_drop hp (prefix_exponent (text.drop _)).1
  rw [hdrop _ he, hunit]

theorem number_append (b : UInt8) (text : Bytes) :
    number (b :: text ++ rest) = number (b :: text) := by
  have hd := decimalNumber_append h (b :: text)
  cases text with
  | nil =>
    cases rest with
    | nil => rfl
    | cons c rest =>
      have hc : isRadix c = false := eq_false_of_lexemeEnds (by decide) (h c rfl)
      rw [List.singleton_append] at hd ⊢
      simp only [number]
      rw [if_neg (by simp [hc])]
      exact hd
  | cons c text =>
    simp only [List.cons_append, number] at hd ⊢
    rw [h.takeWhile_append (by decide), hd]

theorem unlessAssigned_append (kind : TokenKind) (mark text : Bytes) :
    unlessAssigned kind mark (text ++ rest) = unlessAssigned kind mark text := by
  unfold unlessAssigned
  rw [if_congr (h.head?_append (by decide) text) rfl rfl]

theorem punctuation_append (b : UInt8) (text : Bytes) :
    punctuation b (text ++ rest) = punctuation b text := by
  have htwice (hb : b ∉ lexemeEnds) (kind kind' : TokenKind) :
      (if (text ++ rest).head? = some b then
        unlessAssigned kind [b, b] ((text ++ rest).drop 1)
          else unlessAssigned kind' [b] (text ++ rest)) =
      if text.head? = some b then unlessAssigned kind [b, b] (text.drop 1)
        else unlessAssigned kind' [b] text := by
    rw [if_congr (h.head?_append hb text) rfl rfl, unlessAssigned_append h]
    split
    · rename_i ht
      obtain ⟨more, rfl⟩ := eq_cons_of_head? ht
      rw [List.cons_append, List.drop_one, List.drop_one, List.tail_cons, List.tail_cons,
        unlessAssigned_append h]
    · rfl
  have hdouble : ∀ b, (operators.take 3).contains b = true →
      b ∉ lexemeEnds := by decide +kernel
  -- One case a branch, as they stand in the definition.
  unfold punctuation
  split
  · rfl
  refine if_congr Iff.rfl (unlessAssigned_append h _ _ _) ?_
  refine if_congr Iff.rfl (unlessAssigned_append h _ _ _) ?_
  refine if_congr Iff.rfl (unlessAssigned_append h _ _ _) ?_
  split
  · rename_i hb
    exact htwice (by rw [hb]; decide +kernel) _ _
  refine if_congr (and_congr_right fun _ => h.head?_append (by decide) text) rfl ?_
  refine if_congr Iff.rfl ?_ rfl
  by_cases hb : (operators.take 3).contains b = true
  · simpa only [hb, true_and] using htwice (hdouble b hb) .operator .operator
  · rw [if_neg fun hn => hb hn.1, if_neg fun hn => hb hn.1, unlessAssigned_append h]

theorem literalBody_append {quote : UInt8} {text : Bytes} (hq : Literal.isQuote quote = true)
    (hc : (literalBody quote text).closed = true) :
    literalBody quote (text ++ rest) = literalBody quote text := by
  have hr := h.head?_ne_quote hq
  unfold literalBody at hc ⊢
  cases ht : afterWord? [quote, quote] text with
  | some body =>
    rw [ht] at hc
    rw [afterWord?_append ht]
    dsimp only
    rw [tripleBody_append hc]
  | none =>
    rw [ht] at hc
    -- Only a lone closing quote could become the first of two.
    have hn : afterWord? [quote, quote] (text ++ rest) = none := by
      match text, hc, ht with
      | [], hc, _ => cases hc
      | [c], _, _ =>
        cases rest with
        | nil => simp [afterWord?]
        | cons d rest =>
          have hd : d ≠ quote := by simpa using hr
          simp [afterWord?, hd]
      | c :: d :: text, _, ht => simpa [afterWord?] using ht
    rw [hn]
    dsimp only
    rw [plainBody_append hc]

theorem ofLiteral_append {mark text : Bytes} {quote : UInt8} (hq : Literal.isQuote quote = true)
    (hk : (ofLiteral mark quote text).kind ≠ .unclosed) :
    ofLiteral mark quote (text ++ rest) = ofLiteral mark quote text := by
  have hc : (literalBody quote text).closed = true := by
    by_contra hc
    exact hk (if_neg hc)
  unfold ofLiteral
  rw [literalBody_append h hq hc]

theorem read_word_append {b : UInt8} {text : Bytes} (hw : startsWord b = true)
    (hu : (read b text).kind ≠ .unclosed) : read b (text ++ rest) = read b text := by
  have htake := h.takeWhile_append (p := isWordByte) (by decide) text
  have hdrop := h.dropWhile_append (p := isWordByte) (by decide) text
  by_cases hn : ∀ quote ∈ (text.dropWhile isWordByte).head?,
      ¬(Literal.isQuote quote = true ∧ isStringMark (b :: text.takeWhile isWordByte) = true)
  · rw [read_unmarked hw hn, read_unmarked hw, htake]
    rw [htake, hdrop]
    intro quote hm hq
    cases hd : text.dropWhile isWordByte with
    | nil =>
      rw [hd] at hm
      exact h.head?_ne_quote hq.1 hm
    | cons first after =>
      rw [hd] at hm hn
      exact hn quote hm hq
  · push Not at hn
    obtain ⟨quote, hm, hq⟩ := hn
    obtain ⟨after, hd⟩ := eq_cons_of_head? (Option.mem_def.1 hm)
    rw [hd, List.cons_append] at hdrop
    rw [read_marked hw hd hq] at hu ⊢
    rw [read_marked hw hdrop (htake.symm ▸ hq), htake]
    exact ofLiteral_append h hq.1 hu

/-- A lexeme that is no fault and no comment is the same in front of a byte that ends it. -/
theorem read_append {b : UInt8} {text : Bytes} (hh : b ≠ hash)
    (hu : (read b text).kind ≠ .unclosed) (hn : (read b text).kind ≠ .unknown) :
    read b (text ++ rest) = read b text := by
  by_cases hw : startsWord b = true
  · exact read_word_append h hw hu
  by_cases hb : b = backslash
  · subst hb
    rcases joins_of_read hn with hj | hj
    · obtain ⟨more, rfl⟩ := eq_cons_of_head? hj
      rfl
    · obtain ⟨more, hm⟩ := Option.isSome_iff_exists.1 hj
      rw [eq_append_of_afterWord? hm]
      rfl
  have hnumber : number (b :: (text ++ rest)) = number (b :: text) := number_append h b text
  have hread := read_of_ne hb hh hw
  rw [hread] at hu
  rw [hread, hread, h.any_append (by decide), hnumber, punctuation_append h]
  split
  · rfl
  split
  · rfl
  split
  · rfl
  split
  · rename_i hf hl hd hq
    rw [if_neg hf, if_neg hl, if_neg hd, if_pos hq] at hu
    exact ofLiteral_append h hq hu
  · rfl

end

end Lexeme

namespace Lexeme

inductive IsInline : Lexeme → Prop
  | blank {b : UInt8} (hb : isBlank b = true) : IsInline ⟨.filler, [b]⟩
  | token {kind : TokenKind} (text : Bytes) : IsInline ⟨.token kind, text⟩

theorem flow_of_kinds {lexemes : List Lexeme}
    (h : ∀ lexeme ∈ lexemes, lexeme.kind = .filler ∨ ∃ kind, lexeme.kind = .token kind)
    (nesting : Nat) : flow nesting lexemes = true := by
  induction lexemes generalizing nesting with
  | nil => rfl
  | cons lexeme others ih =>
    obtain ⟨hl, ho⟩ := List.forall_mem_cons.1 h
    unfold flow
    rcases hl with hk | ⟨kind, hk⟩ <;> rw [hk] <;> exact ih ho _

theorem IsInline.kind_cases {lexeme : Lexeme} (h : lexeme.IsInline) :
    lexeme.kind = .filler ∨ ∃ kind, lexeme.kind = .token kind := by
  cases h with
  | blank => exact .inl rfl
  | token => exact .inr ⟨_, rfl⟩

theorem flow_of_isInline {lexemes : List Lexeme} (h : ∀ lexeme ∈ lexemes, lexeme.IsInline)
    (nesting : Nat) : flow nesting lexemes = true :=
  flow_of_kinds (fun lexeme hm => (h lexeme hm).kind_cases) nesting

end Lexeme

namespace Lexes

open Lexeme

variable {text rest : Bytes} {lexemes : List Lexeme}

theorem isInline (h : Lexes rest text lexemes) (hn : ManifestScan.lineFeed ∉ text)
    (hh : ∀ lexeme ∈ lexemes, lexeme.text.head? ≠ some hash) :
    ∀ lexeme ∈ lexemes, lexeme.IsInline := by
  induction h with
  | nil => exact List.forall_mem_nil _
  | @cons b front text lexeme others hl ht hs _ ih =>
    obtain ⟨hlexeme, hothers⟩ := List.forall_mem_cons.1 hh
    rw [List.mem_append, not_or] at hn
    refine List.forall_mem_cons.2 ⟨?_, ih hn.2 hothers⟩
    have hblank : ∀ b ∈ [ManifestScan.space, tab, carriageReturn, ManifestScan.lineFeed, formFeed],
        isBlank b = true := by decide +kernel
    have hform := form_read b (front ++ (text ++ rest))
    rw [hl] at hform
    cases hform with
    | blank hb => exact .blank (hblank b hb)
    | join => exact absurd (by simp) hn.1
    | joinReturn => exact absurd (by simp) hn.1
    | comment => exact absurd rfl hlexeme
    | lineBreak hb => exact absurd (by simp [hb]) hn.1
    | token => exact .token _
    | unclosed => rcases hs.kind_cases with hk | hk | ⟨kind, hk⟩ <;> cases hk
    | unknown => rcases hs.kind_cases with hk | hk | ⟨kind, hk⟩ <;> cases hk

/-- A text without comments has none among its lexemes. -/
theorem head?_ne_hash (h : Lexes [] text lexemes)
    (hc : ∀ comment, .comment comment ∉ codePieces text) :
    ∀ lexeme ∈ lexemes, lexeme.text.head? ≠ some hash := by
  induction h with
  | nil => exact List.forall_mem_nil _
  | @cons b front text lexeme others hl ht hs _ ih =>
    obtain ⟨found, hf, -⟩ := hs.pieces
    rw [List.append_nil] at hf
    have hsplit := hf text rfl
    refine List.forall_mem_cons.2 ⟨fun hh => ?_, ih fun comment hm => hc comment ?_⟩
    · obtain ⟨more, hm⟩ := eq_cons_of_head? hh
      refine hc (hash :: (more ++ text).takeWhile (· != ManifestScan.lineFeed)) ?_
      unfold codePieces
      rw [hm, List.cons_append, Piece.cut, if_neg (by decide), if_pos (by decide)]
      exact List.mem_cons_self
    · rw [hsplit]
      exact List.mem_append_right _ hm

/-- What is read to the end of a text without comments is read in front of a boundary. -/
theorem extend (h : Lexes [] text lexemes) (hh : ∀ lexeme ∈ lexemes, lexeme.text.head? ≠ some hash)
    (hr : IsBoundary rest) : Lexes rest text lexemes := by
  induction h with
  | nil => exact .nil
  | @cons b front text lexeme others hl ht hs _ ih =>
    obtain ⟨hlexeme, hothers⟩ := List.forall_mem_cons.1 hh
    rw [List.append_nil] at hl
    have hne : b ≠ hash := by
      rw [ht] at hlexeme
      simpa using hlexeme
    have hk : lexeme.kind ≠ .unclosed ∧ lexeme.kind ≠ .unknown := by
      rcases hs.kind_cases with hk | hk | ⟨kind, hk⟩ <;> rw [hk] <;> exact ⟨nofun, nofun⟩
    have hread : read b (front ++ (text ++ rest)) = lexeme := by
      rw [← List.append_assoc, read_append hr.endsLexeme hne (hl ▸ hk.1) (hl ▸ hk.2), hl]
    refine .cons hread ht ?_ (ih hothers)
    have hsound := sound_read b (front ++ (text ++ rest))
    rw [hread] at hsound
    rcases hsound with hu | hu | ⟨after, he, hsound⟩
    · exact absurd hu hk.1
    · exact absurd hu hk.2
    · rw [ht, List.cons_append] at he
      rwa [List.append_cancel_left (List.cons.inj he).2]

end Lexes

namespace Lexer

open Lexeme

/-- A line without a fault that reaches to the end of the source. -/
theorem exists_lexes_rest {lexer : Lexer} (hl : lexer.atLineStart = false)
    (hn : lineFeed ∉ lexer.rest) (hf : lexer.run.faults = []) :
    ∃ lexemes, Lexes [] lexer.rest lexemes := by
  -- Not structural: the lexemes go on where the one that is read ends.
  induction hk : lexer.rest.length using Nat.strong_induction_on generalizing lexer with
  | _ n ih =>
    subst hk
    cases hr : lexer.rest with
    | nil => exact ⟨[], .nil⟩
    | cons b tail =>
      have hrun : lexer.run = (lexer.take (read b tail)).run := by
        rw [run_cons hr, step, if_neg (by simp [hl])]
      have hclean := (Precedes.run (lexer.take (read b tail))).faults_nil (hrun ▸ hf)
      obtain hu | hu | ⟨after, he, hsound⟩ := sound_read b tail
      · exact absurd hclean (faults_take_unclosed hu)
      · exact absurd hclean (faults_take_unknown hu)
      have hform := form_read b tail
      have hne := read_text_ne_nil b tail
      have hrest : (lexer.take (read b tail)).rest = after := by
        rw [rest_take, hr, he, List.drop_left]
      have hbreak : (read b tail).kind ≠ .lineBreak := by
        intro hk
        generalize read b tail = lexeme at hform hk
        cases hform with
        | lineBreak hb => exact hn (by simp [hr, hb])
        | _ => cases hk
      have hstart : (lexer.take (read b tail)).atLineStart = false := by
        rcases hsound.kind_cases with hk | hk | ⟨kind, hk⟩
        · simp [take, hk, skip, hl]
        · exact absurd hk hbreak
        · simp [take, hk, skip, addToken, hl]
      have hmem : lineFeed ∉ after :=
        fun hm => hn (by rw [hr, he]; exact List.mem_append_right _ hm)
      obtain ⟨others, ho⟩ := ih after.length
        (by
          rw [hr, he, List.length_append]
          exact Nat.lt_add_of_pos_left (List.length_pos_iff.2 hne))
        hstart (hrest ▸ hmem) (hrun ▸ hf) (congrArg List.length hrest)
      rw [hrest] at ho
      obtain ⟨front, ht⟩ : ∃ front, (read b tail).text = b :: front := by
        cases hx : (read b tail).text with
        | nil => exact absurd hx hne
        | cons c front =>
          rw [hx] at he
          cases he
          exact ⟨front, rfl⟩
      refine ⟨read b tail :: others, ?_⟩
      rw [he]
      refine .cons ?_ ht (by rwa [List.append_nil]) ho
      rw [List.append_nil]
      congr 1
      rw [ht] at he
      exact (List.cons.inj he).2.symm

end Lexer

namespace Lexeme

variable {text : Bytes} {lexemes : List Lexeme}

/-- The first lexeme of a trimmed text is a token. -/
theorem head?_tokensOf (ht : IsTrimmed text) (he : lexemes.flatMap Lexeme.text = text)
    (h : ∀ lexeme ∈ lexemes, lexeme.IsInline) (offset : Nat) (location : Location) :
    ∃ first others, tokensOf offset location lexemes = first :: others ∧ first.offset = offset := by
  cases lexemes with
  | nil => exact absurd he.symm ht.ne_nil
  | cons lexeme lexemes =>
    cases h lexeme List.mem_cons_self with
    | @blank b hb =>
      have := ht.head? b (by rw [← he]; rfl)
      rw [hb] at this
      cases this
    | token text => exact ⟨_, _, rfl, rfl⟩

theorem getLast?_tokensOf (ht : IsTrimmed text) (he : lexemes.flatMap Lexeme.text = text)
    (h : ∀ lexeme ∈ lexemes, lexeme.IsInline) (offset : Nat) (location : Location) :
    ∃ front last, tokensOf offset location lexemes = front ++ [last] ∧
      last.stop = offset + text.length := by
  rcases List.eq_nil_or_concat' lexemes with rfl | ⟨others, lexeme, rfl⟩
  · exact absurd he.symm ht.ne_nil
  · rw [tokensOf_append]
    cases h lexeme (by simp) with
    | @blank b hb =>
      have := ht.getLast? b (by rw [← he]; simp)
      rw [hb] at this
      cases this
    | token text =>
      refine ⟨_, _, rfl, ?_⟩
      rw [← he, List.flatMap_append, List.length_append, ← Nat.add_assoc]
      simp [Token.stop, Token.length]

end Lexeme

/-- The tokens of a line are those of its lexemes and of its end. -/
theorem exists_lexes_tokenize {text : Bytes} (ht : IsTrimmed text) (hn : lineFeed ∉ text)
    (hc : ∀ comment, .comment comment ∉ codePieces text) (hf : (tokenize text).faults = []) :
    ∃ lexemes, Lexes [] text lexemes ∧ (∀ lexeme ∈ lexemes, lexeme.text.head? ≠ some hash) ∧
      turnsOf lexemes = (tokenize text).tokens.filterMap Token.turn? := by
  obtain ⟨b, tail, rfl⟩ := List.exists_cons_of_ne_nil ht.ne_nil
  have hb := ht.head? b rfl
  have hblank : ∀ b, isBlank b = false → Lexer.isIndentByte b = false ∧ b ≠ carriageReturn ∧
      b ≠ lineFeed := by decide +kernel
  have hh : b ≠ hash := by
    rintro rfl
    refine hc (hash :: tail.takeWhile (· != lineFeed)) ?_
    unfold codePieces
    rw [Piece.cut, if_neg (by decide), if_pos (by decide)]
    exact List.mem_cons_self
  obtain ⟨hi, hr, hl⟩ := hblank b hb
  let lexer : Lexer := ⟨b :: tail, 0, Location.start, false, 0, [], [], []⟩
  have hstart : (Lexer.start (b :: tail)).run = lexer.run :=
    @Lexer.run_content (Lexer.start (b :: tail)) rfl rfl [] b tail (List.forall_mem_nil _)
      ⟨hi, hr, hl, hh⟩ rfl
  have hfaults : lexer.run.faults = [] := by
    rw [← hstart]
    refine (Lexer.Precedes.finish _).faults_nil ?_
    exact List.reverse_eq_nil_iff.1 hf
  obtain ⟨lexemes, hlex⟩ := @Lexer.exists_lexes_rest lexer rfl hn hfaults
  have hhash := hlex.head?_ne_hash hc
  have hflow := Lexeme.flow_of_isInline (hlex.isInline hn hhash) 0
  refine ⟨lexemes, hlex, hhash, ?_⟩
  have hrun : lexer.run = lexer.through (b :: tail) [] lexemes := by
    rw [Lexer.run_lexes hlex (List.append_nil _).symm rfl hflow]
    exact Lexer.run_nil rfl
  obtain ⟨added, hadded, hlayout⟩ := Lexer.AddsLayout.finish (Lexer.start (b :: tail)).run
  have hnone := Token.turns_layout fun token hm => hlayout token (List.mem_reverse.1 hm)
  unfold tokenize
  dsimp only
  rw [hadded, List.reverse_append, List.filterMap_append, hnone, hstart, hrun, List.append_nil]
  unfold Lexer.through
  dsimp only
  rw [List.append_nil, List.reverse_reverse, turns_tokensOf]

end ManifestScan
