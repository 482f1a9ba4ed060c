import ManifestScan.Proofs.Text.Quote
import Mathlib.Algebra.Group.Nat.Even

namespace ManifestScan.Literal

/-- A way to quote a text: one of the two quotes, once or three times on both sides. -/
structure Style where
  mark : UInt8
  isTriple : Bool
  isQuote_mark : isQuote mark = true := by decide

namespace Style

def width (style : Style) : Nat := if style.isTriple then 3 else 1

def marks (style : Style) : Bytes := List.replicate style.width style.mark

def enclose (style : Style) (body : Bytes) : Bytes := style.marks ++ (body ++ style.marks)

/-- The bodies that end at the marks behind them and not before: each backslash takes the byte
behind it, no other byte starts closing marks, and between single marks no line ends. -/
inductive IsBody (style : Style) : Bytes → Prop
  | nil : IsBody style []
  | escape (c : UInt8) {body : Bytes} (h : IsBody style body) :
    IsBody style (backslash :: c :: body)
  | byte {b : UInt8} {body : Bytes} (hb : b ≠ backslash)
    (hm : ¬style.marks <+: b :: (body ++ style.marks))
    (hl : style.isTriple = false → b ≠ lineFeed) (h : IsBody style body) : IsBody style (b :: body)

end Style

/-- A byte as it is written between marks of any style: both quotes are escaped. -/
def escapeAny (b : UInt8) : Bytes := if isQuote b then [backslash, b] else escape b

def Style.quote (style : Style) (text : Bytes) : Bytes := style.enclose (text.flatMap escapeAny)

def body (text : Bytes) : Bytes :=
  (text.drop (quoteWidth text)).take (text.length - 2 * quoteWidth text)

/-- Whether a scan from the first byte of the text looks for three quotes at the end. -/
def opensTriple : Bytes → Bool
  | [] => false
  | quote :: rest => startsWith [quote, quote] rest

/-- How many backslashes a text ends in. The last one is paired if their number is even. -/
def trailingBackslashes (text : Bytes) : Nat := (text.reverse.takeWhile (· == backslash)).length

theorem unquote_eq {text : Bytes} (h : isQuoted text = true) :
    unquote text = unescape (body text) :=
  if_pos h

/-- The scan of a literal looks for the marks that it opens with. -/
theorem after?_eq (quote : UInt8) (rest : Bytes) :
    after? (quote :: rest) =
      if opensTriple (quote :: rest) then afterTriple? quote (rest.drop 2)
      else afterPlain? quote rest := by
  have ho : opensTriple (quote :: rest) = (afterWord? [quote, quote] rest).isSome := rfl
  unfold after?
  dsimp only
  split
  · rename_i text h
    rw [h, Option.isSome_some] at ho
    rw [if_pos ho, eq_append_of_afterWord? h]
    rfl
  · rename_i h
    rw [h, Option.isSome_none] at ho
    rw [if_neg (ne_true_of_eq_false ho)]

theorem escapeAny_cases (b : UInt8) :
    (∃ c, escapeAny b = [backslash, c] ∧ escaped c = [b]) ∨
      (escapeAny b = [b] ∧ b ≠ backslash ∧ isQuote b = false ∧ b ≠ lineFeed) := by
  unfold escapeAny
  by_cases hq : isQuote b = true
  · left
    rw [if_pos hq]
    refine ⟨b, rfl, ?_⟩
    rcases isQuote_cases hq with rfl | rfl <;> rfl
  · rw [if_neg hq]
    rcases escape_cases b with ⟨c, he, hc, -⟩ | ⟨he, hb, -, hl⟩
    · exact .inl ⟨c, he, hc⟩
    · exact .inr ⟨he, hb, by simpa using hq, hl⟩

theorem trailingBackslashes_append (front behind : Bytes) :
    trailingBackslashes (front ++ behind) =
      if trailingBackslashes behind = behind.length then behind.length + trailingBackslashes front
      else trailingBackslashes behind := by
  unfold trailingBackslashes
  rw [List.reverse_append, List.takeWhile_append, List.length_reverse]
  split
  · rw [List.length_append, List.length_reverse]
  · rfl

namespace Style

variable {style : Style} {inner rest behind : Bytes} {b : UInt8}

theorem marks_eq (style : Style) :
    style.marks = style.mark :: List.replicate (style.width - 1) style.mark := by
  unfold marks width
  split <;> rfl

theorem length_marks (style : Style) : style.marks.length = style.width := List.length_replicate

def scan (style : Style) (text : Bytes) : Option Bytes :=
  if style.isTriple then afterTriple? style.mark text else afterPlain? style.mark text

theorem scan_nil (style : Style) : style.scan [] = none := by
  unfold scan
  split <;> rfl

theorem scan_backslash (style : Style) : style.scan [backslash] = none := by
  unfold scan
  rw [afterTriple?, afterPlain?, if_pos rfl, if_pos rfl]
  split <;> rfl

/-- Between single marks no line ends. -/
theorem scan_lineFeed (ht : style.isTriple = false) (rest : Bytes) :
    style.scan (lineFeed :: rest) = none := by
  have hq : lineFeed ≠ style.mark := (isQuote_apart style.isQuote_mark).2.symm
  unfold scan
  rw [ht, if_neg Bool.false_ne_true, afterPlain?.eq_def]
  dsimp only
  rw [if_neg (by decide), if_neg hq, if_pos rfl]

theorem scan_escape (style : Style) (c : UInt8) (rest : Bytes) :
    style.scan (backslash :: c :: rest) = style.scan rest := by
  unfold scan
  rw [afterTriple?, afterPlain?, if_pos rfl, if_pos rfl]

theorem scan_marks (style : Style) (rest : Bytes) :
    style.scan (style.marks ++ rest) = some rest := by
  have hb := (isQuote_apart style.isQuote_mark).1
  unfold scan marks width
  split
  · have hs : startsWith [style.mark, style.mark] (style.mark :: style.mark :: rest) = true := by
      simp [startsWith_pair]
    show afterTriple? style.mark (style.mark :: style.mark :: style.mark :: rest) = some rest
    rw [afterTriple?.eq_def]
    dsimp only
    rw [if_neg hb, if_pos ⟨rfl, hs⟩]
    rfl
  · show afterPlain? style.mark (style.mark :: rest) = some rest
    rw [afterPlain?.eq_def]
    dsimp only
    rw [if_neg hb, if_pos rfl]

theorem scan_byte (hb : b ≠ backslash) (hm : ¬style.marks <+: b :: rest)
    (hl : style.isTriple = false → b ≠ lineFeed) : style.scan (b :: rest) = style.scan rest := by
  unfold scan
  unfold marks width at hm
  cases ht : style.isTriple with
  | true =>
    rw [ht] at hm
    rw [if_pos rfl, if_pos rfl, afterTriple?.eq_def]
    dsimp only
    rw [if_neg hb, if_neg]
    rintro ⟨rfl, hs⟩
    obtain ⟨more, hr⟩ := Option.isSome_iff_exists.1 hs
    apply hm
    rw [eq_append_of_afterWord? hr]
    exact List.prefix_append [style.mark, style.mark, style.mark] more
  | false =>
    rw [ht] at hm
    rw [if_neg (by simp), if_neg (by simp), afterPlain?.eq_def]
    dsimp only
    rw [if_neg hb, if_neg, if_neg (hl ht)]
    rintro rfl
    exact hm (List.prefix_append [style.mark] rest)

/-- Whether marks start in front of the closing ones is settled by the bytes up to those. -/
theorem marks_prefix_append (style : Style) (b : UInt8) (inner behind : Bytes) :
    style.marks <+: b :: (inner ++ (style.marks ++ behind)) ↔
      style.marks <+: b :: (inner ++ style.marks) := by
  have he : b :: (inner ++ (style.marks ++ behind)) = b :: (inner ++ style.marks) ++ behind := by
    simp
  rw [he]
  constructor
  · intro h
    apply List.prefix_of_prefix_length_le h (List.prefix_append _ _)
    simp only [List.length_cons, List.length_append]
    omega
  · intro h
    exact h.trans (List.prefix_append _ _)

theorem IsBody.scan_eq (h : style.IsBody inner) (behind : Bytes) :
    style.scan (inner ++ (style.marks ++ behind)) = some behind := by
  induction h with
  | nil => exact scan_marks style behind
  | escape c _ ih => rw [List.cons_append, List.cons_append, scan_escape, ih]
  | byte hb hm hl _ ih =>
    rw [List.cons_append, scan_byte hb (mt (marks_prefix_append ..).1 hm) hl, ih]

/-- What a scan passes is a body with the closing marks behind it. -/
theorem exists_body (h : style.scan rest = some behind) :
    ∃ inner, rest = inner ++ (style.marks ++ behind) ∧ style.IsBody inner := by
  induction hn : rest.length using Nat.strong_induction_on generalizing rest with
  | _ n ih =>
    subst hn
    cases rest with
    | nil =>
      rw [scan_nil] at h
      cases h
    | cons b rest =>
      by_cases hb : b = backslash
      · subst hb
        cases rest with
        | nil =>
          rw [scan_backslash] at h
          cases h
        | cons c rest =>
          rw [scan_escape] at h
          have hlt : rest.length < (backslash :: c :: rest).length := by
            rw [List.length_cons, List.length_cons]
            omega
          obtain ⟨inner, rfl, hi⟩ := ih _ hlt h rfl
          exact ⟨backslash :: c :: inner, rfl, hi.escape c⟩
      by_cases hm : style.marks <+: b :: rest
      · obtain ⟨more, he⟩ := hm
        rw [← he, scan_marks] at h
        cases h
        exact ⟨[], he.symm, .nil⟩
      · have hl : style.isTriple = false → b ≠ lineFeed := by
          rintro ht rfl
          rw [scan_lineFeed ht] at h
          cases h
        rw [scan_byte hb hm hl] at h
        obtain ⟨inner, rfl, hi⟩ := ih _ (Nat.lt_succ_self _) h rfl
        exact ⟨b :: inner, rfl, .byte hb (mt (marks_prefix_append ..).2 hm) hl hi⟩

/-- Only three marks look like three to the scan: a body between single marks starts with none. -/
theorem opensTriple_enclose (h : style.IsBody inner) :
    opensTriple (style.enclose inner) = style.isTriple := by
  unfold enclose marks width
  cases ht : style.isTriple with
  | true =>
    show startsWith [style.mark, style.mark] (style.mark :: style.mark :: (inner ++ _)) = true
    simp [startsWith_pair]
  | false =>
    show startsWith [style.mark, style.mark] (inner ++ [style.mark]) = false
    cases h with
    | nil => simp [startsWith, afterWord?]
    | escape c h =>
      have hb := (isQuote_apart style.isQuote_mark).1.symm
      simp [startsWith, afterWord?, hb]
    | @byte b body hb hm hl h =>
      have hn : b ≠ style.mark := by
        rintro rfl
        apply hm
        unfold marks width
        rw [ht]
        exact List.prefix_append [style.mark] _
      simp [startsWith, afterWord?, hn]

theorem enclose_eq (style : Style) (inner : Bytes) : style.enclose inner =
    style.mark :: (List.replicate (style.width - 1) style.mark ++ (inner ++ style.marks)) :=
  congrArg (· ++ (inner ++ style.marks)) style.marks_eq

theorem length_enclose (style : Style) (inner : Bytes) :
    (style.enclose inner).length = inner.length + 2 * style.width := by
  simp only [enclose, List.length_append, length_marks]
  omega

theorem after?_enclose (h : style.IsBody inner) : after? (style.enclose inner) = some [] := by
  have ho := opensTriple_enclose h
  have hs := h.scan_eq []
  rw [List.append_nil] at hs
  rw [enclose_eq] at ho ⊢
  rw [after?_eq, ho, ← hs]
  unfold scan marks width
  cases style.isTriple <;> rfl

theorem isQuoted_enclose (h : style.IsBody inner) : isQuoted (style.enclose inner) = true := by
  have ha := after?_enclose h
  rw [enclose_eq] at ha ⊢
  unfold isQuoted
  dsimp only
  rw [ha, style.isQuote_mark]
  rfl

theorem quoteWidth_enclose (h : style.IsBody inner) :
    quoteWidth (style.enclose inner) = style.width := by
  have ho := opensTriple_enclose h
  have hl := length_enclose style inner
  rw [enclose_eq] at ho hl ⊢
  unfold quoteWidth
  unfold opensTriple at ho
  dsimp only at ho ⊢
  rw [ho, hl]
  unfold width
  cases style.isTriple with
  | true =>
    rw [if_pos rfl, if_pos ⟨by omega, rfl⟩]
  | false =>
    rw [if_neg fun hn => Bool.false_ne_true hn.2]
    rfl

theorem body_enclose (h : style.IsBody inner) : body (style.enclose inner) = inner := by
  unfold body
  rw [quoteWidth_enclose h, length_enclose, Nat.add_sub_cancel, enclose,
    List.drop_left' style.length_marks, List.take_left]

/-- With its escapes, a text is a body in every style. -/
theorem isBody_flatMap (style : Style) (text : Bytes) : style.IsBody (text.flatMap escapeAny) := by
  induction text with
  | nil => exact .nil
  | cons b text ih =>
    rw [List.flatMap_cons]
    rcases escapeAny_cases b with ⟨c, he, -⟩ | ⟨he, hb, hq, hl⟩
    · rw [he]
      exact ih.escape c
    · rw [he]
      apply ih.byte hb _ fun _ => hl
      -- The marks start with a quote, and this byte is none.
      rw [marks_eq, List.cons_prefix_cons]
      rintro ⟨rfl, -⟩
      rw [style.isQuote_mark] at hq
      cases hq

/-- The backslashes at the end of a body are pairs. -/
theorem IsBody.even_trailingBackslashes (h : style.IsBody inner) :
    Even (trailingBackslashes inner) := by
  induction h with
  | nil => exact Even.zero
  | @escape c body _ ih =>
    have hp : backslash :: c :: body = [backslash, c] ++ body := rfl
    rw [hp, trailingBackslashes_append]
    split
    · rename_i hl
      rw [hl] at ih
      by_cases hc : c = backslash
      · subst hc
        exact ih.add (by decide)
      · have hz : trailingBackslashes [backslash, c] = 0 := by simp [trailingBackslashes, hc]
        rw [hz]
        exact ih
    · exact ih
  | @byte b body hb _ _ _ ih =>
    have hp : b :: body = [b] ++ body := rfl
    have hz : trailingBackslashes [b] = 0 := by simp [trailingBackslashes, hb]
    rw [hp, trailingBackslashes_append, hz]
    split
    · rename_i hl
      rwa [hl] at ih
    · exact ih

end Style

/-- The quoted texts are the bodies between marks, each in one style. -/
theorem isQuoted_iff {text : Bytes} :
    isQuoted text = true ↔ ∃ (style : Style) (inner : Bytes), style.IsBody inner ∧
      text = style.enclose inner := by
  constructor
  · intro h
    cases text with
    | nil => cases h
    | cons mark rest =>
      unfold isQuoted at h
      dsimp only at h
      rw [Bool.and_eq_true, beq_iff_eq, after?_eq] at h
      obtain ⟨hq, ha⟩ := h
      by_cases ho : opensTriple (mark :: rest) = true
      · rw [if_pos ho] at ha
        have hs : (afterWord? [mark, mark] rest).isSome = true := ho
        obtain ⟨more, hr⟩ := Option.isSome_iff_exists.1 hs
        rw [eq_append_of_afterWord? hr] at ha ⊢
        replace ha : Style.scan ⟨mark, true, hq⟩ more = some [] := ha
        obtain ⟨inner, hi, hb⟩ := Style.exists_body ha
        refine ⟨⟨mark, true, hq⟩, inner, hb, ?_⟩
        rw [hi, List.append_nil]
        rfl
      · rw [if_neg ho] at ha
        replace ha : Style.scan ⟨mark, false, hq⟩ rest = some [] := ha
        obtain ⟨inner, hi, hb⟩ := Style.exists_body ha
        refine ⟨⟨mark, false, hq⟩, inner, hb, ?_⟩
        rw [hi, List.append_nil]
        rfl
  · rintro ⟨style, inner, hb, rfl⟩
    exact Style.isQuoted_enclose hb

/-- A text is found again behind the marks of every style. A quoted text consists of marks and a
body without an unpaired backslash at its end, it is decoded with as many marks as its scan has
looked for, and all other texts stand for themselves. -/
theorem unquote_quote_style :
    (∀ (style : Style) (text : Bytes), isQuoted (style.quote text) = true ∧
      unquote (style.quote text) = text) ∧
    (∀ text : Bytes, isQuoted text = true →
      (∃ mark, isQuote mark = true ∧ text = List.replicate (quoteWidth text) mark ++
        (body text ++ List.replicate (quoteWidth text) mark)) ∧
      unquote text = unescape (body text) ∧ Even (trailingBackslashes (body text)) ∧
      (quoteWidth text = 3 ↔ opensTriple text = true)) ∧
    ∀ text : Bytes, isQuoted text = false → unquote text = text := by
  refine ⟨fun style text => ?_, fun text h => ?_, fun text h => ?_⟩
  · have hb := style.isBody_flatMap text
    have hq := Style.isQuoted_enclose hb
    refine ⟨hq, ?_⟩
    rw [Style.quote, unquote_eq hq, Style.body_enclose hb]
    apply unescape_flatMap
    intro b
    exact (escapeAny_cases b).imp id fun ⟨he, hn, _⟩ => ⟨he, hn⟩
  · have hu := unquote_eq h
    obtain ⟨style, inner, hb, rfl⟩ := isQuoted_iff.1 h
    rw [Style.body_enclose hb] at hu ⊢
    rw [Style.quoteWidth_enclose hb, Style.opensTriple_enclose hb]
    refine ⟨⟨style.mark, style.isQuote_mark, rfl⟩, hu, hb.even_trailingBackslashes, ?_⟩
    unfold Style.width
    cases style.isTriple <;> decide
  · exact if_neg (ne_true_of_eq_false h)

/-- Every byte that is escaped between three quotes, six quotes around nothing, and three quotes,
which are no literal. -/
theorem unquote_quote_style_short :
    let text := ascii "\\\"'\n\r\t'''"
    let empty := ascii "''''''"
    let open_ := ascii "'''"
    unquote (Style.quote ⟨singleQuote, true, rfl⟩ text) = text ∧
      isQuoted empty = true ∧ (quoteWidth empty = 3 ↔ opensTriple empty = true) ∧
      isQuoted open_ = false ∧ unquote open_ = open_ := by
  intro text empty open_
  obtain ⟨hquote, hquoted, hother⟩ := unquote_quote_style
  have hempty : isQuoted empty = true := by decide +kernel
  have hopen : isQuoted open_ = false := by decide +kernel
  exact ⟨(hquote _ text).2, hempty, (hquoted empty hempty).2.2.2, hopen, hother open_ hopen⟩

end ManifestScan.Literal
