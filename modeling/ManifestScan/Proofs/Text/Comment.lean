import ManifestScan.Proofs.Lexing.Pieces
import ManifestScan.Proofs.Text.Parenthesis
import ManifestScan.Proofs.Text.Style

/-! What is left of a text without its comments. -/

namespace ManifestScan

namespace Literal

/-- A string literal in front of other text. Two quotes are none in front of a third one. -/
def Stands (literal rest : Bytes) : Prop :=
  ∃ (style : Style) (inner : Bytes), style.IsBody inner ∧ literal = style.enclose inner ∧
    (literal = [style.mark, style.mark] → rest.head? ≠ some style.mark)

variable {literal rest : Bytes}

theorem Stands.exists_quote (h : Stands literal rest) : ∃ quote body,
    literal = quote :: body ∧ isQuote quote = true ∧ after? (literal ++ rest) = some rest := by
  obtain ⟨style, inner, hb, he, hthird⟩ := h
  have ha := Style.after?_enclose hb
  rw [← he] at ha
  rw [Style.enclose_eq] at he
  generalize List.replicate (style.width - 1) style.mark ++ (inner ++ style.marks) = body at he
  subst he
  refine ⟨style.mark, body, rfl, style.isQuote_mark, ?_⟩
  apply after?_append ha
  rintro rfl
  exact hthird rfl

theorem stands_of_after? {quote : UInt8} {body : Bytes} (hq : isQuote quote = true)
    (ha : after? (quote :: body ++ rest) = some rest) : Stands (quote :: body) rest := by
  obtain ⟨hown, hthird⟩ := after?_own ha
  have hquoted : isQuoted (quote :: body) = true := by
    unfold isQuoted
    dsimp only
    rw [hq, hown]
    rfl
  obtain ⟨style, inner, hb, he⟩ := isQuoted_iff.1 hquoted
  have hmark : quote = style.mark := by
    rw [Style.enclose_eq] at he
    exact (List.cons.inj he).1
  refine ⟨style, inner, hb, he, fun hs => ?_⟩
  rw [← hmark] at hs ⊢
  exact hthird (List.cons.inj hs).2

/-- A scan for the end of a literal finds none when no literal stands in front of a text. -/
theorem not_stands_iff {quote : UInt8} {text : Bytes} (hq : isQuote quote = true) :
    (∀ literal behind, quote :: text = literal ++ behind → ¬Stands literal behind) ↔
      after? (quote :: text) = none := by
  constructor
  · intro h
    cases ha : after? (quote :: text) with
    | none => rfl
    | some after =>
      obtain ⟨body, rfl⟩ := after?_suffix ha
      exact absurd (stands_of_after? hq ha) (h _ _ rfl)
  · intro ha literal behind he hs
    obtain ⟨-, -, -, -, hsome⟩ := hs.exists_quote
    rw [← he, ha] at hsome
    cases hsome

end Literal

/-- What is left of a text: every byte and literal but the comments, each of which reaches
from a hash outside the literals to the end of its line. A literal without an end takes all
that follows. -/
inductive Uncommented : Bytes → Bytes → Prop
  | nil : Uncommented [] []
  | byte {b : UInt8} {text kept : Bytes} (hq : Literal.isQuote b = false) (hh : b ≠ hash)
    (h : Uncommented text kept) : Uncommented (b :: text) (b :: kept)
  | literal {literal text kept : Bytes} (hl : Literal.Stands literal text)
    (h : Uncommented text kept) : Uncommented (literal ++ text) (literal ++ kept)
  | unclosed {quote : UInt8} {text : Bytes} (hq : Literal.isQuote quote = true)
    (hn : ∀ literal behind, quote :: text = literal ++ behind → ¬Literal.Stands literal behind) :
    Uncommented (quote :: text) (quote :: text)
  | comment {words text kept : Bytes} (hw : lineFeed ∉ words) (ht : ∀ b ∈ text.head?, b = lineFeed)
    (h : Uncommented text kept) : Uncommented (hash :: words ++ text) kept

section

variable {b quote : UInt8} {body rest : Bytes}

theorem dropComments_nil : dropComments [] = [] := by
  unfold dropComments
  rw [Piece.codePieces_nil, List.flatMap_nil]

theorem dropComments_byte (hq : Literal.isQuote b = false) (hh : b ≠ hash) (rest : Bytes) :
    dropComments (b :: rest) = b :: dropComments rest := by
  unfold dropComments
  rw [Piece.cut_byte hq (by simpa using hh), List.flatMap_cons]
  rfl

theorem dropComments_literal (hq : Literal.isQuote quote = true)
    (ha : Literal.after? (quote :: body ++ rest) = some rest) :
    dropComments (quote :: body ++ rest) = quote :: body ++ dropComments rest := by
  unfold dropComments
  rw [Piece.cut_literal hq ha, List.flatMap_cons]
  rfl

theorem dropComments_unclosed (hq : Literal.isQuote quote = true)
    (ha : Literal.after? (quote :: rest) = none) :
    dropComments (quote :: rest) = quote :: rest := by
  unfold dropComments
  rw [Piece.cut_unclosed hq ha, List.flatMap_cons, List.flatMap_nil, List.append_nil]
  rfl

theorem dropComments_comment {words : Bytes} (hw : ∀ b ∈ words, (b != lineFeed) = true)
    (hr : rest.takeWhile (· != lineFeed) = []) :
    dropComments (hash :: words ++ rest) = dropComments rest := by
  unfold dropComments
  rw [Piece.cut_comment hw hr, List.flatMap_cons]
  rfl

end

/-- A line has no more text exactly where it ends. -/
theorem takeWhile_line_eq_nil {text : Bytes} :
    text.takeWhile (· != lineFeed) = [] ↔ ∀ b ∈ text.head?, b = lineFeed := by
  cases text with
  | nil => simp
  | cons b text => simp

theorem uncommented_dropComments (text : Bytes) : Uncommented text (dropComments text) := by
  fun_induction Piece.cut true text with
  | case1 =>
    rw [dropComments_nil]
    exact .nil
  | case2 quote rest hq after ha ih =>
    obtain ⟨body, rfl⟩ := Literal.after?_suffix ha
    rw [← List.cons_append, dropComments_literal hq ha]
    exact .literal (Literal.stands_of_after? hq ha) ih
  | case3 quote rest hq ha =>
    rw [dropComments_unclosed hq ha]
    exact .unclosed hq ((Literal.not_stands_iff hq).2 ha)
  | case4 b rest _ hh ih =>
    obtain rfl : b = hash := by simpa using hh
    obtain ⟨words, behind, rfl, hw, hr⟩ := exists_line rest
    rw [List.dropWhile_append_of_pos hw] at ih
    have hd : behind.dropWhile (· != lineFeed) = behind := by
      have := @List.takeWhile_append_dropWhile _ (· != lineFeed) behind
      rwa [hr, List.nil_append] at this
    rw [hd] at ih
    rw [← List.cons_append, dropComments_comment hw hr]
    refine .comment (fun hm => ?_) (takeWhile_line_eq_nil.1 hr) ih
    have := hw _ hm
    simp at this
  | case5 b rest hq hh ih =>
    have hne : b ≠ hash := by simpa using hh
    rw [dropComments_byte (eq_false_of_ne_true hq) hne]
    exact .byte (eq_false_of_ne_true hq) hne ih

namespace Uncommented

variable {text kept : Bytes}

theorem eq_dropComments (h : Uncommented text kept) : kept = dropComments text := by
  induction h with
  | nil => rw [dropComments_nil]
  | byte hq hh _ ih => rw [dropComments_byte hq hh, ih]
  | literal hl _ ih =>
    obtain ⟨quote, body, rfl, hq, ha⟩ := hl.exists_quote
    rw [dropComments_literal hq ha, ih]
  | unclosed hq hn => rw [dropComments_unclosed hq ((Literal.not_stands_iff hq).1 hn)]
  | comment hw ht _ ih =>
    rw [dropComments_comment _ (takeWhile_line_eq_nil.2 ht), ih]
    intro b hb
    rw [bne_iff_ne]
    rintro rfl
    exact hw hb

/-- A quote that starts what is left of a text has started the text. -/
theorem head?_of_quote (h : Uncommented text kept) {quote : UInt8}
    (hq : Literal.isQuote quote = true) (hk : kept.head? = some quote) :
    text.head? = some quote := by
  induction h with
  | nil => exact hk
  | byte => exact hk
  | literal hl =>
    obtain ⟨mark, body, rfl, -, -⟩ := hl.exists_quote
    exact hk
  | unclosed => exact hk
  | comment _ ht _ ih =>
    -- The comment is followed by the end of its line, and this is no quote.
    have hl := ht quote (ih hk)
    subst hl
    cases hq

/-- What is left has no comments: it is made of the same bytes and literals, and no two quotes come
to stand in front of a third one. -/
theorem kept_self (h : Uncommented text kept) : Uncommented kept kept := by
  induction h with
  | nil => exact .nil
  | byte hq hh _ ih => exact .byte hq hh ih
  | @literal literal text kept hl h ih =>
    obtain ⟨style, inner, hb, he, hthird⟩ := hl
    apply Uncommented.literal _ ih
    refine ⟨style, inner, hb, he, fun hs hk => ?_⟩
    exact hthird hs (h.head?_of_quote style.isQuote_mark hk)
  | unclosed hq hn => exact .unclosed hq hn
  | comment _ _ _ ih => exact ih

end Uncommented

theorem uncommented_iff {text kept : Bytes} : Uncommented text kept ↔ kept = dropComments text := by
  constructor
  · exact Uncommented.eq_dropComments
  · rintro rfl
    exact uncommented_dropComments text

theorem dropComments_dropComments (text : Bytes) :
    dropComments (dropComments text) = dropComments text :=
  (uncommented_dropComments text).kept_self.eq_dropComments.symm

end ManifestScan
