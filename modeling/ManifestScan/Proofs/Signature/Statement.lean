import ManifestScan.Proofs.Listing.Body
import ManifestScan.Proofs.Text.Part
import ManifestScan.Signature

namespace ManifestScan

/-- A byte is found where it stands. -/
theorem Bracket.positionOf?_getElem? {target : UInt8} {depth offset i : Nat} {found : List Piece}
    (h : positionOf? target depth offset found = some i) :
    ∃ k, i = offset + k ∧ (found.flatMap Piece.text)[k]? = some target := by
  fun_induction positionOf? target depth offset found with
  | case1 => cases h
  | case2 => cases h
  | case3 depth offset b rest hb =>
    cases h
    exact ⟨0, rfl, by rw [List.flatMap_cons, hb.1]; rfl⟩
  | case4 depth offset b rest _ ih =>
    obtain ⟨k, rfl, hk⟩ := ih h
    exact ⟨k + 1, by omega, hk⟩
  | case5 depth offset piece rest _ _ ih =>
    obtain ⟨k, rfl, hk⟩ := ih h
    refine ⟨piece.width + k, Nat.add_assoc _ _ _, ?_⟩
    rw [List.flatMap_cons, Piece.width, List.getElem?_append_right (Nat.le_add_right _ _),
      Nat.add_sub_cancel_left]
    exact hk

section

variable {target : UInt8} {text : Bytes}

theorem outerPosition?_getElem? {i : Nat} (h : outerPosition? target text = some i) :
    text[i]? = some target := by
  obtain ⟨k, rfl, hk⟩ := Bracket.positionOf?_getElem? h
  rwa [pieces, Piece.flatMap_text_cut, ← Nat.zero_add k] at hk

theorem outerPosition?_of_notMem (h : target ∉ text) : outerPosition? target text = none := by
  cases hp : outerPosition? target text with
  | none => rfl
  | some i => exact absurd (List.mem_of_getElem? (outerPosition?_getElem? hp)) h

end

/-- A literal that ends in front of a byte ends there in front of other text, too. -/
theorem Literal.exists_back {b target : UInt8} {body front behind rest : Bytes}
    (ha : after? (b :: body ++ behind) = some behind)
    (hs : body ++ behind = front ++ target :: rest)
    (hle : body.length ≤ front.length) :
    ∃ back, front = body ++ back ∧ ∀ others,
      after? (b :: body ++ (back ++ target :: others)) = some (back ++ target :: others) := by
  obtain ⟨back, rfl⟩ : body <+: front :=
    List.prefix_of_prefix_length_le ⟨behind, hs⟩ (List.prefix_append front _) hle
  rw [List.append_assoc, List.append_cancel_left_eq] at hs
  subst hs
  refine ⟨back, rfl, fun others => after?_congr ha ?_⟩
  cases back <;> rfl

namespace Bracket

variable {target : UInt8}

theorem le_positionOf? {depth offset i : Nat} {found : List Piece}
    (h : positionOf? target depth offset found = some i) : offset ≤ i := by
  obtain ⟨k, rfl, -⟩ := positionOf?_getElem? h
  exact Nat.le_add_right _ _

/-- Where a byte is found does not depend on what is behind it. -/
theorem positionOf?_congr (hq : Literal.isQuote target = false) {front rest : Bytes}
    {depth offset : Nat}
    (h : positionOf? target depth offset (pieces (front ++ target :: rest)) =
      some (offset + front.length)) (others : Bytes) :
    positionOf? target depth offset (pieces (front ++ target :: others)) =
      some (offset + front.length) := by
  -- Not structural: a literal is one piece, and the search goes on behind it.
  induction hk : front.length using Nat.strong_induction_on generalizing front depth offset with
  | _ n ih =>
    subst hk
    cases front with
    | nil =>
      rw [List.nil_append, Piece.cut_false_byte hq, positionOf?] at h ⊢
      split at h
      · rename_i hb
        rw [if_pos hb]
        rfl
      · have := le_positionOf? h
        rw [List.length_nil] at this
        omega
    | cons b front =>
      rw [List.cons_append] at h ⊢
      by_cases hb : Literal.isQuote b = true
      · cases ha : Literal.after? (b :: (front ++ target :: rest)) with
        | none =>
          rw [Piece.cut_false_unclosed hb ha] at h
          cases h
        | some behind =>
          obtain ⟨body, hs⟩ := Literal.after?_suffix ha
          rw [← hs, ← List.cons_append] at ha h
          rw [Piece.cut_false_literal hb ha] at h
          have hle : offset + (Piece.literal (b :: body)).width ≤ _ := le_positionOf? h
          simp only [Piece.width, Piece.text, List.length_cons] at hle
          obtain ⟨back, rfl, hcongr⟩ := Literal.exists_back ha hs (by omega)
          rw [List.append_assoc, List.append_cancel_left_eq] at hs
          have hwidth : offset + (b :: (body ++ back)).length =
              offset + (Piece.literal (b :: body)).width + back.length := by
            simp only [Piece.width, Piece.text, List.length_cons, List.length_append]
            omega
          rw [List.append_assoc, ← List.cons_append,
            Piece.cut_false_literal hb (hcongr others), hwidth]
          rw [hs, hwidth] at h
          refine ih back.length ?_ h rfl
          simp only [List.length_cons, List.length_append]
          omega
      · have hb : Literal.isQuote b = false := by simpa using hb
        rw [Piece.cut_false_byte hb, positionOf?] at h ⊢
        split at h
        · have := Option.some.inj h
          rw [List.length_cons] at this
          omega
        · rename_i hn
          rw [if_neg hn]
          rw [List.length_cons, Nat.add_comm front.length, ← Nat.add_assoc] at h ⊢
          exact ih front.length (Nat.lt_succ_self _) h rfl

end Bracket

namespace Parameter

/-- A statement ends at the first line break outside brackets and literals, or with the text. -/
theorem statementLength_pieces (text : Bytes) :
    statementLength 0 (pieces text) = (outerPosition? lineFeed text).getD text.length := by
  have hall (depth offset : Nat) : offset + statementLength depth (Piece.cut false text) =
      (Bracket.positionOf? lineFeed depth offset (Piece.cut false text)).getD
        (offset + text.length) := by
    fun_induction Piece.cut false text generalizing depth offset with
    | case1 => rfl
    | case2 b rest hq after ha ih =>
      obtain ⟨body, rfl⟩ := Literal.after?_suffix ha
      have hbody : (body ++ after).take ((body ++ after).length - after.length) = body := by
        rw [List.length_append, Nat.add_sub_cancel, List.take_left]
      rw [hbody]
      have := ih depth (offset + (Piece.literal (b :: body)).width)
      rw [Nat.add_assoc] at this
      refine this.trans (congrArg _ ?_)
      simp only [Piece.width, Piece.text, List.length_cons, List.length_append]
      omega
    | case3 b rest hq ha => rfl
    | case4 b rest hq hc => cases hc
    | case5 b rest hq hc ih =>
      rw [statementLength, Bracket.positionOf?]
      split
      · rfl
      · rw [← Nat.add_assoc, ih, List.length_cons, Nat.add_comm rest.length, Nat.add_assoc]
  have := hall 0 0
  rwa [Nat.zero_add, Nat.zero_add] at this

end Parameter

theorem count_drop_lt {b : UInt8} {text : Bytes} {i : Nat} (h : text[i]? = some b) :
    (text.drop (i + 1)).count b < text.count b := by
  obtain ⟨hi, he⟩ := List.getElem?_eq_some_iff.1 h
  have hcount := @List.count_append _ _ b (text.take i) (text.drop i)
  rw [List.take_append_drop, List.drop_eq_getElem_cons hi, he, List.count_cons_self] at hcount
  omega

namespace Signature

theorem statements_nil (column : Nat) : statements column [] = [] := by
  rw [statements]
  exact dif_pos rfl

theorem statements_lineFeed (column : Nat) (rest : Bytes) :
    statements column (lineFeed :: rest) = statements column rest := by
  have hline : (lineFeed :: rest).takeWhile (· != lineFeed) = [] := rfl
  have hidle : isIdleLine [] = true := rfl
  rw [statements, dif_neg (List.cons_ne_nil _ _)]
  dsimp only
  rw [hline, hidle, Bool.true_or, if_pos rfl]
  rfl

/-- There are no more statements than lines. -/
theorem length_statements_le (column : Nat) (body : Bytes) :
    (statements column body).length ≤ body.count lineFeed + 1 := by
  fun_induction statements column body with
  | case1 => exact Nat.zero_le _
  | case2 body hn line hi ih =>
    exact Nat.le_trans ih (Nat.succ_le_succ ((List.drop_sublist _ _).count_le _))
  | case3 body hn line hi width ih =>
    rw [List.length_cons]
    have hwidth : width = (outerPosition? lineFeed body).getD body.length :=
      Parameter.statementLength_pieces body
    cases hp : outerPosition? lineFeed body with
    | none =>
      rw [hp, Option.getD_none] at hwidth
      rw [hwidth, List.drop_eq_nil_of_le (Nat.le_succ _), statements_nil]
      exact Nat.succ_le_succ (Nat.zero_le _)
    | some i =>
      rw [hp, Option.getD_some] at hwidth
      have := count_drop_lt (outerPosition?_getElem? hp)
      rw [hwidth] at ih ⊢
      omega

section

variable {column : Nat} {line : Bytes} (hn : lineFeed ∉ line) (hi : isIdleLine line = false)
  (hc : indentation line = column)

include hn hi hc

theorem statements_line {rest : Bytes} (hr : rest.head?.all (· == lineFeed) = true) :
    let width := (outerPosition? lineFeed (line ++ rest)).getD (line ++ rest).length
    statements column (line ++ rest) = (line ++ rest).take width ::
      statements column ((line ++ rest).drop (width + 1)) := by
  intro width
  have hne : line ++ rest ≠ [] := by
    intro he
    rw [(List.append_eq_nil_iff.1 he).1] at hi
    cases hi
  have hline : (line ++ rest).takeWhile (· != lineFeed) = line := takeWhile_ne_append hn hr
  rw [statements, dif_neg hne]
  dsimp only
  rw [hline, hi, hc, if_neg (by simp), Parameter.statementLength_pieces]

/-- A line that is a statement of its own. -/
theorem statements_closed {rest : Bytes}
    (hp : outerPosition? lineFeed (line ++ lineFeed :: rest) = some line.length) :
    statements column (line ++ lineFeed :: rest) = line :: statements column rest := by
  rw [statements_line hn hi hc rfl, hp, Option.getD_some, List.take_left,
    List.drop_length_add_append, List.drop_one, List.tail_cons]

/-- The last line is a statement of its own. -/
theorem statements_last (hp : outerPosition? lineFeed line = none) :
    statements column line = [line] := by
  have := @statements_line column line hn hi hc [] rfl
  dsimp only at this
  rwa [List.append_nil, hp, Option.getD_none, List.take_length,
    List.drop_eq_nil_of_le (Nat.le_succ _), statements_nil] at this

/-- Where the statement goes on behind its first line, there are fewer statements than lines. -/
theorem length_statements_open {rest : Bytes}
    (hp : outerPosition? lineFeed (line ++ lineFeed :: rest) ≠ some line.length) :
    (statements column (line ++ lineFeed :: rest)).length ≤ rest.count lineFeed + 1 := by
  cases hw : outerPosition? lineFeed (line ++ lineFeed :: rest) with
  | none =>
    rw [statements_line hn hi hc rfl, hw, Option.getD_none, List.drop_eq_nil_of_le (Nat.le_succ _),
      statements_nil]
    exact Nat.succ_le_succ (Nat.zero_le _)
  | some i =>
    have hbyte := outerPosition?_getElem? hw
    have hlt : line.length < i := by
      rcases Nat.lt_trichotomy i line.length with h | h | h
      · rw [List.getElem?_append_left h] at hbyte
        exact absurd (List.mem_of_getElem? hbyte) hn
      · exact absurd (h ▸ hw) hp
      · exact h
    obtain ⟨k, rfl⟩ := Nat.exists_eq_add_of_lt hlt
    rw [Nat.add_assoc, List.getElem?_append_right (Nat.le_add_right _ _), Nat.add_sub_cancel_left,
      List.getElem?_cons_succ] at hbyte
    have hdrop : (line ++ lineFeed :: rest).drop (line.length + k + 1 + 1) = rest.drop (k + 1) := by
      rw [Nat.add_assoc, Nat.add_assoc, List.drop_length_add_append]
      rfl
    rw [statements_line hn hi hc rfl, hw, Option.getD_some, hdrop, List.length_cons]
    have := length_statements_le column (rest.drop (k + 1))
    have := count_drop_lt hbyte
    omega

end

end Signature

end ManifestScan
