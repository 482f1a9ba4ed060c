import ManifestScan.Proofs.Lexing.Context
import ManifestScan.Proofs.Text.Parenthesis

namespace ManifestScan

namespace Piece

def isPlain : Piece → Bool
  | .byte _ | .literal _ => true
  | .unclosed _ | .comment _ => false

theorem cut_false_byte {b : UInt8} (hq : Literal.isQuote b = false) (rest : Bytes) :
    pieces (b :: rest) = .byte b :: pieces rest := by
  unfold pieces
  rw [cut, if_neg (by simp [hq]), if_neg (by simp)]

theorem cut_false_unclosed {b : UInt8} {rest : Bytes} (hq : Literal.isQuote b = true)
    (ha : Literal.after? (b :: rest) = none) : pieces (b :: rest) = [.unclosed (b :: rest)] := by
  unfold pieces
  rw [cut, if_pos hq]
  split
  · rename_i he
    rw [ha] at he
    cases he
  · rfl

theorem cut_false_literal {body rest : Bytes} {quote : UInt8} (hq : Literal.isQuote quote = true)
    (ha : Literal.after? (quote :: body ++ rest) = some rest) :
    pieces (quote :: body ++ rest) = .literal (quote :: body) :: pieces rest := by
  unfold pieces
  rw [List.cons_append] at ha ⊢
  rw [cut, if_pos hq]
  split
  · rename_i after he
    rw [ha] at he
    cases he
    simp
  · rename_i he
    rw [ha] at he
    cases he

/-- Both ways of cutting take the same first piece, unless that is a comment. -/
theorem pieces_first {b : UInt8} {text : Bytes} {piece : Piece} {others : List Piece}
    (h : codePieces (b :: text) = piece :: others) (hp : piece.isPlain = true) :
    ∃ behind, b :: text = piece.text ++ behind ∧ others = codePieces behind ∧
      pieces (b :: text) = piece :: pieces behind := by
  by_cases hq : Literal.isQuote b = true
  · cases ha : Literal.after? (b :: text) with
    | none =>
      rw [cut_unclosed hq ha] at h
      cases h
      cases hp
    | some behind =>
      obtain ⟨body, rfl⟩ := Literal.after?_suffix ha
      rw [← List.cons_append] at ha h ⊢
      rw [cut_literal hq ha] at h
      cases h
      exact ⟨behind, rfl, rfl, cut_false_literal hq ha⟩
  by_cases hh : (b == hash) = true
  · unfold codePieces at h
    rw [cut, if_neg hq, if_pos (by simpa using hh)] at h
    cases h
    cases hp
  · rw [cut_byte (by simpa using hq) (by simpa using hh)] at h
    cases h
    exact ⟨text, rfl, rfl, cut_false_byte (by simpa using hq) text⟩

/-- Without comments both ways of cutting take the same pieces. -/
theorem pieces_append {text rest : Bytes} {found : List Piece}
    (h : codePieces (text ++ rest) = found ++ codePieces rest)
    (ht : found.flatMap Piece.text = text) (hp : ∀ piece ∈ found, piece.isPlain = true) :
    pieces (text ++ rest) = found ++ pieces rest := by
  induction found generalizing text with
  | nil =>
    subst ht
    rfl
  | cons piece found ih =>
    subst ht
    obtain ⟨hpiece, hfound⟩ := List.forall_mem_cons.1 hp
    have hm : piece ∈ codePieces ((piece :: found).flatMap Piece.text ++ rest) := by
      rw [h]
      exact List.mem_cons_self
    obtain ⟨b, tail, hb⟩ := List.exists_cons_of_ne_nil (text_ne_nil _ piece hm)
    rw [List.flatMap_cons, List.append_assoc, hb, List.cons_append, List.cons_append] at h
    obtain ⟨behind, he, hothers, hfirst⟩ := pieces_first h hpiece
    rw [← List.cons_append, ← hb, List.append_cancel_left_eq] at he
    subst he
    rw [List.flatMap_cons, List.append_assoc, hb, List.cons_append, hfirst,
      ih hothers.symm rfl hfound, List.cons_append]

end Piece

namespace Bracket

variable {target : UInt8} {depth next : Nat} {found : List Piece} {turns : List Turn}

theorem positionOf?_add (target : UInt8) (depth offset more : Nat) (found : List Piece) :
    positionOf? target depth (offset + more) found =
      (positionOf? target depth offset found).map (· + more) := by
  fun_induction positionOf? target depth offset found with
  | case1 => rfl
  | case2 => rfl
  | case3 depth offset b rest h =>
    rw [positionOf?, if_pos h]
    rfl
  | case4 depth offset b rest h ih =>
    rw [positionOf?, if_neg h, ← ih, Nat.add_right_comm]
  | case5 depth offset piece rest hu hb ih =>
    rw [← ih, Nat.add_right_comm]
    cases piece with
    | unclosed text => exact absurd rfl (hu text)
    | byte b => exact absurd rfl (hb b)
    | literal text => rfl
    | comment text => rfl

theorem depthAfter_of_turn {b : UInt8} {rest : List Piece}
    (h : Turn.through depth ((Piece.byte b :: rest).filterMap Piece.turn?) = some next) :
    Turn.through (depthAfter b depth) (rest.filterMap Piece.turn?) = some next := by
  unfold depthAfter
  by_cases ho : isOpening b = true
  · have hp : (Piece.byte b).turn? = some .opening := by simp [Piece.turn?, ho]
    rw [List.filterMap_cons_some hp] at h
    rwa [if_pos ho]
  · rw [if_neg ho]
    by_cases hc : isClosing b = true
    · have hp : (Piece.byte b).turn? = some .closing := by simp [Piece.turn?, ho, hc]
      rw [List.filterMap_cons_some hp] at h
      cases depth with
      | zero => cases h
      | succ depth => rwa [if_pos hc]
    · have hp : (Piece.byte b).turn? = none := by simp [Piece.turn?, ho, hc]
      rw [List.filterMap_cons_none hp] at h
      rwa [if_neg hc]

/-- A search goes on behind pieces without the target. -/
theorem positionOf?_through {rest : List Piece} (hp : ∀ piece ∈ found, piece.isPlain = true)
    (ht : Turn.through depth (found.filterMap Piece.turn?) = some next) {offset : Nat}
    (hn : positionOf? target depth offset found = none) :
    positionOf? target depth offset (found ++ rest) =
      positionOf? target next (offset + (found.flatMap Piece.text).length) rest := by
  induction found generalizing depth offset with
  | nil =>
    cases ht
    rfl
  | cons piece found ih =>
    obtain ⟨hpiece, hfound⟩ := List.forall_mem_cons.1 hp
    rw [List.cons_append, List.flatMap_cons, List.length_append, ← Nat.add_assoc]
    cases piece with
    | unclosed text => cases hpiece
    | comment text => cases hpiece
    | literal text => exact ih hfound ht hn
    | byte b =>
      rw [positionOf?] at hn ⊢
      split at hn
      · cases hn
      · rename_i hb
        rw [if_neg hb]
        exact ih hfound (depthAfter_of_turn ht) hn

/-- What is not found among pieces is not found among the first of them. -/
theorem positionOf?_front {rest : List Piece} (hp : ∀ piece ∈ found, piece.isPlain = true)
    {offset : Nat} (hn : positionOf? target depth offset (found ++ rest) = none) :
    positionOf? target depth offset found = none := by
  induction found generalizing depth offset with
  | nil => rfl
  | cons piece found ih =>
    obtain ⟨hpiece, hfound⟩ := List.forall_mem_cons.1 hp
    cases piece with
    | unclosed text => cases hpiece
    | comment text => cases hpiece
    | literal text => exact ih hfound hn
    | byte b =>
      rw [List.cons_append, positionOf?] at hn
      rw [positionOf?]
      split at hn
      · cases hn
      · rename_i hb
        rw [if_neg hb]
        exact ih hfound hn

theorem fieldsOf_ne_nil (separator : UInt8) (depth : Nat) (found : List Piece) :
    fieldsOf separator depth found ≠ [] := by
  have hp (text : Bytes) (fields : List Bytes) : prepend text fields ≠ [] := by
    cases fields <;> exact List.cons_ne_nil _ _
  cases found with
  | nil => exact List.cons_ne_nil _ _
  | cons piece found =>
    cases piece with
    | byte b =>
      rw [fieldsOf]
      split
      · exact List.cons_ne_nil _ _
      · exact hp _ _
    | _ => exact hp _ _

theorem prepend_append (text more : Bytes) {fields : List Bytes} (hf : fields ≠ []) :
    prepend (text ++ more) fields = prepend text (prepend more fields) := by
  cases fields with
  | nil => exact absurd rfl hf
  | cons field others => simp [prepend]

/-- The first field grows by pieces without the separator. -/
theorem fieldsOf_through {rest : List Piece} (hp : ∀ piece ∈ found, piece.isPlain = true)
    (ht : Turn.through depth (found.filterMap Piece.turn?) = some next) {offset : Nat}
    (hn : positionOf? target depth offset found = none) :
    fieldsOf target depth (found ++ rest) =
      prepend (found.flatMap Piece.text) (fieldsOf target next rest) := by
  induction found generalizing depth offset with
  | nil =>
    cases ht
    cases h : fieldsOf target next rest with
    | nil => exact absurd h (fieldsOf_ne_nil target next rest)
    | cons field others => exact h
  | cons piece found ih =>
    obtain ⟨hpiece, hfound⟩ := List.forall_mem_cons.1 hp
    rw [List.cons_append, List.flatMap_cons, prepend_append _ _ (fieldsOf_ne_nil _ _ _)]
    cases piece with
    | unclosed text => cases hpiece
    | comment text => cases hpiece
    | literal text => exact congrArg _ (ih hfound ht hn)
    | byte b =>
      rw [positionOf?] at hn
      split at hn
      · cases hn
      · rename_i hb
        rw [fieldsOf, if_neg fun hs => hb ⟨hs.1, hs.2.1⟩]
        exact congrArg _ (ih hfound (depthAfter_of_turn ht) hn)

end Bracket

namespace Lexeme.Inert

variable {text : Bytes} {target : UInt8}

theorem isPlain_bytes (text : Bytes) : ∀ piece ∈ text.map Piece.byte, piece.isPlain = true := by
  intro piece hm
  obtain ⟨b, -, rfl⟩ := List.mem_map.1 hm
  rfl

theorem codePieces_eq (h : Inert text) : codePieces text = text.map .byte := by
  have := codePieces_inert h []
  rwa [List.append_nil, Piece.codePieces_nil, List.append_nil] at this

theorem pieces_append (h : Inert text) (rest : Bytes) :
    pieces (text ++ rest) = text.map .byte ++ pieces rest := by
  exact Piece.pieces_append (codePieces_inert h rest) (Piece.Cover.bytes text).text_eq
    (isPlain_bytes text)

theorem positionOf?_eq_none (h : Inert text) (hn : target ∉ text) (offset : Nat) :
    Bracket.positionOf? target 0 offset (text.map .byte) = none := by
  induction text generalizing offset with
  | nil => rfl
  | cons b text ih =>
    rw [List.mem_cons, not_or] at hn
    have hb := h b List.mem_cons_self
    simp only [isInert, Bool.and_eq_true, Bool.not_eq_true'] at hb
    have hd : depthAfter b 0 = 0 := by
      unfold depthAfter
      simp [hb]
    rw [List.map_cons, Bracket.positionOf?, if_neg fun he => hn.1 he.1.symm, hd]
    exact ih (fun c hc => h c (List.mem_cons_of_mem _ hc)) hn.2 _

theorem balanced (h : Inert text) :
    Turn.through 0 ((text.map Piece.byte).filterMap Piece.turn?) = some 0 := by
  rw [turns_inert h]
  rfl

/-- A search passes bytes that are neither brackets nor the target. -/
theorem outerPosition?_append (h : Inert text) (hn : target ∉ text) (rest : Bytes) :
    outerPosition? target (text ++ rest) = (outerPosition? target rest).map (· + text.length) := by
  unfold outerPosition?
  rw [h.pieces_append, Bracket.positionOf?_through (isPlain_bytes text) h.balanced
    (h.positionOf?_eq_none hn 0), (Piece.Cover.bytes text).text_eq, Bracket.positionOf?_add]

theorem outerFields_append (h : Inert text) (hn : target ∉ text) (rest : Bytes) :
    outerFields target (text ++ rest) = Bracket.prepend text (outerFields target rest) := by
  unfold outerFields
  rw [h.pieces_append, Bracket.fieldsOf_through (isPlain_bytes text) h.balanced
    (h.positionOf?_eq_none hn 0), (Piece.Cover.bytes text).text_eq]

theorem outerPosition?_eq_none (h : Inert text) (hn : target ∉ text) :
    outerPosition? target text = none := by
  have := h.outerPosition?_append hn []
  have hnil : outerPosition? target [] = none := by
    unfold outerPosition? pieces
    rw [Piece.cut]
    rfl
  rwa [List.append_nil, hnil] at this

end Lexeme.Inert

/-- A text without comments whose literals and brackets end in it, also in front of other text. -/
structure IsPart (text : Bytes) : Prop where
  append : ∀ rest, IsBoundary rest → codePieces (text ++ rest) = codePieces text ++ codePieces rest
  isPlain : ∀ piece ∈ codePieces text, piece.isPlain = true
  balanced : Turn.through 0 ((codePieces text).filterMap Piece.turn?) = some 0

namespace IsPart

variable {text other rest : Bytes} {target : UInt8}

theorem of_inert (h : Lexeme.Inert text) : IsPart text := by
  have hc := h.codePieces_eq
  refine ⟨fun rest _ => ?_, ?_, ?_⟩
  · rw [hc, Lexeme.codePieces_inert h]
  · rw [hc]
    exact Lexeme.Inert.isPlain_bytes text
  · rw [hc]
    exact h.balanced

theorem nil : IsPart [] := of_inert (List.forall_mem_nil _)

theorem append_part (h : IsPart text) (ho : IsPart other) (hb : IsBoundary other) :
    IsPart (text ++ other) := by
  have hc := h.append other hb
  refine ⟨fun rest hr => ?_, ?_, ?_⟩
  · have hboundary : IsBoundary (other ++ rest) := by
      cases other with
      | nil => exact hr
      | cons b other => exact hb
    rw [List.append_assoc, h.append _ hboundary, ho.append _ hr, hc, List.append_assoc]
  · rw [hc, List.forall_mem_append]
    exact ⟨h.isPlain, ho.isPlain⟩
  · rw [hc, List.filterMap_append, Turn.through_append, h.balanced]
    exact ho.balanced

theorem inert_append (h : Lexeme.Inert text) (ho : IsPart other) : IsPart (text ++ other) := by
  have hc := Lexeme.codePieces_inert h other
  refine ⟨fun rest hr => ?_, ?_, ?_⟩
  · rw [List.append_assoc, Lexeme.codePieces_inert h, ho.append _ hr, hc, List.append_assoc]
  · rw [hc, List.forall_mem_append]
    exact ⟨Lexeme.Inert.isPlain_bytes text, ho.isPlain⟩
  · rw [hc, List.filterMap_append, Lexeme.turns_inert h]
    exact ho.balanced

theorem pieces_append (h : IsPart text) (hr : IsBoundary rest) :
    pieces (text ++ rest) = codePieces text ++ pieces rest :=
  Piece.pieces_append (h.append rest hr) (Piece.flatMap_text_codePieces text) h.isPlain

theorem pieces_eq (h : IsPart text) : pieces text = codePieces text := by
  have := h.pieces_append .nil
  rwa [List.append_nil, pieces_nil, List.append_nil] at this

theorem dropComments_eq (h : IsPart text) : dropComments text = text := by
  refine Eq.trans (List.flatMap_congr fun piece hm => ?_) (Piece.flatMap_text_codePieces text)
  have hp := h.isPlain piece hm
  cases piece with
  | comment text => cases hp
  | _ => rfl

/-- A search goes on behind a part without the target. -/
theorem outerPosition?_append (h : IsPart text) (hr : IsBoundary rest)
    (hn : outerPosition? target text = none) :
    outerPosition? target (text ++ rest) = (outerPosition? target rest).map (· + text.length) := by
  unfold outerPosition? at hn ⊢
  rw [h.pieces_eq] at hn
  rw [h.pieces_append hr, Bracket.positionOf?_through h.isPlain h.balanced hn,
    Piece.flatMap_text_codePieces, Bracket.positionOf?_add]

theorem outerFields_append (h : IsPart text) (hr : IsBoundary rest)
    (hn : outerPosition? target text = none) :
    outerFields target (text ++ rest) = Bracket.prepend text (outerFields target rest) := by
  unfold outerPosition? at hn
  unfold outerFields
  rw [h.pieces_eq] at hn
  rw [h.pieces_append hr, Bracket.fieldsOf_through h.isPlain h.balanced hn,
    Piece.flatMap_text_codePieces]

theorem outerFields_eq (h : IsPart text) (hn : outerPosition? target text = none) :
    outerFields target text = [text] := by
  have := h.outerFields_append .nil hn
  have hnil : outerFields target [] = [[]] := by
    unfold outerFields pieces
    rw [Piece.cut]
    rfl
  rw [List.append_nil, hnil] at this
  rw [this]
  exact congrArg (· :: []) (List.append_nil text)

end IsPart

theorem outerFields_self {separator : UInt8} (hq : Literal.isQuote separator = false)
    (ho : isOpening separator = false) (rest : Bytes) :
    outerFields separator (separator :: rest) = [] :: outerFields separator rest := by
  unfold outerFields
  rw [Piece.cut_false_byte hq]
  exact if_pos ⟨rfl, rfl, by simp [ho]⟩

end ManifestScan
