import ManifestScan.Proofs.Upgrade.Argument

namespace ManifestScan

open ArgumentList

/-- Without quotes and comments a text is its bytes. -/
theorem codePieces_bytes {text : Bytes} (h : ∀ b ∈ text, Literal.isQuote b = false ∧ b ≠ hash) :
    codePieces text = text.map .byte ∧ pieces text = text.map .byte := by
  induction text with
  | nil => exact ⟨Piece.codePieces_nil, pieces_nil⟩
  | cons b text ih =>
    obtain ⟨⟨hq, hh⟩, htext⟩ := List.forall_mem_cons.1 h
    obtain ⟨hcode, hplain⟩ := ih htext
    rw [Piece.cut_byte hq (by simpa using hh), Piece.cut_false_byte hq, hcode, hplain]
    exact ⟨rfl, rfl⟩

theorem dropComments_bytes {text : Bytes} (h : codePieces text = text.map .byte) :
    dropComments text = text := by
  unfold dropComments
  rw [h, List.flatMap_map]
  exact List.flatMap_singleton' text

/-- Without a separator a text is one field, whatever its brackets. -/
theorem fieldsOf_bytes {separator : UInt8} {text : Bytes} (h : separator ∉ text) (depth : Nat) :
    Bracket.fieldsOf separator depth (text.map .byte) = [text] := by
  induction text generalizing depth with
  | nil => rfl
  | cons b text ih =>
    rw [List.mem_cons, not_or] at h
    rw [List.map_cons, Bracket.fieldsOf, if_neg fun he => h.1 he.1.symm, ih h.2]
    rfl

namespace UpgradeStep

variable {text : Bytes} {n : Int}

/-- The number that a text stands for: digits behind at most one minus sign, in the range of a
signed word of 64 bits. -/
def Denotes (text : Bytes) (n : Int) : Prop :=
  ∃ digits, digits ≠ [] ∧ (∀ b ∈ digits, isDigit b = true) ∧
    (text = digits ∧ n = digitsValue digits ∨ text = 0x2D :: digits ∧ n = -digitsValue digits) ∧
    -2 ^ 63 ≤ n ∧ n ≤ 2 ^ 63 - 1

theorem priorityOf?_digits {digits : Bytes} (hn : digits ≠ [])
    (hd : ∀ b ∈ digits, isDigit b = true) :
    priorityOf? digits =
        (if (digitsValue digits : Int) < wordBound then some (digitsValue digits : Int) else none) ∧
      priorityOf? (0x2D :: digits) =
        (if (digitsValue digits : Int) ≤ wordBound then
          some (-digitsValue digits : Int) else none) := by
  have hall : ¬(digits.isEmpty = true ∨ (!digits.all isDigit) = true) := by
    simp only [List.isEmpty_iff, hn, List.all_eq_true.2 hd, Bool.not_true, or_self, not_false_iff,
      Bool.false_eq_true]
  have hminus : (digits.head? == some 0x2D) = false := by
    obtain ⟨b, more, rfl⟩ := List.exists_cons_of_ne_nil hn
    have hdigit : ∀ b, isDigit b = true → b ≠ 0x2D := by decide +kernel
    simpa using hdigit b (hd b List.mem_cons_self)
  rw [← numberOf_eq hd]
  constructor
  · unfold priorityOf?
    dsimp only
    rw [hminus, if_neg Bool.false_ne_true, if_neg hall, if_neg Bool.false_ne_true]
  · unfold priorityOf?
    rw [show ((0x2D :: digits).head? == some 0x2D) = true from rfl]
    dsimp only
    rw [if_pos rfl, List.tail_cons, if_neg hall, if_pos rfl]

theorem priorityOf?_eq_some (h : Denotes text n) : priorityOf? text = some n := by
  obtain ⟨digits, hn, hd, ht, hlow, hhigh⟩ := h
  obtain ⟨hplain, hminus⟩ := priorityOf?_digits hn hd
  have hbound : wordBound = 2 ^ 63 := by decide
  rcases ht with ⟨rfl, rfl⟩ | ⟨rfl, rfl⟩
  · rw [hplain, if_pos (by omega)]
  · rw [hminus, if_pos (by omega)]

theorem digits_of_priorityOf? (h : priorityOf? text = some n) {digits : Bytes}
    (hd : digits = if text.head? == some 0x2D then text.tail else text) :
    digits ≠ [] ∧ ∀ b ∈ digits, isDigit b = true := by
  unfold priorityOf? at h
  dsimp only at h
  rw [← hd] at h
  split at h
  · cases h
  · rename_i hall
    rw [not_or] at hall
    exact ⟨by simpa using hall.1, List.all_eq_true.1 (by simpa using hall.2)⟩

theorem denotes_of_priorityOf? (h : priorityOf? text = some n) : Denotes text n := by
  have hbound : wordBound = 2 ^ 63 := by decide
  by_cases hm : text.head? = some 0x2D
  · obtain ⟨digits, rfl⟩ := Lexeme.eq_cons_of_head? hm
    obtain ⟨hn, hd⟩ := digits_of_priorityOf? h rfl
    rw [List.head?_cons, if_pos (by simp), List.tail_cons] at hn hd
    rw [(priorityOf?_digits hn hd).2] at h
    split at h
    · cases h
      exact ⟨digits, hn, hd, .inr ⟨rfl, rfl⟩, by omega, by omega⟩
    · cases h
  · obtain ⟨hn, hd⟩ := digits_of_priorityOf? h rfl
    rw [if_neg (by simpa using hm)] at hn hd
    rw [(priorityOf?_digits hn hd).1] at h
    split at h
    · cases h
      exact ⟨text, hn, hd, .inl ⟨rfl, rfl⟩, by omega, by omega⟩
    · cases h

theorem Draft.set_priority_some {draft : Draft} (h : priorityOf? text = some n) :
    draft.set (ascii "priority") text =
      { draft with step := { draft.step with priority := n } } := by
  rw [Draft.set, if_neg (by decide), if_neg (by decide), if_pos rfl, h]

theorem Draft.set_priority_none {draft : Draft} (h : priorityOf? text = none) :
    draft.set (ascii "priority") text =
      { draft with
        warnings :=
          draft.warnings ++ [.invalidPriority text draft.step.name draft.step.priority] } := by
  rw [Draft.set, if_neg (by decide), if_neg (by decide), if_pos rfl, h]

/-- A priority alone is read by its value, whatever the value is. -/
theorem ofArguments_priority (function : Bytes) (ht : trim text = text)
    (hb : ∀ b ∈ text, b ∉ [doubleQuote, singleQuote, comma, hash, equals]) :
    ofArguments function (ascii "priority=" ++ text) =
      Draft.set ⟨plain function, []⟩ (ascii "priority") text := by
  have hk : isIdentifier (ascii "priority") = true := by decide
  have he : ascii "priority=" ++ text = ascii "priority" ++ equals :: text := rfl
  have hmem : ∀ b ∈ ascii "priority=" ++ text,
      Literal.isQuote b = false ∧ b ≠ hash ∧ b ≠ comma := by
    refine List.forall_mem_append.2 ⟨by decide +kernel, fun b hm => ?_⟩
    have hn := hb b hm
    simp only [List.mem_cons, List.not_mem_nil, or_false, not_or] at hn
    exact ⟨by simp [Literal.isQuote, hn], hn.2.2.2.1, hn.2.2.1⟩
  obtain ⟨hcode, hplain⟩ := codePieces_bytes fun b hm => ⟨(hmem b hm).1, (hmem b hm).2.1⟩
  have hhead : text.head? ≠ some equals := by
    intro hh
    exact hb equals (List.mem_of_mem_head? hh) (by simp)
  unfold ofArguments outerFields
  rw [dropComments_bytes hcode, hplain, fieldsOf_bytes fun hm => (hmem comma hm).2.2 rfl,
    List.map_singleton, List.foldl_cons, List.foldl_nil, he, trim_written hk ht,
    Draft.add_written hk ht hhead]

end UpgradeStep

end ManifestScan
