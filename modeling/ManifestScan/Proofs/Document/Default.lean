import ManifestScan.Proofs.Document.Rendering
import ManifestScan.Signature.Default

namespace ManifestScan

open Document

namespace Document

def isScalar : Document → Bool
  | .array _ | .object _ => false
  | _ => true

/-- The bytes of a number end no number. -/
theorem isDelimiter_of_figure :
    ∀ b : UInt8, isDigit b = true ∨ b ∈ [dot, 0x65, 0x45, 0x2B, 0x2D] → isDelimiter b = false := by
  decide +kernel

theorem read?_bare {word : Bytes} {value : Document} (hv : bareValue? word = some value)
    (hw : word.all (!isDelimiter ·) = true) : read? word = some value := by
  have hr := @run_bare word [] value hv hw rfl (.value [])
  rw [List.append_nil] at hr
  rw [read?, hr]
  simp [step, finish, run]

/-- Text that is escaped in full is a document by itself. -/
theorem read?_quote (text : Bytes) : read? (Escape.quote text) = some (.string text) := by
  have hr := run_key (.value []) text []
  rw [List.append_nil] at hr
  rw [read?, hr]
  simp [step, finish, run]

end Document

namespace Default

theorem figures?_of_isFigures {text : Bytes} (h : isFigures text = true) :
    figures? text = some (UpgradeStep.numberOf text) := by
  simp only [isFigures, Bool.and_eq_true, Bool.not_eq_true'] at h
  simp [figures?, h]

theorem all_digits {text : Bytes} (h : text.all isDigit = true) :
    text.all (!isDelimiter ·) = true := by
  rw [List.all_eq_true] at h ⊢
  intro b hb
  rw [isDelimiter_of_figure b (.inl (h b hb))]
  rfl

theorem all_isFigures {text : Bytes} (h : isFigures text = true) :
    text.all (!isDelimiter ·) = true := by
  rw [isFigures, Bool.and_eq_true] at h
  exact all_digits h.2

/-- An exponent has a value, and no byte that ends a number. -/
theorem exponentPart_reads {text : Bytes} (h : isExponentPart text = true) :
    (∃ power, exponent? text = some power) ∧ text.all (!isDelimiter ·) = true := by
  cases text with
  | nil => exact ⟨⟨0, rfl⟩, rfl⟩
  | cons e rest =>
    simp only [isExponentPart, Bool.and_eq_true, Bool.or_eq_true, beq_iff_eq] at h
    obtain ⟨he, hf⟩ := h
    have hd : (!isDelimiter e) = true := by
      rw [isDelimiter_of_figure e (.inr (by rcases he with rfl | rfl <;> decide))]
      rfl
    have hn : ¬(e ≠ 0x65 ∧ e ≠ 0x45) := by tauto
    unfold exponent?
    dsimp only
    rw [if_neg hn]
    cases rest with
    | nil => cases hf
    | cons s digits =>
      dsimp only at hf
      by_cases hs : s = 0x2B ∨ s = 0x2D
      · rw [if_pos hs] at hf
        have hsd : (!isDelimiter s) = true := by
          rw [isDelimiter_of_figure s (.inr (by rcases hs with rfl | rfl <;> decide))]
          rfl
        refine ⟨?_, by simp only [List.all_cons, hd, hsd, all_isFigures hf]; rfl⟩
        rcases hs with rfl | rfl <;> simp [figures?_of_isFigures hf]
      · rw [if_neg hs] at hf
        rw [not_or] at hs
        refine ⟨?_, by rw [List.all_cons, hd, all_isFigures hf]; rfl⟩
        split
        · simp_all
        · simp_all
        · simp [figures?_of_isFigures hf]

theorem fractionPart_reads {text : Bytes} (h : isFractionPart text = true) :
    (∃ fraction rest power, fraction? text = some (fraction, rest) ∧ exponent? rest = some power) ∧
      text.all (!isDelimiter ·) = true := by
  cases text with
  | nil => exact ⟨⟨[], [], 0, rfl, rfl⟩, rfl⟩
  | cons b rest =>
    unfold isFractionPart at h
    dsimp only at h
    unfold fraction?
    dsimp only
    split at h
    · rename_i hb
      rw [Bool.and_eq_true, Bool.not_eq_true'] at h
      obtain ⟨⟨power, hp⟩, ha⟩ := exponentPart_reads h.2
      have hdigits : (rest.takeWhile isDigit).all isDigit = true := List.all_takeWhile
      refine ⟨⟨rest.takeWhile isDigit, _, power, ?_, hp⟩, ?_⟩
      · rw [if_neg (by simpa using hb), h.1]
        rfl
      · rw [List.all_cons, hb, ← @List.takeWhile_append_dropWhile _ isDigit rest, List.all_append,
          all_digits hdigits, ha]
        decide
    · rename_i hb
      obtain ⟨⟨power, hp⟩, ha⟩ := exponentPart_reads h
      exact ⟨⟨[], b :: rest, power, if_pos hb, hp⟩, ha⟩

/-- The number at the start of the whole, unsigned text. -/
theorem unsigned_reads {text : Bytes}
    (hw : (text.takeWhile isDigit).isEmpty = false)
    (hz : (decide (1 < (text.takeWhile isDigit).length) &&
      (text.takeWhile isDigit).head? == some 0x30) = false)
    (hf : isFractionPart (text.dropWhile isDigit) = true) :
    (unsigned? text).isSome = true ∧ text.all (!isDelimiter ·) = true := by
  obtain ⟨⟨fraction, rest, power, hr, hp⟩, ha⟩ := fractionPart_reads hf
  have hdigits : (text.takeWhile isDigit).all isDigit = true := List.all_takeWhile
  constructor
  · unfold unsigned?
    dsimp only
    rw [hw, Bool.and_comm, hz, hr]
    simp [hp]
  · rw [← @List.takeWhile_append_dropWhile _ isDigit text, List.all_append, all_digits hdigits, ha]
    rfl

/-- A number of a document is read as one. -/
theorem number_reads {text : Bytes} (h : isNumber text = true) :
    (number? text).isSome = true ∧ text.all (!isDelimiter ·) = true := by
  simp only [isNumber, Bool.and_eq_true, Bool.not_eq_true'] at h
  obtain ⟨⟨hw, hz⟩, hf⟩ := h
  cases text with
  | nil => cases hw
  | cons b rest =>
    by_cases hb : b = 0x2D
    · subst hb
      rw [if_pos List.head?_cons, List.tail_cons] at hw hz hf
      obtain ⟨hn, ha⟩ := unsigned_reads hw hz hf
      exact ⟨by simpa [number?] using hn, by rw [List.all_cons, ha]; decide⟩
    · rw [if_neg (by simpa using hb)] at hw hz hf
      obtain ⟨hn, ha⟩ := unsigned_reads hw hz hf
      refine ⟨?_, ha⟩
      unfold number?
      split
      · rename_i he
        cases he
        exact absurd rfl hb
      · exact hn

/-- Every default is a document: a word, a number or a string. -/
theorem read?_serialize (expression : Bytes) :
    ∃ document, read? (serialize expression) = some document ∧ document.isScalar = true := by
  unfold serialize
  dsimp only
  split
  · exact ⟨.null, read?_bare rfl rfl, rfl⟩
  split
  · exact ⟨.boolean true, read?_bare (by rfl) rfl, rfl⟩
  split
  · exact ⟨.boolean false, read?_bare (by rfl) rfl, rfl⟩
  split
  · exact ⟨_, read?_quote _, rfl⟩
  split
  · rename_i hn
    obtain ⟨hr, ha⟩ := number_reads hn
    obtain ⟨value, hv⟩ := Option.isSome_iff_exists.1 hr
    exact ⟨.number value, read?_bare (bareValue?_number hv) ha, rfl⟩
  · exact ⟨_, read?_quote _, rfl⟩

end Default

end ManifestScan
