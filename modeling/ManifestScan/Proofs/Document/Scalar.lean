import ManifestScan.Proofs.Document.Locality
import ManifestScan.Proofs.Document.Tree
import ManifestScan.Proofs.Text.Decimal
import Mathlib.Data.List.TakeWhile

namespace ManifestScan

/-- Only zero is written with a zero in front. -/
theorem head?_decimal {n : Nat} (hn : n ≠ 0) : (decimal n).head? ≠ some 0x30 := by
  fun_induction decimal n with
  | case1 n hlt =>
    have h : ∀ n < 10, n ≠ 0 → 0x30 + n.toUInt8 ≠ 0x30 := by decide
    simpa using h n hlt hn
  | case2 n hge ih =>
    rw [List.head?_append_of_ne_nil _ (decimal_ne_nil _)]
    exact ih (by omega)

namespace Document

theorem isDelimiter_of_isDigit (b : UInt8) (hb : isDigit b = true) : isDelimiter b = false := by
  grind [isDelimiter, isGap, Mark.ofByte?, isDigit]

theorem takeWhile_decimal (n : Nat) : (decimal n).takeWhile isDigit = decimal n := by
  rw [List.takeWhile_eq_self_iff]
  exact List.all_eq_true.1 (all_isDigit_decimal n)

theorem dropWhile_decimal (n : Nat) : (decimal n).dropWhile isDigit = [] := by
  rw [List.dropWhile_eq_nil_iff]
  exact List.all_eq_true.1 (all_isDigit_decimal n)

theorem unsigned?_decimal (n : Nat) : unsigned? (decimal n) = some (n : Rat) := by
  have hz : ((decimal n).head? == some 0x30 && decide (1 < (decimal n).length)) = false := by
    by_cases hn : n = 0
    · rw [hn, decimal]
      rfl
    · simp [head?_decimal hn]
  unfold unsigned?
  rw [takeWhile_decimal, dropWhile_decimal]
  dsimp only
  rw [hz, List.isEmpty_eq_false_iff.2 (decimal_ne_nil n)]
  simp [fraction?, exponent?, numberOf_decimal]

theorem number?_signedDecimal (n : Int) : number? (signedDecimal n) = some (n : Rat) := by
  unfold signedDecimal
  split
  · rename_i hn
    simp only [number?, unsigned?_decimal, Option.map_some]
    congr 1
    have h : n = -(n.natAbs : Int) := by omega
    rw [h, Rat.intCast_neg, Rat.intCast_natCast, Int.natAbs_neg, Int.natAbs_natCast]
  · rename_i hn
    -- The digits start with no minus, so the second branch reads them.
    have hm : ∀ b ∈ decimal n.natAbs, b ≠ 0x2D := by
      rintro b hb rfl
      have := List.all_eq_true.1 (all_isDigit_decimal n.natAbs) _ hb
      cases this
    have h : (n : Rat) = (n.natAbs : Rat) := by
      have h : n = (n.natAbs : Int) := by omega
      rw [h, Rat.intCast_natCast, Int.natAbs_natCast]
    rw [h, ← unsigned?_decimal]
    cases hd : decimal n.natAbs with
    | nil => rfl
    | cons b rest =>
      rw [hd] at hm
      unfold number?
      split
      · rename_i he
        cases he
        exact absurd rfl (hm _ (by simp))
      · rfl

/-- A number is not taken for a word. -/
theorem bareValue?_number {text : Bytes} {value : Rat} (h : number? text = some value) :
    bareValue? text = some (.number value) := by
  have hw : ∀ word : Bytes, number? word = none → text ≠ word := by
    rintro word hw rfl
    rw [hw] at h
    cases h
  unfold bareValue?
  rw [if_neg (hw _ (by decide)), if_neg (hw _ (by decide)), if_neg (hw _ (by decide)), h]
  rfl

theorem bareValue?_signedDecimal (n : Int) : bareValue? (signedDecimal n) = some (.number n) :=
  bareValue?_number (number?_signedDecimal n)

theorem all_signedDecimal (n : Int) : (signedDecimal n).all (!isDelimiter ·) = true := by
  have h : (decimal n.natAbs).all (!isDelimiter ·) = true := by
    rw [List.all_eq_true]
    intro b hb
    simp [isDelimiter_of_isDigit b (List.all_eq_true.1 (all_isDigit_decimal _) b hb)]
  unfold signedDecimal
  split
  · rw [List.all_cons, h]
    rfl
  · exact h

theorem bytesOf_unit {n : Nat} (hn : n < 0x80) (parts : List Part) :
    bytesOf (.unit n :: parts) = n.toUInt8 :: bytesOf parts := by
  have he : encode n = [n.toUInt8] := if_pos hn
  cases parts with
  | nil => simp [bytesOf, he]
  | cons part parts =>
    cases part with
    | byte b => simp [bytesOf, he]
    | unit low =>
      have hj : joined? n low = none := if_neg (by omega)
      simp [bytesOf, he, hj]

theorem bytesOf_bytes (text : Bytes) : bytesOf (text.map .byte) = text := by
  induction text with
  | nil => rfl
  | cons b text ih => rw [List.map_cons, bytesOf, ih]

theorem unitOf?_hexDigit {b : UInt8} (hb : b < 0x20) :
    unitOf? [0x30, 0x30, Escape.hexDigit (b / 16), Escape.hexDigit (b % 16)] = some b.toNat := by
  have h : ∀ n < 32, unitOf? [0x30, 0x30, Escape.hexDigit (n.toUInt8 / 16),
      Escape.hexDigit (n.toUInt8 % 16)] = some n := by decide
  simpa using h b.toNat (UInt8.lt_iff_toNat_lt.1 hb)

/-- A byte is written behind a backslash, as a code unit or as itself. -/
theorem ofByte_cases (b : UInt8) :
    (∃ c, Escape.ofByte b = [backslash, c] ∧ escaped? c = some b) ∨
    (b < 0x20 ∧ Escape.ofByte b =
      [backslash, 0x75, 0x30, 0x30, Escape.hexDigit (b / 16), Escape.hexDigit (b % 16)]) ∨
    (b ≠ doubleQuote ∧ ¬b < 0x20 ∧ b ≠ backslash ∧ Escape.ofByte b = [b]) := by
  -- Seven bytes have a letter of their own.
  by_cases hs : b ∈ [backslash, doubleQuote, 0x08, formFeed, lineFeed, carriageReturn, tab]
  · left
    simp only [List.mem_cons, List.not_mem_nil, or_false] at hs
    obtain rfl | rfl | rfl | rfl | rfl | rfl | rfl := hs <;> exact ⟨_, rfl, by decide⟩
  · right
    simp only [List.mem_cons, List.not_mem_nil, or_false, not_or] at hs
    obtain ⟨he, hq, hb, hf, hl, hr, ht⟩ := hs
    unfold Escape.ofByte
    rw [if_neg he, if_neg hq, if_neg hb, if_neg hf, if_neg hl, if_neg hr, if_neg ht]
    by_cases hc : b < 0x20
    · rw [if_pos hc]
      exact .inl ⟨hc, rfl⟩
    · rw [if_neg hc]
      exact .inr ⟨hq, hc, he, rfl⟩

/-- What is escaped in full is read back. -/
theorem parts?_ofText (text rest : Bytes) :
    ∃ parts, parts? (Escape.ofText text ++ doubleQuote :: rest) = some (parts, rest) ∧
      bytesOf parts = text := by
  induction text with
  | nil => exact ⟨[], parts?_quote rest, rfl⟩
  | cons b text ih =>
    obtain ⟨parts, hp, ht⟩ := ih
    have hs : Escape.ofText (b :: text) ++ doubleQuote :: rest =
        Escape.ofByte b ++ (Escape.ofText text ++ doubleQuote :: rest) := by
      simp [Escape.ofText]
    obtain ⟨c, ho, hc⟩ | ⟨hb, ho⟩ | ⟨hq, hc, he, ho⟩ := ofByte_cases b
    · refine ⟨.byte b :: parts, ?_, by rw [bytesOf, ht]⟩
      rw [hs, ho, List.cons_append, List.singleton_append, parts?_escape hc, hp]
      rfl
    · refine ⟨.unit b.toNat :: parts, ?_, ?_⟩
      · rw [hs, ho]
        simp only [List.cons_append, List.nil_append]
        rw [parts?_unit (unitOf?_hexDigit hb), hp]
        rfl
      · have hn : b.toNat < 0x80 := Nat.lt_trans (UInt8.lt_iff_toNat_lt.1 hb) (by decide)
        rw [bytesOf_unit hn, ht]
        simp
    · refine ⟨.byte b :: parts, ?_, by rw [bytesOf, ht]⟩
      rw [hs, ho, List.singleton_append, parts?_byte hq hc he, hp]
      rfl

/-- A string value is read back unless a control byte stands in it. -/
theorem parts?_guard (text rest : Bytes) :
    parts? (text.flatMap Json.guard ++ doubleQuote :: rest) =
      if isPlain text then some (text.map .byte, rest) else none := by
  induction text with
  | nil => exact parts?_quote rest
  | cons b text ih =>
    have hp : isPlain (b :: text) = (decide (0x20 ≤ b) && isPlain text) := rfl
    rw [List.flatMap_cons, List.append_assoc, Json.guard, hp]
    split
    · rename_i hb
      have hc : escaped? b = some b := by
        obtain rfl | rfl := hb <;> rfl
      have hg : (0x20 : UInt8) ≤ b := by
        obtain rfl | rfl := hb <;> decide
      rw [List.cons_append, List.singleton_append, parts?_escape hc, ih]
      by_cases ht : isPlain text = true <;> simp [hg, ht, withPart]
    · rename_i hb
      rw [not_or] at hb
      rw [List.singleton_append]
      by_cases hc : b < 0x20
      · rw [parts?_control hc]
        simp [UInt8.not_le.2 hc]
      · rw [parts?_byte hb.2 hc hb.1, ih]
        by_cases ht : isPlain text = true <;> simp [ht, withPart, UInt8.not_lt.1 hc]

end Document

end ManifestScan
