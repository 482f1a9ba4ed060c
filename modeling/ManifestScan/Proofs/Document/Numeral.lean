import ManifestScan.Proofs.Document.Default
import Mathlib.Computability.RegularExpressions

namespace ManifestScan.Default

open Document RegularExpression

def oneOf (bytes : Bytes) : RegularExpression UInt8 :=
  bytes.foldr (fun b others => char b + others) 0

def perhaps (part : RegularExpression UInt8) : RegularExpression UInt8 := 1 + part

def digit : RegularExpression UInt8 := oneOf (ascii "0123456789")

def figures : RegularExpression UInt8 := digit * star digit

/-- The digits in front of the dot: a zero stands alone. -/
def wholePart : RegularExpression UInt8 := char 0x30 + oneOf (ascii "123456789") * star digit

def fractionPart : RegularExpression UInt8 := perhaps (char dot * figures)

def exponentPart : RegularExpression UInt8 :=
  perhaps (oneOf (ascii "eE") * (perhaps (oneOf (ascii "+-")) * figures))

/-- The numbers of documents: `-?(0|[1-9][0-9]*)(\.[0-9]+)?([eE][+-]?[0-9]+)?`. -/
def numeral : RegularExpression UInt8 :=
  perhaps (char 0x2D) * (wholePart * (fractionPart * exponentPart))

section

variable {text digits rest : Bytes} {part other : RegularExpression UInt8}

theorem mem_oneOf {bytes : Bytes} : text ∈ (oneOf bytes).matches' ↔ ∃ b ∈ bytes, text = [b] := by
  induction bytes with
  | nil =>
    constructor
    · intro h
      cases h
    · rintro ⟨b, hb, -⟩
      cases hb
  | cons b others ih =>
    have hsum : (oneOf (b :: others)).matches' = (char b).matches' + (oneOf others).matches' := rfl
    rw [hsum, Language.mem_add, ih, matches'_char, List.exists_mem_cons_iff]
    exact or_congr Set.mem_singleton_iff Iff.rfl

theorem mem_perhaps : text ∈ (perhaps part).matches' ↔ text = [] ∨ text ∈ part.matches' := by
  have hsum : (perhaps part).matches' = 1 + part.matches' := rfl
  rw [hsum, Language.mem_add, Language.mem_one]

theorem mem_chain : text ∈ (part * other).matches' ↔
    ∃ front ∈ part.matches', ∃ rest ∈ other.matches', front ++ rest = text := by
  rw [matches'_mul, Language.mem_mul]

theorem mem_ascii_digits : ∀ b, b ∈ ascii "0123456789" ↔ isDigit b = true := by decide +kernel

theorem mem_digit : text ∈ digit.matches' ↔ ∃ b, isDigit b = true ∧ text = [b] := by
  rw [digit, mem_oneOf]
  exact exists_congr fun b => and_congr_left fun _ => mem_ascii_digits b

theorem mem_digits : text ∈ (star digit).matches' ↔ text.all isDigit = true := by
  rw [matches'_star, Language.mem_kstar]
  constructor
  · rintro ⟨words, rfl, hw⟩
    rw [List.all_eq_true]
    intro b hb
    obtain ⟨word, hm, hb⟩ := List.mem_flatten.1 hb
    obtain ⟨c, hc, rfl⟩ := mem_digit.1 (hw word hm)
    rwa [List.mem_singleton.1 hb]
  · intro h
    refine ⟨text.map fun b => [b], ?_, ?_⟩
    · rw [← List.flatMap_def, List.flatMap_singleton']
    · intro word hm
      obtain ⟨b, hb, rfl⟩ := List.mem_map.1 hm
      exact mem_digit.2 ⟨b, List.all_eq_true.1 h b hb, rfl⟩

theorem mem_figures : text ∈ figures.matches' ↔ isFigures text = true := by
  rw [figures, mem_chain, isFigures, Bool.and_eq_true]
  constructor
  · rintro ⟨front, hf, rest, hr, rfl⟩
    obtain ⟨b, hb, rfl⟩ := mem_digit.1 hf
    rw [List.singleton_append, List.all_cons, hb, mem_digits.1 hr]
    exact ⟨rfl, rfl⟩
  · rintro ⟨hn, hd⟩
    obtain ⟨b, others, rfl⟩ := @List.exists_cons_of_ne_nil _ text (by simpa using hn)
    rw [List.all_cons, Bool.and_eq_true] at hd
    exact ⟨[b], mem_digit.2 ⟨b, hd.1, rfl⟩, others, mem_digits.2 hd.2, rfl⟩

theorem mem_exponentPart : text ∈ exponentPart.matches' ↔ isExponentPart text = true := by
  have he : ∀ b, b ∈ ascii "eE" ↔ b = 0x65 ∨ b = 0x45 := fun _ => List.mem_pair
  have hs : ∀ b, b ∈ ascii "+-" ↔ b = 0x2B ∨ b = 0x2D := fun _ => List.mem_pair
  have hdigit : ∀ b, b = 0x2B ∨ b = 0x2D → isDigit b = false := by rintro b (rfl | rfl) <;> rfl
  rw [exponentPart, mem_perhaps, mem_chain]
  cases text with
  | nil => exact ⟨fun _ => rfl, fun _ => .inl rfl⟩
  | cons e rest =>
    unfold isExponentPart
    dsimp only
    rw [Bool.and_eq_true, Bool.or_eq_true, beq_iff_eq, beq_iff_eq]
    constructor
    · rintro (hn | ⟨letter, hl, power, hp, ht⟩)
      · cases hn
      obtain ⟨b, hb, rfl⟩ := mem_oneOf.1 hl
      cases ht
      refine ⟨(he e).1 hb, ?_⟩
      obtain ⟨sign, hsign, digits, hd, rfl⟩ := mem_chain.1 hp
      rcases mem_perhaps.1 hsign with rfl | hsign
      · -- Digits start with no sign, so all of them belong to the power.
        rw [mem_figures] at hd
        cases digits with
        | nil => cases hd
        | cons d digits =>
          have hfirst : isDigit d = true := by
            rw [isFigures, Bool.and_eq_true, List.all_cons, Bool.and_eq_true] at hd
            exact hd.2.1
          have hn : ¬(d = 0x2B ∨ d = 0x2D) := fun h => by simp [hdigit d h] at hfirst
          exact (congrArg (isFigures ·) (if_neg hn)).trans hd
      · obtain ⟨s, hmem, rfl⟩ := mem_oneOf.1 hsign
        exact (congrArg (isFigures ·) (if_pos ((hs s).1 hmem))).trans (mem_figures.1 hd)
    · rintro ⟨hletter, hf⟩
      refine .inr ⟨[e], mem_oneOf.2 ⟨e, (he e).2 hletter, rfl⟩, rest, mem_chain.2 ?_, rfl⟩
      cases rest with
      | nil => cases hf
      | cons s digits =>
        dsimp only at hf
        split at hf
        · rename_i hsign
          exact ⟨[s], mem_perhaps.2 (.inr (mem_oneOf.2 ⟨s, (hs s).2 hsign, rfl⟩)), digits,
            mem_figures.2 hf, rfl⟩
        · exact ⟨[], mem_perhaps.2 (.inl rfl), s :: digits, mem_figures.2 hf, rfl⟩

/-- An exponent starts with no digit and no dot. -/
theorem head?_exponentPart (h : isExponentPart text = true) :
    ∀ b ∈ text.head?, isDigit b = false ∧ b ≠ dot := by
  have he : ∀ b : UInt8, b = 0x65 ∨ b = 0x45 → isDigit b = false ∧ b ≠ dot := by
    rintro b (rfl | rfl) <;> decide
  cases text with
  | nil => nofun
  | cons e rest =>
    intro b hb
    cases hb
    simp only [isExponentPart, Bool.and_eq_true, Bool.or_eq_true, beq_iff_eq] at h
    exact he e h.1

/-- A run of digits ends where no digit follows. -/
theorem span_digits (hd : digits.all isDigit = true) (hr : ∀ b ∈ rest.head?, isDigit b = false) :
    (digits ++ rest).takeWhile isDigit = digits ∧ (digits ++ rest).dropWhile isDigit = rest := by
  have hall : ∀ b ∈ digits, isDigit b = true := List.all_eq_true.1 hd
  have hnone : rest.takeWhile isDigit = [] ∧ rest.dropWhile isDigit = rest := by
    cases rest with
    | nil => exact ⟨rfl, rfl⟩
    | cons b rest =>
      have hb := hr b rfl
      simp [hb]
  rw [List.takeWhile_append_of_pos hall, List.dropWhile_append_of_pos hall, hnone.1, hnone.2,
    List.append_nil]
  exact ⟨rfl, rfl⟩

theorem mem_fractionPart :
    text ∈ (fractionPart * exponentPart).matches' ↔ isFractionPart text = true := by
  rw [mem_chain]
  constructor
  · rintro ⟨front, hf, power, hp, rfl⟩
    rw [mem_exponentPart] at hp
    rcases mem_perhaps.1 hf with rfl | hf
    · cases power with
      | nil => rfl
      | cons e rest =>
        -- An exponent starts with no dot, so no figures are read in front of it.
        have hdot := (head?_exponentPart hp e rfl).2
        rw [List.nil_append, isFractionPart, if_neg hdot, hp]
    · obtain ⟨point, hpoint, digits, hd, rfl⟩ := mem_chain.1 hf
      cases hpoint
      rw [mem_figures, isFigures, Bool.and_eq_true] at hd
      obtain ⟨htake, hdrop⟩ := span_digits hd.2 fun b hb => (head?_exponentPart hp b hb).1
      rw [List.append_assoc, List.singleton_append, isFractionPart, if_pos rfl, htake, hdrop, hd.1,
        hp]
      rfl
  · intro h
    cases text with
    | nil => exact ⟨[], mem_perhaps.2 (.inl rfl), [], mem_exponentPart.2 rfl, rfl⟩
    | cons b rest =>
      rw [isFractionPart] at h
      split at h
      · rename_i hb
        rw [Bool.and_eq_true] at h
        have hd : isFigures (rest.takeWhile isDigit) = true := by
          rw [isFigures, h.1, List.all_takeWhile]
          rfl
        refine ⟨[b] ++ rest.takeWhile isDigit, mem_perhaps.2 (.inr (mem_chain.2
          ⟨[b], ?_, _, mem_figures.2 hd, rfl⟩)), rest.dropWhile isDigit, mem_exponentPart.2 h.2, ?_⟩
        · rw [hb]
          rfl
        · rw [List.append_assoc, List.takeWhile_append_dropWhile]
          rfl
      · exact ⟨[], mem_perhaps.2 (.inl rfl), b :: rest, mem_exponentPart.2 h, rfl⟩

theorem head?_fractionPart (h : isFractionPart text = true) :
    ∀ b ∈ text.head?, isDigit b = false := by
  cases text with
  | nil => nofun
  | cons b rest =>
    intro c hc
    cases hc
    rw [isFractionPart] at h
    split at h
    · rename_i hb
      rw [hb]
      decide
    · exact (head?_exponentPart h b rfl).1

/-- A zero, or digits that start with none. -/
theorem mem_wholePart : text ∈ wholePart.matches' ↔ text.isEmpty = false ∧
    text.all isDigit = true ∧ (decide (1 < text.length) && text.head? == some 0x30) = false := by
  have hz : ∀ b, b ∈ ascii "123456789" ↔ isDigit b = true ∧ b ≠ 0x30 := by
    intro b
    have hzero : 0x30 ∉ ascii "123456789" := by decide
    have hmem : b = 0x30 ∨ b ∈ ascii "123456789" ↔ isDigit b = true :=
      List.mem_cons.symm.trans (mem_ascii_digits b)
    rw [← hmem]
    exact ⟨fun h => ⟨.inr h, fun hb => hzero (hb ▸ h)⟩, fun h => h.1.resolve_left h.2⟩
  have hsum : wholePart.matches' =
      (char 0x30).matches' + (oneOf (ascii "123456789") * star digit).matches' := rfl
  rw [hsum, Language.mem_add, mem_chain]
  constructor
  · rintro (h | ⟨front, hf, rest, hr, rfl⟩)
    · cases h
      exact ⟨rfl, by decide, by decide⟩
    · obtain ⟨b, hb, rfl⟩ := mem_oneOf.1 hf
      obtain ⟨hd, hn⟩ := (hz b).1 hb
      rw [List.singleton_append, List.all_cons, hd, mem_digits.1 hr]
      exact ⟨rfl, rfl, by simp [hn]⟩
  · rintro ⟨hn, hd, hh⟩
    cases text with
    | nil => cases hn
    | cons b rest =>
      rw [List.all_cons, Bool.and_eq_true] at hd
      by_cases hb : b = 0x30
      · subst hb
        have hrest : rest = [] := by simpa using hh
        rw [hrest]
        exact .inl rfl
      · exact .inr ⟨[b], mem_oneOf.2 ⟨b, (hz b).2 ⟨hd.1, hb⟩, rfl⟩, rest, mem_digits.2 hd.2, rfl⟩

/-- A sign stands in front of a number, never within its digits. -/
theorem mem_unsigned : text ∈ (wholePart * (fractionPart * exponentPart)).matches' ↔
    (text.takeWhile isDigit).isEmpty = false ∧
      (decide (1 < (text.takeWhile isDigit).length) &&
        (text.takeWhile isDigit).head? == some 0x30) = false ∧
      isFractionPart (text.dropWhile isDigit) = true := by
  rw [mem_chain]
  constructor
  · rintro ⟨whole, hw, rest, hr, rfl⟩
    rw [mem_fractionPart] at hr
    obtain ⟨hn, hd, hz⟩ := mem_wholePart.1 hw
    obtain ⟨htake, hdrop⟩ := span_digits hd (head?_fractionPart hr)
    rw [htake, hdrop]
    exact ⟨hn, hz, hr⟩
  · rintro ⟨hn, hz, hr⟩
    exact ⟨_, mem_wholePart.2 ⟨hn, List.all_takeWhile, hz⟩, _, mem_fractionPart.2 hr,
      List.takeWhile_append_dropWhile⟩

/-- The scanner for numbers takes exactly the texts of the regular expression. -/
theorem isNumber_iff : isNumber text = true ↔ text ∈ numeral.matches' := by
  have hscan (unsigned : Bytes) : (!(unsigned.takeWhile isDigit).isEmpty &&
      !(decide (1 < (unsigned.takeWhile isDigit).length) &&
        (unsigned.takeWhile isDigit).head? == some 0x30) &&
      isFractionPart (unsigned.dropWhile isDigit)) = true ↔
      unsigned ∈ (wholePart * (fractionPart * exponentPart)).matches' := by
    rw [mem_unsigned, Bool.and_eq_true, Bool.and_eq_true, Bool.not_eq_true', Bool.not_eq_true',
      and_assoc]
  unfold isNumber
  dsimp only
  rw [hscan, numeral, @mem_chain text (perhaps (char 0x2D))]
  constructor
  · intro h
    split at h
    · rename_i hs
      obtain ⟨rest, rfl⟩ := List.head?_eq_some_iff.1 hs
      exact ⟨[0x2D], mem_perhaps.2 (.inr rfl), rest, h, rfl⟩
    · exact ⟨[], mem_perhaps.2 (.inl rfl), text, h, rfl⟩
  · rintro ⟨sign, hs, rest, hr, rfl⟩
    rcases mem_perhaps.1 hs with rfl | hs
    · rw [List.nil_append]
      split
      · -- No number starts with two signs, and a lone sign is none.
        rename_i hsign
        obtain ⟨others, rfl⟩ := List.head?_eq_some_iff.1 hsign
        obtain ⟨hn, -⟩ := mem_unsigned.1 hr
        cases hn
      · exact hr
    · cases hs
      exact hr

end

/-- A string literal starts with its quote, and no number does. -/
theorem isNumber_of_isQuoted {text : Bytes} (h : Literal.isQuoted text = true) :
    isNumber text = false := by
  have hq : ∀ b, Literal.isQuote b = true → isDigit b = false ∧ b ≠ 0x2D := by
    intro b hb
    rw [Literal.isQuote, Bool.or_eq_true, beq_iff_eq, beq_iff_eq] at hb
    rcases hb with rfl | rfl <;> decide
  cases text with
  | nil => cases h
  | cons b rest =>
    rw [Literal.isQuoted, Bool.and_eq_true] at h
    obtain ⟨hd, hm⟩ := hq b h.1
    simp [isNumber, hm, hd]

def words : List (Bytes × Document) :=
  [(ascii "None", .null), (ascii "True", .boolean true), (ascii "False", .boolean false)]

/-- No two words mean the same. -/
theorem words_inj {word other : Bytes} {document meaning : Document} (h : (word, document) ∈ words)
    (ho : (other, meaning) ∈ words) : document = meaning ↔ word = other := by
  have hnone : ascii "None" ≠ ascii "True" ∧ ascii "None" ≠ ascii "False" := by decide
  have hfalse : ascii "False" ≠ ascii "True" := by decide
  simp only [words, List.mem_cons, List.not_mem_nil, or_false, Prod.mk.injEq] at h ho
  obtain ⟨rfl, rfl⟩ | ⟨rfl, rfl⟩ | ⟨rfl, rfl⟩ := h <;>
    obtain ⟨rfl, rfl⟩ | ⟨rfl, rfl⟩ | ⟨rfl, rfl⟩ := ho <;>
      simp [hnone, hnone.1.symm, hnone.2.symm, hfalse, hfalse.symm]

theorem isNumber_of_mem_words {entry : Bytes × Document} (h : entry ∈ words) :
    isNumber entry.1 = false := by
  have hwords : ∀ word ∈ words.map (·.1), isNumber word = false := by decide
  exact hwords _ (List.mem_map_of_mem h)

section

variable {expression : Bytes}

theorem serialize_word {document : Document} (h : (trim expression, document) ∈ words) :
    read? (serialize expression) = some document := by
  unfold serialize
  dsimp only
  simp only [words, List.mem_cons, List.not_mem_nil, or_false, Prod.mk.injEq] at h
  obtain ⟨hv, rfl⟩ | ⟨hv, rfl⟩ | ⟨hv, rfl⟩ := h
  · rw [hv]
    exact read?_bare rfl rfl
  · rw [hv]
    exact read?_bare (by rfl) rfl
  · rw [hv]
    exact read?_bare (by rfl) rfl

theorem serialize_number (h : isNumber (trim expression) = true) :
    serialize expression = trim expression ∧
      ∃ n, read? (trim expression) = some (.number n) := by
  obtain ⟨hr, ha⟩ := number_reads h
  obtain ⟨n, hn⟩ := Option.isSome_iff_exists.1 hr
  refine ⟨?_, n, read?_bare (bareValue?_number hn) ha⟩
  have hword : ∀ word, isNumber word = false → trim expression ≠ word := by
    rintro word hw he
    rw [he, hw] at h
    cases h
  have hq : ¬Literal.isQuoted (trim expression) = true := by
    intro hq
    rw [isNumber_of_isQuoted hq] at h
    cases h
  unfold serialize
  dsimp only
  rw [if_neg (hword _ (by decide)), if_neg (hword _ (by decide)),
    if_neg (hword _ (by decide)), if_neg hq, if_pos h]

theorem serialize_other (hw : trim expression ∉ words.map (·.1))
    (hn : ¬isNumber (trim expression) = true) :
    read? (serialize expression) = some (.string (Literal.unquote (trim expression))) := by
  simp only [words, List.map_cons, List.map_nil, List.mem_cons, List.not_mem_nil, or_false,
    not_or] at hw
  obtain ⟨hnone, htrue, hfalse⟩ := hw
  unfold serialize
  dsimp only
  rw [if_neg hnone, if_neg htrue, if_neg hfalse, if_neg hn]
  split
  · exact read?_quote _
  · rename_i hq
    rw [Literal.unquote, if_neg hq]
    exact read?_quote _

end

/-- A default is one document. The words for nothing and the truth values and the numbers keep their
meaning, a number is written as it is, and everything else becomes a string: what a literal denotes,
and the text of any other expression. -/
theorem serialize_meaning (expression : Bytes) :
    let value := trim expression
    ∃ document, read? (serialize expression) = some document ∧
      (document = .null ↔ value = ascii "None") ∧
      (document = .boolean true ↔ value = ascii "True") ∧
      (document = .boolean false ↔ value = ascii "False") ∧
      ((∃ n, document = .number n) ↔ value ∈ numeral.matches') ∧
      (value ∈ numeral.matches' → serialize expression = value) ∧
      (value ∉ [ascii "None", ascii "True", ascii "False"] → value ∉ numeral.matches' →
        document = .string (if Literal.isQuoted value then Literal.unquote value else value)) := by
  intro value
  rw [← isNumber_iff]
  by_cases hw : value ∈ words.map (·.1)
  · obtain ⟨⟨word, document⟩, hm, hword⟩ := List.mem_map.1 hw
    change word = value at hword
    subst hword
    have hn : isNumber value = false := isNumber_of_mem_words hm
    refine ⟨document, serialize_word hm, words_inj hm (by simp [words]),
      words_inj hm (by simp [words]), words_inj hm (by simp [words]), ⟨?_, fun h => ?_⟩,
      fun h => ?_, fun h => absurd hw h⟩
    · rintro ⟨n, rfl⟩
      simp [words] at hm
    · rw [hn] at h
      cases h
    · rw [hn] at h
      cases h
  have hnone (word : Bytes) (hm : word ∈ words.map (·.1)) : value ≠ word := fun he => hw (he ▸ hm)
  by_cases hn : isNumber value = true
  · obtain ⟨hs, n, hr⟩ := serialize_number hn
    exact ⟨.number n, hs ▸ hr, ⟨nofun, fun h => absurd h (hnone _ (by decide))⟩,
      ⟨nofun, fun h => absurd h (hnone _ (by decide))⟩,
      ⟨nofun, fun h => absurd h (hnone _ (by decide))⟩, ⟨fun _ => hn, fun _ => ⟨n, rfl⟩⟩,
      fun _ => hs, fun _ h => absurd hn h⟩
  · refine ⟨.string (Literal.unquote value), serialize_other hw hn,
      ⟨nofun, fun h => absurd h (hnone _ (by decide))⟩,
      ⟨nofun, fun h => absurd h (hnone _ (by decide))⟩,
      ⟨nofun, fun h => absurd h (hnone _ (by decide))⟩, ⟨?_, fun h => absurd h hn⟩,
      fun h => absurd h hn, fun _ _ => ?_⟩
    · rintro ⟨n, hn⟩
      cases hn
    · split
      · rfl
      · rename_i hq
        rw [Literal.unquote, if_neg hq]

end ManifestScan.Default
