import ManifestScan.Proofs.Lexing.Chain
import ManifestScan.Text.Name

namespace ManifestScan

/-- No word goes on with the text, and no quote makes a literal of the word in front of it. -/
def endsName (rest : Bytes) : Bool :=
  !rest.head?.any fun b => Lexeme.isWordByte b || Literal.isQuote b

namespace Lexeme

theorem isWordByte_of_isNameByte : ∀ b, isNameByte b = true → isWordByte b = true := by
  decide +kernel

theorem startsWord_of_isNameByte :
    ∀ b, isNameByte b = true → isDigit b = false → startsWord b = true := by
  decide +kernel

theorem not_filler_of_startsWord : ∀ b, startsWord b = true →
    isFiller b = false ∧ b ≠ backslash ∧ b ≠ lineFeed ∧ b ≠ hash := by
  decide +kernel

theorem takeWhile_isWordByte {text rest : Bytes} (ht : text.all isNameByte = true)
    (hr : endsName rest = true) :
    (text ++ rest).takeWhile isWordByte = text ∧ (text ++ rest).dropWhile isWordByte = rest := by
  have hw : ∀ b ∈ text, isWordByte b = true :=
    fun b hb => isWordByte_of_isNameByte b (List.all_eq_true.1 ht b hb)
  have hn : rest.takeWhile isWordByte = [] ∧ rest.dropWhile isWordByte = rest := by
    cases rest with
    | nil => exact ⟨rfl, rfl⟩
    | cons b rest =>
      have hb : isWordByte b = false := by
        simp only [endsName, List.head?_cons, Option.any_some, Bool.not_eq_true',
          Bool.or_eq_false_iff] at hr
        exact hr.1
      simp [hb]
  rw [List.takeWhile_append_of_pos hw, List.dropWhile_append_of_pos hw, hn.1, hn.2, List.append_nil]
  exact ⟨rfl, rfl⟩

/-- A word that marks the literal behind it. -/
theorem read_marked {b : UInt8} {rest after : Bytes} {quote : UInt8} (hs : startsWord b = true)
    (hd : rest.dropWhile isWordByte = quote :: after)
    (hq : Literal.isQuote quote = true ∧ isStringMark (b :: rest.takeWhile isWordByte) = true) :
    read b rest = ofLiteral (b :: rest.takeWhile isWordByte) quote after := by
  obtain ⟨hf, he, hl, hh⟩ := not_filler_of_startsWord b hs
  unfold read
  rw [if_neg (by simp [hf]), if_neg (by simp [he]), if_neg (by simp [he]), if_neg hl, if_neg hh,
    if_pos hs, hd]
  exact if_pos hq

theorem read_unmarked {b : UInt8} {rest : Bytes} (hs : startsWord b = true)
    (hn : ∀ quote ∈ (rest.dropWhile isWordByte).head?,
      ¬(Literal.isQuote quote = true ∧ isStringMark (b :: rest.takeWhile isWordByte) = true)) :
    read b rest = ⟨.token (TokenKind.ofWord (b :: rest.takeWhile isWordByte)),
      b :: rest.takeWhile isWordByte⟩ := by
  obtain ⟨hf, he, hl, hh⟩ := not_filler_of_startsWord b hs
  unfold read
  rw [if_neg (by simp [hf]), if_neg (by simp [he]), if_neg (by simp [he]), if_neg hl, if_neg hh,
    if_pos hs]
  cases hd : rest.dropWhile isWordByte with
  | nil => rfl
  | cons quote after => exact if_neg (hn quote (by rw [hd]; rfl))

theorem read_word {b : UInt8} {text rest : Bytes} (hw : isIdentifier (b :: text) = true)
    (hr : endsName rest = true) :
    read b (text ++ rest) = ⟨.token (TokenKind.ofWord (b :: text)), b :: text⟩ := by
  simp only [isIdentifier, List.all_cons, Bool.and_eq_true, Bool.not_eq_true'] at hw
  obtain ⟨hd, hb, ht⟩ := hw
  obtain ⟨htake, hdrop⟩ := takeWhile_isWordByte ht hr
  rw [read_unmarked (startsWord_of_isNameByte b hb hd), htake]
  rw [hdrop]
  intro quote hm hq
  simp only [endsName, Option.mem_def.1 hm, Option.any_some, Bool.not_eq_true',
    Bool.or_eq_false_iff] at hr
  rw [hr.2] at hq
  cases hq.1

theorem not_word_of_mark : ∀ b, (TokenKind.marks.lookup b).isSome = true →
    isFiller b = false ∧ b ≠ backslash ∧ b ≠ lineFeed ∧ b ≠ hash ∧ startsWord b = false ∧
      isDigit b = false ∧ Literal.isQuote b = false := by
  decide +kernel

theorem read_mark {b : UInt8} {kind : TokenKind} (hk : TokenKind.marks.lookup b = some kind)
    {rest : Bytes} (hr : b = dot → rest.head?.any isDigit = false) :
    read b rest = ⟨.token kind, [b]⟩ := by
  obtain ⟨hf, he, hl, hh, hs, hd, hq⟩ := not_word_of_mark b (by simp [hk])
  -- A dot in front of a digit would start a number.
  have hn : ¬(isDigit b = true ∨ b = dot ∧ rest.head?.any isDigit = true) := by
    rintro (h | ⟨h, h'⟩)
    · simp [hd] at h
    · simp [hr h] at h'
  unfold read
  rw [if_neg (by simp [hf]), if_neg (by simp [he]), if_neg (by simp [he]), if_neg hl, if_neg hh,
    if_neg (by simp [hs]), if_neg hn, if_neg (by simp [hq]), punctuation, hk]

end Lexeme

namespace Lexes

open Lexeme

theorem word {name rest : Bytes} (hw : isIdentifier name = true) (hr : endsName rest = true) :
    Lexes rest name [⟨.token (TokenKind.ofWord name), name⟩] := by
  cases name with
  | nil => cases hw
  | cons b text =>
    refine .one (read_word hw hr) rfl (inert_token ?_ (isFlat_ofWord _))
    intro c hc
    refine isInert_wordByte c (isWordByte_of_isNameByte c ?_)
    simp only [isIdentifier, Bool.and_eq_true] at hw
    exact List.all_eq_true.1 hw.2 c hc

theorem mark {b : UInt8} {kind : TokenKind} (hk : TokenKind.marks.lookup b = some kind)
    {rest : Bytes} (hr : b = dot → rest.head?.any isDigit = false) :
    Lexes rest [b] [⟨.token kind, [b]⟩] :=
  .one (read_mark hk hr) rfl (sound_mark hk rest)

theorem space (rest : Bytes) : Lexes rest [space] [⟨.filler, [ManifestScan.space]⟩] :=
  .one rfl rfl (.inert (.cons (by decide) nofun) rfl)

theorem lineFeed (rest : Bytes) :
    Lexes rest [lineFeed] [⟨.lineBreak, [ManifestScan.lineFeed]⟩] :=
  .one rfl rfl (.inert (.cons (by decide) nofun) rfl)

end Lexes

end ManifestScan
