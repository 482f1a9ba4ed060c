import ManifestScan.Proofs.Lexing.Kind
import ManifestScan.Proofs.Lexing.Prefix

namespace ManifestScan

def TokenKind.isFlat (kind : TokenKind) : Bool := !kind.isOpening && !kind.isClosing

namespace Lexeme

/-- What is between brackets: blanks, line ends and tokens that are no brackets. -/
def isFlat (lexeme : Lexeme) : Bool :=
  match lexeme.kind with
  | .filler | .lineBreak => true
  | .token kind => kind.isFlat
  | .unclosed | .unknown => false

/-- A lexeme that is no fault, by what it means for a scan of brackets. -/
inductive Sound (rest : Bytes) : Lexeme → Prop
  | inert {lexeme : Lexeme} (hi : Inert lexeme.text) (hf : lexeme.isFlat = true) : Sound rest lexeme
  | bracket {b : UInt8} {kind : TokenKind} (hb : isInert b = false)
    (hq : Literal.isQuote b = false) (hh : (b == hash) = false)
    (ho : kind.isOpening = ManifestScan.isOpening b)
    (hc : kind.isClosing = ManifestScan.isClosing b) :
    Sound rest ⟨.token kind, [b]⟩
  | comment {text : Bytes} (ht : ∀ b ∈ text, (b != lineFeed) = true)
    (hr : rest.takeWhile (· != lineFeed) = []) : Sound rest ⟨.filler, hash :: text⟩
  | literal {mark body : Bytes} {quote : UInt8} (hm : Inert mark)
    (hq : Literal.isQuote quote = true) (ha : Literal.after? (quote :: body ++ rest) = some rest) :
    Sound rest ⟨.token .string, mark ++ quote :: body⟩

theorem isFlat_ofWord (word : Bytes) : (TokenKind.ofWord word).isFlat = true :=
  TokenKind.forall_ofWord (·.isFlat = true) rfl (by decide) word

theorem inert_token {kind : TokenKind} {text rest : Bytes} (hi : Inert text)
    (hf : kind.isFlat = true) : Sound rest ⟨.token kind, text⟩ :=
  .inert hi hf

theorem sound_ofLiteral {mark : Bytes} {quote : UInt8} (hm : Inert mark)
    (hq : Literal.isQuote quote = true) (rest : Bytes) :
    (ofLiteral mark quote rest).kind = .unclosed ∨
      ∃ after, mark ++ quote :: rest = (ofLiteral mark quote rest).text ++ after ∧
        Sound after (ofLiteral mark quote rest) := by
  by_cases hc : (literalBody quote rest).closed = true
  · right
    obtain ⟨after, ha, he⟩ := literalBody_closed hc
    obtain ⟨body, hb⟩ : ∃ body, (literalBody quote rest).text = quote :: body := by
      unfold literalBody
      split <;> exact ⟨_, rfl⟩
    have hl : ofLiteral mark quote rest = ⟨.token .string, mark ++ quote :: body⟩ := by
      unfold ofLiteral
      simp [Body.prepend, hc, hb]
    rw [hb] at he
    rw [hl]
    refine ⟨after, ?_, .literal hm hq ?_⟩
    · rw [he, List.append_assoc]
    · rwa [← he]
  · exact .inl (if_neg hc)

theorem sound_unlessAssigned {kind : TokenKind} {mark rest : Bytes} (hm : Inert mark)
    (hk : kind.isFlat = true) :
    ∃ after, mark ++ rest = (unlessAssigned kind mark rest).text ++ after ∧
      Sound after (unlessAssigned kind mark rest) := by
  unfold unlessAssigned
  split
  · rename_i h
    obtain ⟨after, rfl⟩ := eq_cons_of_head? h
    exact ⟨after, by simp, inert_token (hm.append (.cons (by decide) nofun)) (by decide)⟩
  · exact ⟨rest, rfl, inert_token hm hk⟩

/-- A mark is a bracket or neither that nor the start of something longer. -/
theorem marks_cases : ∀ b : UInt8, (TokenKind.marks.lookup b).all (fun kind =>
    kind.isOpening == ManifestScan.isOpening b && kind.isClosing == ManifestScan.isClosing b &&
      !Literal.isQuote b && b != hash) = true := by
  decide +kernel

theorem sound_mark {b : UInt8} {kind : TokenKind} (hl : TokenKind.marks.lookup b = some kind)
    (rest : Bytes) : Sound rest ⟨.token kind, [b]⟩ := by
  have h := marks_cases b
  rw [hl, Option.all_some] at h
  simp only [Bool.and_eq_true, beq_iff_eq, Bool.not_eq_true', bne_iff_ne, ne_eq] at h
  obtain ⟨⟨⟨ho, hc⟩, hq⟩, hh⟩ := h
  -- A mark that is inert turns no bracket; the others are the six brackets.
  by_cases hi : isInert b = true
  · refine inert_token (.cons hi nofun) ?_
    simp only [isInert, Bool.and_eq_true, Bool.not_eq_true'] at hi
    simp [TokenKind.isFlat, ho, hc, hi]
  · exact .bracket (by simpa using hi) hq (by simpa using hh) ho hc

theorem sound_punctuation (b : UInt8) (rest : Bytes) :
    (punctuation b rest).kind = .unknown ∨
      ∃ after, b :: rest = (punctuation b rest).text ++ after ∧
        Sound after (punctuation b rest) := by
  have one : ∀ {b : UInt8}, isInert b = true → Inert [b] := fun hb => .cons hb nofun
  have two : ∀ {b : UInt8}, isInert b = true → Inert [b, b] := fun hb => .cons hb (one hb)
  have hop : ∀ b, operators.contains b = true → isInert b = true := by decide +kernel
  -- One case a branch, from the marks to the unknown byte.
  unfold punctuation
  split
  · rename_i kind hl
    exact .inr ⟨rest, rfl, sound_mark hl rest⟩
  split
  · rename_i hb
    subst hb
    exact .inr (sound_unlessAssigned (one (by decide)) (by decide))
  split
  · rename_i hb
    subst hb
    exact .inr (sound_unlessAssigned (one (by decide)) (by decide))
  split
  · rename_i hb
    subst hb
    exact .inr (sound_unlessAssigned (one (by decide)) (by decide))
  split
  · rename_i hb
    subst hb
    right
    split
    · rename_i hr
      obtain ⟨after, rfl⟩ := eq_cons_of_head? hr
      exact sound_unlessAssigned (two (by decide)) (by decide)
    · exact sound_unlessAssigned (one (by decide)) (by decide)
  split
  · rename_i hb
    obtain ⟨after, rfl⟩ := eq_cons_of_head? hb.2
    refine .inr ⟨after, rfl, inert_token (.cons ?_ (one (by decide))) (by decide)⟩
    rw [hb.1]
    decide
  split
  · rename_i hb
    right
    split
    · rename_i hr
      obtain ⟨after, rfl⟩ := eq_cons_of_head? hr.2
      exact sound_unlessAssigned (two (hop _ hb)) (by decide)
    · exact sound_unlessAssigned (one (hop _ hb)) (by decide)
  · exact .inl rfl

theorem sound_word {b : UInt8} (hb : startsWord b = true) (rest : Bytes) :
    let word := b :: rest.takeWhile isWordByte
    Inert word ∧ b :: rest = word ++ rest.dropWhile isWordByte := by
  intro word
  refine ⟨.cons ?_ (inert_takeWhile isInert_wordByte rest), ?_⟩
  · exact isInert_wordByte b (by simp [isWordByte, hb])
  · simp [word, List.takeWhile_append_dropWhile]

/-- The lexeme in front of a text, unless it is a fault. -/
theorem sound_read (b : UInt8) (rest : Bytes) :
    (read b rest).kind = .unclosed ∨ (read b rest).kind = .unknown ∨
      ∃ after, b :: rest = (read b rest).text ++ after ∧ Sound after (read b rest) := by
  -- One case a branch. Only a literal without end and an unknown byte are faults.
  have hf : ∀ b, isFiller b = true → isInert b = true := by decide +kernel
  unfold read
  split
  · rename_i hb
    exact .inr (.inr ⟨rest, rfl, .inert (.cons (hf b hb) nofun) rfl⟩)
  split
  · rename_i hb
    obtain ⟨after, rfl⟩ := eq_cons_of_head? hb.2
    refine .inr (.inr ⟨after, rfl, .inert (.cons ?_ (.cons (by decide) nofun)) rfl⟩)
    rw [hb.1]
    decide
  split
  · rename_i hb
    obtain ⟨after, ha⟩ := Option.isSome_iff_exists.1 hb.2
    rw [eq_append_of_afterWord? ha]
    refine .inr (.inr ⟨after, rfl,
      .inert (.cons ?_ (.cons (by decide) (.cons (by decide) nofun))) rfl⟩)
    rw [hb.1]
    decide
  split
  · rename_i hb
    subst hb
    exact .inr (.inr ⟨rest, rfl, .inert (.cons (by decide) nofun) rfl⟩)
  split
  · rename_i hb
    subst hb
    refine .inr (.inr ⟨rest.dropWhile (· != lineFeed), ?_,
      .comment (fun b => List.mem_takeWhile_imp) ?_⟩)
    · simp [List.takeWhile_append_dropWhile]
    · rw [List.takeWhile_eq_nil_iff]
      intro hl
      exact List.dropWhile_get_zero_not _ _ hl
  split
  · rename_i hb
    obtain ⟨hw, he⟩ := sound_word hb rest
    have hp := isFlat_ofWord (b :: rest.takeWhile isWordByte)
    split
    · rename_i quote after hr
      rw [he, hr]
      dsimp only
      split
      · rename_i hq
        exact (sound_ofLiteral hw hq.1 after).imp id .inr
      · exact .inr (.inr ⟨_, rfl, inert_token hw hp⟩)
    · rename_i hr
      rw [he, hr]
      exact .inr (.inr ⟨_, rfl, inert_token hw hp⟩)
  split
  · obtain ⟨after, ha⟩ := (prefix_number (b :: rest)).1
    exact .inr (.inr ⟨after, ha.symm, inert_token (prefix_number (b :: rest)).2 (by decide)⟩)
  split
  · rename_i hq
    exact (sound_ofLiteral (nofun : Inert []) hq rest).imp id .inr
  · exact .inr (sound_punctuation b rest)

end Lexeme

end ManifestScan
