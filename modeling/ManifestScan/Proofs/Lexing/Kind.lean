import ManifestScan.Proofs.Text.Split
import ManifestScan.Token.Lexeme

namespace ManifestScan

/-- What holds of names and of every keyword holds of each word. -/
theorem TokenKind.forall_ofWord (holds : TokenKind → Prop) (hi : holds .identifier)
    (hk : ∀ entry ∈ keywords, holds entry.2) (word : Bytes) : holds (ofWord word) := by
  unfold ofWord
  cases h : keywords.lookup word with
  | none => exact hi
  | some kind => exact hk _ (mem_of_lookup h)

/-- The kinds of tokens that are no mark, word or colon. -/
def TokenKind.others : List TokenKind :=
  [.at, .equals, .asterisk, .doubleAsterisk, .arrow, .operator, .number, .string]

namespace Lexeme

/-- The texts of the tokens of each kind: a mark stands for itself, a word is made of letters, and
the colon is the one byte. -/
inductive Shown : TokenKind → Bytes → Prop
  | mark {b : UInt8} {kind : TokenKind} (hm : (b, kind) ∈ TokenKind.marks) : Shown kind [b]
  | word {word : Bytes} (hw : word.all isWordByte = true) : Shown (TokenKind.ofWord word) word
  | colon : Shown .colon [ManifestScan.colon]
  | other {kind : TokenKind} {text : Bytes} (hk : kind ∈ TokenKind.others) : Shown kind text

def IsShown (lexeme : Lexeme) : Prop := ∀ kind, lexeme.kind = .token kind → Shown kind lexeme.text

theorem isShown_token {kind : TokenKind} {text : Bytes} (h : Shown kind text) :
    IsShown ⟨.token kind, text⟩ := by
  intro _ he
  cases he
  exact h

theorem isShown_unlessAssigned {kind : TokenKind} {mark : Bytes} (h : Shown kind mark)
    (rest : Bytes) : (unlessAssigned kind mark rest).IsShown := by
  unfold unlessAssigned
  split
  · exact isShown_token (.other (by decide))
  · exact isShown_token h

theorem isShown_ofLiteral (mark : Bytes) (quote : UInt8) (rest : Bytes) :
    (ofLiteral mark quote rest).IsShown := by
  intro kind hk
  simp only [ofLiteral] at hk
  split at hk
  · cases hk
    exact .other (by decide)
  · cases hk

theorem isShown_punctuation (b : UInt8) (rest : Bytes) : (punctuation b rest).IsShown := by
  unfold punctuation
  split
  · rename_i kind hl
    exact isShown_token (.mark (mem_of_lookup hl))
  · repeat' split
    all_goals first
      | exact isShown_unlessAssigned (.other (by decide)) _
      | exact isShown_token (.other (by decide))
      | skip
    · rename_i hb
      rw [hb]
      exact isShown_unlessAssigned .colon _
    · nofun

theorem isShown_read (b : UInt8) (rest : Bytes) : (read b rest).IsShown := by
  have hword (hb : startsWord b = true) :
      IsShown ⟨.token (TokenKind.ofWord (b :: rest.takeWhile isWordByte)),
        b :: rest.takeWhile isWordByte⟩ := by
    refine isShown_token (.word ?_)
    rw [List.all_cons, Bool.and_eq_true]
    exact ⟨by simp [isWordByte, hb], List.all_takeWhile⟩
  unfold read
  dsimp only
  repeat' split
  all_goals first
    | exact isShown_ofLiteral _ _ _
    | exact isShown_punctuation b rest
    | exact hword ‹_›
    | exact isShown_token (.other (by decide))
    | nofun

theorem shown_of_read {b : UInt8} {rest text : Bytes} {kind : TokenKind}
    (hl : read b rest = ⟨.token kind, text⟩) : Shown kind text := by
  have h := isShown_read b rest
  rw [hl] at h
  exact h kind rfl

namespace Shown

variable {kind : TokenKind} {text : Bytes}

/-- No text is read as a layout token. -/
theorem isLayout (h : Shown kind text) : kind.isLayout = false := by
  cases h with
  | mark hm =>
    have hmarks : ∀ entry ∈ TokenKind.marks, entry.2.isLayout = false := by decide
    exact hmarks _ hm
  | word => exact TokenKind.forall_ofWord (·.isLayout = false) rfl (by decide) _
  | colon => rfl
  | other hk =>
    revert kind
    decide

theorem all_isWordByte (h : Shown kind text) (hk : kind = .identifier) :
    text.all isWordByte = true := by
  cases h with
  | mark hm =>
    have hmarks : ∀ entry ∈ TokenKind.marks, entry.2 ≠ .identifier := by decide
    exact absurd hk (hmarks _ hm)
  | word hw => exact hw
  | colon => cases hk
  | other hm =>
    subst hk
    exact absurd hm (by decide)

theorem eq_colon (h : Shown kind text) (hk : kind = .colon) : text = [ManifestScan.colon] := by
  cases h with
  | mark hm =>
    have hmarks : ∀ entry ∈ TokenKind.marks, entry.2 ≠ .colon := by decide
    exact absurd hk (hmarks _ hm)
  | word => exact absurd hk (TokenKind.forall_ofWord (· ≠ .colon) (by decide) (by decide) _)
  | colon => rfl
  | other hm =>
    subst hk
    exact absurd hm (by decide)

end Shown

end Lexeme

end ManifestScan
