import ManifestScan.Proofs.Lexing.Sound
import ManifestScan.Proofs.Text.Literal

namespace ManifestScan

/-- What a bracket does to the depth. The three kinds of bracket are one. -/
inductive Turn where
  | opening
  | closing
deriving DecidableEq

/-- The depth behind the turns, unless one of them closes what nothing opened. -/
def Turn.through : Nat → List Turn → Option Nat
  | depth, [] => some depth
  | depth, .opening :: turns => through (depth + 1) turns
  | 0, .closing :: _ => none
  | depth + 1, .closing :: turns => through depth turns

theorem Turn.through_append (depth : Nat) (turns others : List Turn) :
    through depth (turns ++ others) = (through depth turns).bind (through · others) := by
  fun_induction through depth turns with
  | case1 => rfl
  | case2 depth turns ih => exact ih
  | case3 => rfl
  | case4 depth turns ih => exact ih

theorem Turn.through_add {depth next : Nat} {turns : List Turn}
    (h : through depth turns = some next) (more : Nat) :
    through (more + depth) turns = some (more + next) := by
  fun_induction through depth turns with
  | case1 => cases h; rfl
  | case2 depth turns ih => exact ih h
  | case3 => cases h
  | case4 depth turns ih => exact ih h

def TokenKind.turn? (kind : TokenKind) : Option Turn :=
  if kind.isOpening then some .opening else if kind.isClosing then some .closing else none

def Lexeme.turn? (lexeme : Lexeme) : Option Turn :=
  match lexeme.kind with
  | .token kind => kind.turn?
  | _ => none

namespace Piece

def turn? : Piece → Option Turn
  | .byte b => if isOpening b then some .opening else if isClosing b then some .closing else none
  | _ => none

/-- The pieces are those of a text with the given turns, and all its literals have an end. -/
structure Cover (pieces : List Piece) (text : Bytes) (turns : List Turn) : Prop where
  text_eq : pieces.flatMap Piece.text = text
  closed : ∀ open_, .unclosed open_ ∉ pieces
  nonempty : ∀ piece ∈ pieces, piece.text ≠ []
  turns_eq : pieces.filterMap turn? = turns

theorem Cover.append {first second : List Piece} {front behind : Bytes} {turns others : List Turn}
    (h : Cover first front turns) (h' : Cover second behind others) :
    Cover (first ++ second) (front ++ behind) (turns ++ others) := by
  refine ⟨?_, ?_, ?_, ?_⟩
  · rw [List.flatMap_append, h.text_eq, h'.text_eq]
  · intro text hm
    rcases List.mem_append.1 hm with hm | hm
    · exact h.closed text hm
    · exact h'.closed text hm
  · intro piece hm
    rcases List.mem_append.1 hm with hm | hm
    · exact h.nonempty piece hm
    · exact h'.nonempty piece hm
  · rw [List.filterMap_append, h.turns_eq, h'.turns_eq]

theorem Cover.bytes (text : Bytes) :
    Cover (text.map .byte) text ((text.map .byte).filterMap turn?) := by
  refine ⟨?_, ?_, ?_, rfl⟩
  · induction text with
    | nil => rfl
    | cons b text ih =>
      rw [List.map_cons, List.flatMap_cons, ih]
      rfl
  · intro open_ hm
    obtain ⟨b, -, hb⟩ := List.mem_map.1 hm
    cases hb
  · intro piece hm
    obtain ⟨b, -, rfl⟩ := List.mem_map.1 hm
    exact List.cons_ne_nil _ _

theorem cut_byte {b : UInt8} (hq : Literal.isQuote b = false) (hh : (b == hash) = false)
    (rest : Bytes) : codePieces (b :: rest) = .byte b :: codePieces rest := by
  unfold codePieces
  rw [cut, if_neg (by simp [hq]), if_neg (by simp [hh])]

theorem cut_comment {text rest : Bytes} (ht : ∀ b ∈ text, (b != lineFeed) = true)
    (hr : rest.takeWhile (· != lineFeed) = []) :
    codePieces (hash :: text ++ rest) = .comment (hash :: text) :: codePieces rest := by
  have hd : rest.dropWhile (· != lineFeed) = rest := by
    have := @List.takeWhile_append_dropWhile _ (· != lineFeed) rest
    rwa [hr, List.nil_append] at this
  unfold codePieces
  rw [List.cons_append, cut, if_neg (by decide), if_pos (by decide),
    List.takeWhile_append_of_pos ht, List.dropWhile_append_of_pos ht, hr, hd, List.append_nil]

theorem cut_literal {body rest : Bytes} {quote : UInt8} (hq : Literal.isQuote quote = true)
    (ha : Literal.after? (quote :: body ++ rest) = some rest) :
    codePieces (quote :: body ++ rest) = .literal (quote :: body) :: codePieces rest := by
  unfold codePieces
  rw [List.cons_append] at ha ⊢
  rw [cut, if_pos hq]
  split
  · rename_i after he
    rw [ha] at he
    cases he
    simp
  · rename_i he
    rw [ha] at he
    cases he

end Piece

namespace Lexeme

open Piece

theorem codePieces_bytes {text : Bytes}
    (ht : ∀ b ∈ text, Literal.isQuote b = false ∧ (b == hash) = false) (rest : Bytes) :
    codePieces (text ++ rest) = text.map .byte ++ codePieces rest := by
  induction text with
  | nil => rfl
  | cons b text ih =>
    obtain ⟨hq, hh⟩ := ht b (by simp)
    rw [List.cons_append, cut_byte hq hh, List.map_cons, ih fun c hc => ht c (by simp [hc])]
    rfl

theorem codePieces_inert {text : Bytes} (hi : Inert text) (rest : Bytes) :
    codePieces (text ++ rest) = text.map .byte ++ codePieces rest := by
  apply codePieces_bytes
  intro b hb
  have hb := hi b hb
  simp only [isInert, Bool.and_eq_true, Bool.not_eq_true', bne, beq_eq_false_iff_ne] at hb ⊢
  exact ⟨hb.1.1.1, by simpa using hb.1.1.2⟩

theorem turns_inert {text : Bytes} (hi : Inert text) :
    (text.map Piece.byte).filterMap Piece.turn? = [] := by
  rw [List.filterMap_eq_nil_iff]
  intro piece hp
  obtain ⟨b, hb, rfl⟩ := List.mem_map.1 hp
  have h := hi b hb
  simp only [isInert, Bool.and_eq_true, Bool.not_eq_true'] at h
  simp [Piece.turn?, h]

theorem turn?_of_isFlat {kind : TokenKind} (hf : kind.isFlat = true) : kind.turn? = none := by
  simp only [TokenKind.isFlat, Bool.and_eq_true, Bool.not_eq_true'] at hf
  simp [TokenKind.turn?, hf]

theorem takeWhile_eq_nil_of_head? {p : UInt8 → Bool} {text others : Bytes}
    (h : text.takeWhile p = []) (ho : others.head? = text.head?) : others.takeWhile p = [] := by
  cases others with
  | nil => rfl
  | cons b others =>
    cases text with
    | nil => cases ho
    | cons c text =>
      cases ho
      by_cases hp : p b = true
      · rw [List.takeWhile_cons_of_pos hp] at h
        cases h
      · exact List.takeWhile_cons_of_neg hp

/-- A scan of brackets takes a lexeme in pieces of its own, which turn as its token does. They stay
the same where the text behind starts with the same byte. -/
theorem Sound.pieces {rest : Bytes} {lexeme : Lexeme} (h : Sound rest lexeme) :
    ∃ found, (∀ others : Bytes, others.head? = rest.head? →
        codePieces (lexeme.text ++ others) = found ++ codePieces others) ∧
      Cover found lexeme.text lexeme.turn?.toList := by
  cases h with
  | inert hi hf =>
    refine ⟨_, fun others _ => codePieces_inert hi others, ?_⟩
    have ht : lexeme.turn? = none := by
      unfold turn?
      unfold isFlat at hf
      split at hf <;> simp_all [turn?_of_isFlat]
    rw [ht]
    have := Cover.bytes lexeme.text
    rwa [turns_inert hi] at this
  | @bracket b kind hb hq hh ho hc =>
    refine ⟨[.byte b], fun others _ => cut_byte hq hh others, ?_⟩
    have hk : (Piece.byte b).turn? = kind.turn? := by
      simp only [Piece.turn?, TokenKind.turn?, ho, hc]
    refine ⟨rfl, by simp, by simp [Piece.text], ?_⟩
    show List.filterMap Piece.turn? [.byte b] = kind.turn?.toList
    rw [← hk]
    cases h : (Piece.byte b).turn? <;> simp [h]
  | @comment text ht hr =>
    -- A comment reaches up to the line end, so what stands behind it has to start with one.
    exact ⟨[.comment (hash :: text)],
      fun others ho => cut_comment ht (takeWhile_eq_nil_of_head? hr ho),
      by simp [Piece.text], by simp, by simp [Piece.text], rfl⟩
  | @literal mark body quote hm hq ha =>
    -- Two quotes and a third behind them would open a longer literal, hence the first byte.
    refine ⟨mark.map .byte ++ [.literal (quote :: body)], fun others ho => ?_, ?_⟩
    · rw [List.append_assoc, codePieces_inert hm, cut_literal hq (Literal.after?_congr ha ho),
        List.append_assoc]
      rfl
    · have hl : Cover [.literal (quote :: body)] (quote :: body) [] :=
        ⟨by simp [Piece.text], by simp, by simp [Piece.text], rfl⟩
      have hb := Cover.bytes mark
      rw [turns_inert hm] at hb
      exact hb.append hl

end Lexeme

end ManifestScan
