import ManifestScan.Proofs.Lexing.Pieces
import ManifestScan.Text.Name

namespace ManifestScan

theorem isOpening_apart : ∀ b, isOpening b = true →
    isClosing b = false ∧ Literal.isQuote b = false ∧ (b == hash) = false := by
  decide +kernel

namespace Bracket

theorem closing?_byte {b : UInt8} {depth : Nat} (h : ¬(isClosing b = true ∧ depth = 1))
    (offset : Nat) (rest : List Piece) :
    closing? depth offset (.byte b :: rest) = closing? (depthAfter b depth) (offset + 1) rest :=
  if_neg h

theorem closing?_literal (depth offset : Nat) (text : Bytes) (rest : List Piece) :
    closing? depth offset (.literal text :: rest) = closing? depth (offset + text.length) rest :=
  rfl

theorem closing?_comment (depth offset : Nat) (text : Bytes) (rest : List Piece) :
    closing? depth offset (.comment text :: rest) = closing? depth (offset + text.length) rest :=
  rfl

/-- A scan goes on behind pieces that close no more than they open. -/
theorem closing?_through {pieces rest : List Piece} {text : Bytes} {turns : List Turn}
    (h : Piece.Cover pieces text turns) {depth next : Nat}
    (ht : Turn.through depth turns = some next) (offset : Nat) :
    closing? (depth + 1) offset (pieces ++ rest) =
      closing? (next + 1) (offset + text.length) rest := by
  obtain ⟨rfl, hc, -, rfl⟩ := h
  induction pieces generalizing depth offset with
  | nil => cases ht; rfl
  | cons piece pieces ih =>
    have hc' : ∀ text, .unclosed text ∉ pieces := fun text hm => hc text (by simp [hm])
    rw [List.cons_append, List.flatMap_cons, List.length_append, ← Nat.add_assoc]
    -- A piece that is no bracket leaves the depth as it is.
    have flat :
        piece.turn? = none → Turn.through depth (pieces.filterMap Piece.turn?) = some next := by
      intro hn
      rwa [List.filterMap_cons_none hn] at ht
    cases piece with
    | unclosed text => exact absurd (List.mem_cons_self ..) (hc text)
    | literal text => exact ih _ hc' (flat rfl)
    | comment text => exact ih _ hc' (flat rfl)
    | byte b =>
      by_cases ho : isOpening b = true
      · have hn := (isOpening_apart b ho).1
        have hp : (Piece.byte b).turn? = some .opening := by simp [Piece.turn?, ho]
        rw [List.filterMap_cons_some hp] at ht
        rw [closing?_byte (by simp [hn]), depthAfter, if_pos ho]
        exact ih _ hc' ht
      · by_cases hcl : isClosing b = true
        · have hp : (Piece.byte b).turn? = some .closing := by simp [Piece.turn?, ho, hcl]
          rw [List.filterMap_cons_some hp] at ht
          cases depth with
          | zero => cases ht
          | succ depth =>
            rw [closing?_byte (by simp), depthAfter, if_neg ho, if_pos hcl]
            exact ih _ hc' ht
        · have hp : (Piece.byte b).turn? = none := by simp [Piece.turn?, ho, hcl]
          rw [closing?_byte (by simp [hcl]), depthAfter, if_neg ho, if_neg hcl]
          exact ih _ hc' (flat hp)

/-- The bracket that closes is one of the bytes. -/
theorem closing?_lt {depth offset close : Nat} {pieces : List Piece}
    (h : closing? depth offset pieces = some close) :
    close < offset + (pieces.flatMap Piece.text).length := by
  fun_induction closing? depth offset pieces with
  | case1 => cases h
  | case2 => cases h
  | case3 => cases h; simp [Piece.text]
  | case4 depth offset b rest _ ih =>
    have := ih h
    simp only [List.flatMap_cons, List.length_append, Piece.text, List.length_singleton]
    omega
  | case5 depth offset piece rest _ _ ih =>
    have := ih h
    simp only [List.flatMap_cons, List.length_append]
    simp only [Piece.width] at this
    omega

end Bracket

namespace Piece

theorem cut_unclosed {b : UInt8} {rest : Bytes} (hq : Literal.isQuote b = true)
    (ha : Literal.after? (b :: rest) = none) :
    codePieces (b :: rest) = [.unclosed (b :: rest)] := by
  unfold codePieces
  rw [cut, if_pos hq]
  split
  · rename_i he
    rw [ha] at he
    cases he
  · rfl

end Piece

theorem exists_line (text : Bytes) : ∃ line rest, text = line ++ rest ∧
    (∀ b ∈ line, (b != lineFeed) = true) ∧ rest.takeWhile (· != lineFeed) = [] := by
  refine ⟨text.takeWhile (· != lineFeed), text.dropWhile (· != lineFeed), ?_, ?_, ?_⟩
  · rw [List.takeWhile_append_dropWhile]
  · exact fun b hb => by simpa using List.mem_takeWhile_imp hb
  · rw [List.takeWhile_eq_nil_iff]
    exact fun hl => List.dropWhile_get_zero_not _ _ hl

theorem closing?_nil (depth offset : Nat) :
    Bracket.closing? depth offset (codePieces []) = none := by
  unfold codePieces
  rw [Piece.cut]
  rfl

/-- What closes a bracket in a text closes it in a longer one. -/
theorem closing?_append {depth offset close : Nat} {text : Bytes}
    (h : Bracket.closing? depth offset (codePieces text) = some close) (more : Bytes) :
    Bracket.closing? depth offset (codePieces (text ++ more)) = some close := by
  induction hk : text.length using Nat.strong_induction_on generalizing text depth offset with
  | _ n ih =>
    subst hk
    cases text with
    | nil =>
      rw [closing?_nil] at h
      cases h
    | cons b text =>
      -- By the first piece of the text, which is the same piece of the longer one: at the end of
      -- the text nothing is closed behind it.
      by_cases hq : Literal.isQuote b = true
      · cases ha : Literal.after? (b :: text) with
        | none =>
          rw [Piece.cut_unclosed hq ha] at h
          cases h
        | some after =>
          obtain ⟨body, rfl⟩ := Literal.after?_suffix ha
          rw [← List.cons_append] at ha
          rw [← List.cons_append, Piece.cut_literal hq ha, Bracket.closing?_literal] at h
          have hfirst : (after ++ more).head? = after.head? := by
            cases after with
            | nil =>
              rw [closing?_nil] at h
              cases h
            | cons => rfl
          have hmore := Literal.after?_congr ha hfirst
          rw [← List.cons_append, List.append_assoc, Piece.cut_literal hq hmore,
            Bracket.closing?_literal]
          exact ih after.length (by simp only [List.length_cons, List.length_append]; omega) h rfl
      · by_cases hh : (b == hash) = true
        · obtain rfl : b = hash := by simpa using hh
          obtain ⟨line, rest, rfl, hl, hr⟩ := exists_line text
          rw [← List.cons_append, Piece.cut_comment hl hr, Bracket.closing?_comment] at h
          have hr' : (rest ++ more).takeWhile (· != lineFeed) = [] := by
            cases rest with
            | nil =>
              rw [closing?_nil] at h
              cases h
            | cons c rest => exact Lexeme.takeWhile_eq_nil_of_head? hr rfl
          rw [← List.cons_append, List.append_assoc, Piece.cut_comment hl hr',
            Bracket.closing?_comment]
          exact ih rest.length (by simp only [List.length_cons, List.length_append]; omega) h rfl
        · rw [Piece.cut_byte (by simpa using hq) (by simpa using hh)] at h
          rw [List.cons_append, Piece.cut_byte (by simpa using hq) (by simpa using hh)]
          -- Either this bracket is the one, in both texts, or the scan goes on behind it.
          by_cases hc : isClosing b = true ∧ depth = 1
          · unfold Bracket.closing? at h ⊢
            rw [if_pos hc] at h ⊢
            exact h
          · rw [Bracket.closing?_byte hc] at h ⊢
            exact ih text.length (Nat.lt_succ_self _) h rfl

namespace Place

/-- The byte in front of what follows a text. -/
def behind (previous : Option UInt8) (text : Bytes) : Option UInt8 := text.getLast?.or previous

theorem behind_append (previous : Option UInt8) (text more : Bytes) :
    behind previous (text ++ more) = behind (behind previous text) more := by
  unfold behind
  rw [List.getLast?_append, Option.or_assoc]

/-- The places of a text, then those of what follows. -/
theorem ofPieces_append {pieces others : List Piece} {text : Bytes} {turns : List Turn}
    (h : Piece.Cover pieces text turns) (previous : Option UInt8) (offset : Nat) (rest : Bytes) :
    ofPieces previous offset (text ++ rest) (pieces ++ others) =
      ofPieces previous offset (text ++ rest) pieces ++
        ofPieces (behind previous text) (offset + text.length) rest others := by
  obtain ⟨rfl, hc, hn, -⟩ := h
  induction pieces generalizing previous offset with
  | nil => rfl
  | cons piece pieces ih =>
    have hc' : ∀ text, .unclosed text ∉ pieces := fun text hm => hc text (by simp [hm])
    have hn' : ∀ other ∈ pieces, other.text ≠ [] := fun other hm => hn other (by simp [hm])
    have hd : (piece.text ++ pieces.flatMap Piece.text ++ rest).drop piece.width =
        pieces.flatMap Piece.text ++ rest := by
      rw [List.append_assoc]
      exact List.drop_left
    -- No piece is empty, so the byte in front of the next one is its last.
    have hb : behind previous piece.text = piece.text.getLast? := by
      unfold behind
      cases hl : piece.text.getLast? with
      | none => exact absurd (List.getLast?_eq_none_iff.1 hl) (hn piece (by simp))
      | some b => rfl
    have hi := ih piece.text.getLast? (offset + piece.width) hc' hn'
    rw [List.flatMap_cons, List.cons_append, behind_append, List.length_append, ← Nat.add_assoc, hb]
    cases piece with
    | unclosed text => exact absurd (List.mem_cons_self ..) (hc text)
    | byte b =>
      rw [ofPieces, ofPieces, List.cons_append]
      exact congrArg _ hi
    | literal text =>
      rw [ofPieces.eq_def, ofPieces.eq_def _ _ _ (.literal text :: pieces)]
      dsimp only
      rw [hd]
      exact hi
    | comment text =>
      rw [ofPieces.eq_def, ofPieces.eq_def _ _ _ (.comment text :: pieces)]
      dsimp only
      rw [hd]
      exact hi

/-- A place starts with the byte that is its piece. -/
theorem head?_ofPieces {pieces : List Piece} {text : Bytes}
    (ht : pieces.flatMap Piece.text = text) (previous : Option UInt8) (offset : Nat)
    (rest : Bytes) :
    ∀ place ∈ ofPieces previous offset (text ++ rest) pieces,
      ∃ b, .byte b ∈ pieces ∧ place.rest.head? = some b := by
  subst ht
  induction pieces generalizing previous offset with
  | nil => exact nofun
  | cons piece pieces ih =>
    intro place hm
    have hd : (piece.text ++ pieces.flatMap Piece.text ++ rest).drop piece.width =
        pieces.flatMap Piece.text ++ rest := by
      rw [List.append_assoc]
      exact List.drop_left
    have later {previous : Option UInt8} {offset : Nat}
        (hm : place ∈ ofPieces previous offset (pieces.flatMap Piece.text ++ rest) pieces) :
        ∃ b, .byte b ∈ piece :: pieces ∧ place.rest.head? = some b := by
      obtain ⟨b, hb, hr⟩ := ih _ _ place hm
      exact ⟨b, List.mem_cons_of_mem _ hb, hr⟩
    rw [List.flatMap_cons, ofPieces.eq_def] at hm
    cases piece with
    | unclosed => cases hm
    | byte b =>
      rcases List.mem_cons.1 hm with rfl | hm
      · exact ⟨b, List.mem_cons_self, rfl⟩
      · exact later hm
    | literal text =>
      dsimp only at hm
      rw [hd] at hm
      exact later hm
    | comment text =>
      dsimp only at hm
      rw [hd] at hm
      exact later hm

/-- A place holds what follows in the text from its offset on. -/
theorem rest_ofPieces {text : Bytes} {previous : Option UInt8} {offset : Nat} {rest : Bytes}
    {pieces : List Piece} (hr : rest = text.drop offset) :
    ∀ place ∈ ofPieces previous offset rest pieces, place.rest = text.drop place.offset := by
  fun_induction ofPieces previous offset rest pieces with
  | case1 => exact nofun
  | case2 => exact nofun
  | case3 previous offset rest b others ih =>
    refine List.forall_mem_cons.2 ⟨hr, ih ?_⟩
    rw [hr, List.drop_drop]
  | case4 previous offset rest piece others _ _ ih =>
    refine ih ?_
    rw [hr, List.drop_drop]

theorem offset_ofPieces {pieces : List Piece} {previous : Option UInt8} {offset : Nat}
    {rest : Bytes} :
    ∀ place ∈ ofPieces previous offset rest pieces,
      offset ≤ place.offset ∧ place.offset < offset + (pieces.flatMap Piece.text).length := by
  fun_induction ofPieces previous offset rest pieces with
  | case1 => exact nofun
  | case2 => exact nofun
  | case3 previous offset rest b others ih =>
    intro place hm
    rw [List.flatMap_cons, List.length_append]
    rcases List.mem_cons.1 hm with rfl | hm
    · refine ⟨Nat.le_refl _, ?_⟩
      simp only [Piece.text, List.length_singleton]
      omega
    · have := ih place hm
      simp only [Piece.text, List.length_singleton]
      omega
  | case4 previous offset rest piece others _ _ ih =>
    intro place hm
    have := ih place hm
    rw [List.flatMap_cons, List.length_append]
    simp only [Piece.width] at this
    omega

end Place

/-- A bracket is matched by what closes it in the pieces behind it. -/
theorem matching?_opened {text rest : Bytes} {start : Nat} {b : UInt8}
    (h : text.drop start = b :: rest) (hb : isOpening b = true) :
    matching? text start = Bracket.closing? 1 (start + 1) (codePieces rest) := by
  obtain ⟨hc, hq, hh⟩ := isOpening_apart b hb
  have hd : depthAfter b 0 = 1 := if_pos hb
  unfold matching?
  rw [h]
  dsimp only
  rw [if_pos hb, Piece.cut_byte hq hh, Bracket.closing?_byte (by simp [hc]), hd]

end ManifestScan
