import ManifestScan.KeywordArgument
import ManifestScan.Proofs.Lexing.Partner
import ManifestScan.Proofs.Text.Split
import ManifestScan.Registration

namespace ManifestScan

theorem pieces_nil : pieces [] = [] := by
  unfold pieces
  rw [Piece.cut]

namespace Piece

variable {found others : List Piece} {text more : Bytes}

theorem codePieces_nil : codePieces [] = [] := by
  unfold codePieces
  rw [cut]

theorem flatMap_text_codePieces (text : Bytes) : (codePieces text).flatMap Piece.text = text :=
  flatMap_text_cut true text

theorem text_ne_nil (text : Bytes) : ∀ piece ∈ codePieces text, piece.text ≠ [] := by
  unfold codePieces
  generalize true = comments
  fun_induction cut comments text with
  | case1 => exact List.forall_mem_nil _
  | case2 _ _ _ _ _ ih => exact List.forall_mem_cons.2 ⟨List.cons_ne_nil _ _, ih⟩
  | case3 => exact List.forall_mem_cons.2 ⟨List.cons_ne_nil _ _, List.forall_mem_nil _⟩
  | case4 _ _ _ _ ih => exact List.forall_mem_cons.2 ⟨List.cons_ne_nil _ _, ih⟩
  | case5 _ _ _ _ ih => exact List.forall_mem_cons.2 ⟨List.cons_ne_nil _ _, ih⟩

theorem stop_cons (offset : Nat) (piece : Piece) (rest : List Piece) :
    offset + ((piece :: rest).flatMap Piece.text).length =
      offset + piece.width + (rest.flatMap Piece.text).length := by
  rw [List.flatMap_cons, List.length_append, Nat.add_assoc]
  rfl

/-- The first piece of a text is cut the same with another text behind it that does not make it
longer: no quote is new there, and it starts no line where a line ended. -/
theorem cut_first {b : UInt8} {piece : Piece} {others : List Piece}
    (h : codePieces (b :: text) = piece :: others) (hc : ∀ open_, piece ≠ .unclosed open_) :
    ∃ behind, b :: text = piece.text ++ behind ∧ others = codePieces behind ∧
      ∀ start, (∀ c ∈ start.head?, Literal.isQuote c = true → behind.head? = some c) →
        (start.takeWhile (· != lineFeed) = [] ∨ behind.takeWhile (· != lineFeed) ≠ []) →
        codePieces (piece.text ++ start) = piece :: codePieces start := by
  by_cases hq : Literal.isQuote b = true
  · cases ha : Literal.after? (b :: text) with
    | none =>
      rw [cut_unclosed hq ha] at h
      cases h
      exact absurd rfl (hc _)
    | some behind =>
      obtain ⟨body, rfl⟩ := Literal.after?_suffix ha
      rw [← List.cons_append] at ha h
      rw [cut_literal hq ha] at h
      cases h
      refine ⟨behind, rfl, rfl, fun start hs _ => ?_⟩
      obtain ⟨ho, hn⟩ := Literal.after?_own ha
      -- Two quotes are a literal of their own unless a third one is behind them.
      have hhead : body = [b] → start.head? ≠ some b := by
        intro hb hh
        exact hn hb (hs b hh hq)
      have hown := Literal.after?_append ho hhead
      rw [List.nil_append, ← List.cons_append] at hown
      exact cut_literal hq hown
  by_cases hh : (b == hash) = true
  · obtain rfl : b = hash := by simpa using hh
    obtain ⟨line, behind, rfl, hl, hr⟩ := exists_line text
    rw [← List.cons_append, cut_comment hl hr] at h
    cases h
    refine ⟨behind, rfl, rfl, fun start _ hs => ?_⟩
    exact cut_comment hl (hs.resolve_right fun hn => hn hr)
  · have hb : ∀ rest, codePieces (b :: rest) = .byte b :: codePieces rest :=
      cut_byte (by simpa using hq) (by simpa using hh)
    rw [hb] at h
    cases h
    exact ⟨text, rfl, rfl, fun start _ _ => hb start⟩

/-- The pieces that make up the start of a text stay the same with another text behind it. -/
theorem cut_anew {rest : Bytes} (h : codePieces (text ++ more) = found ++ others)
    (ht : found.flatMap Piece.text = text) (hc : ∀ open_, .unclosed open_ ∉ found)
    (hq : ∀ c ∈ rest.head?, Literal.isQuote c = false)
    (hl : rest.takeWhile (· != lineFeed) = [] ∨ more.takeWhile (· != lineFeed) ≠ []) :
    codePieces (text ++ rest) = found ++ codePieces rest := by
  induction found generalizing text with
  | nil =>
    subst ht
    rfl
  | cons piece found ih =>
    subst ht
    have hm : piece ∈ codePieces ((piece :: found).flatMap Piece.text ++ more) := by
      rw [h]
      exact List.mem_cons_self
    obtain ⟨b, text, hb⟩ := List.exists_cons_of_ne_nil (text_ne_nil _ piece hm)
    rw [List.flatMap_cons, List.append_assoc, hb, List.cons_append, List.cons_append] at h
    obtain ⟨behind, he, hothers, hstart⟩ :=
      cut_first h fun open_ hp => hc open_ (hp ▸ List.mem_cons_self)
    rw [← List.cons_append, ← hb, List.append_cancel_left_eq] at he
    subst he
    have hanew := ih hothers.symm rfl fun open_ hm => hc open_ (List.mem_cons_of_mem _ hm)
    rw [List.flatMap_cons, List.append_assoc, hstart, hanew, List.cons_append]
    -- Behind this piece stands the next one as before, or if there is none the other text.
    · cases found.flatMap Piece.text with
      | nil =>
        intro c hr hcq
        rw [hq c hr] at hcq
        cases hcq
      | cons d front =>
        intro c hr _
        exact hr
    · cases found.flatMap Piece.text with
      | nil => exact hl
      | cons d front =>
        by_cases hd : d = lineFeed
        · subst hd
          exact .inl rfl
        · right
          rw [List.cons_append, List.takeWhile_cons_of_pos (by simpa using hd)]
          exact List.cons_ne_nil _ _

/-- The pieces that make up the start of a text are those of the start alone. -/
theorem cut_own (h : codePieces (text ++ more) = found ++ others)
    (ht : found.flatMap Piece.text = text) (hc : ∀ open_, .unclosed open_ ∉ found) :
    codePieces text = found := by
  have hown : codePieces (text ++ []) = found ++ codePieces [] :=
    cut_anew h ht hc nofun (.inl rfl)
  rwa [List.append_nil, codePieces_nil, List.append_nil] at hown

end Piece

namespace Bracket

variable {depth offset close : Nat} {pieces : List Piece} {b : UInt8}

theorem depthAfter_ne_zero (hd : depth ≠ 0) (hb : ¬(isClosing b = true ∧ depth = 1)) :
    depthAfter b depth ≠ 0 := by
  unfold depthAfter
  split
  · omega
  · split
    · rename_i hc
      have hone : depth ≠ 1 := fun hone => hb ⟨hc, hone⟩
      omega
    · exact hd

theorem closing?_plain (hb : isOpening b = false ∧ isClosing b = false) (depth offset : Nat)
    (rest : List Piece) :
    closing? depth offset (.byte b :: rest) = closing? depth (offset + 1) rest := by
  rw [closing?_byte (by simp [hb]), depthAfter, hb.1, hb.2]
  rfl

/-- A bracket is closed by what stands up to the bracket that closes it. -/
theorem closing?_split (h : closing? depth offset pieces = some close) :
    ∃ inner last others, pieces = inner ++ .byte last :: others ∧
      close = offset + (inner.flatMap Piece.text).length ∧ (∀ open_, .unclosed open_ ∉ inner) ∧
      ∀ start, closing? depth start (inner ++ [.byte last]) =
        some (start + (inner.flatMap Piece.text).length) := by
  fun_induction closing? depth offset pieces with
  | case1 => cases h
  | case2 => cases h
  | case3 depth offset b rest hb =>
    cases h
    exact ⟨[], b, rest, rfl, rfl, by simp, fun start => if_pos hb⟩
  | case4 depth offset b rest hb ih =>
    obtain ⟨inner, last, others, rfl, rfl, hc, hi⟩ := ih h
    refine ⟨.byte b :: inner, last, others, rfl, (Piece.stop_cons offset (.byte b) inner).symm,
      by simpa using hc, ?_⟩
    intro start
    rw [List.cons_append, closing?_byte hb, hi, Piece.stop_cons]
    rfl
  | case5 depth offset piece rest hn hb ih =>
    obtain ⟨inner, last, others, rfl, rfl, hc, hi⟩ := ih h
    refine ⟨piece :: inner, last, others, rfl, (Piece.stop_cons ..).symm, ?_, fun start => ?_⟩
    · intro open_ hm
      rcases List.mem_cons.1 hm with rfl | hm
      · exact hn _ rfl
      · exact hc open_ hm
    · rw [Piece.stop_cons, ← hi]
      cases piece with
      | byte b => exact absurd rfl (hb b)
      | unclosed text => exact absurd rfl (hn text)
      | literal text => rfl
      | comment text => rfl

end Bracket

namespace ArgumentList

def Depths.total (depths : Depths) : Nat := depths.parens + depths.brackets + depths.braces

variable {start offset depth close : Nat} {depths : Depths} {pending : Pending}
  {done : List KeywordArgument} {pieces : List Piece}

theorem start_read (start : Nat) (depths : Depths) (pending : Pending) (offset : Nat)
    (done : List KeywordArgument) (pieces : List Piece) :
    (read start depths pending offset done pieces).start = start := by
  fun_induction read start depths pending offset done pieces with
  | case1 => rfl
  | case2 => rfl
  | case3 _ _ _ _ _ _ ih => exact ih
  | case4 _ _ _ _ _ _ ih => exact ih
  | case5 _ _ _ _ _ _ _ ih => exact ih
  | case6 _ _ _ _ _ _ _ _ ih => exact ih
  | case7 => rfl
  | case8 _ _ _ _ _ _ _ _ _ _ _ ih => exact ih
  | case9 => rfl
  | case10 => rfl
  | case11 => rfl
  | case12 _ _ _ _ _ _ _ _ _ _ ih => exact ih

/-- Counted together, brackets are never deeper than counted by their kind. -/
theorem Depths.depthAfter_le (h : depth ≤ depths.total + 1) (b : UInt8) :
    depthAfter b depth ≤ (depths.after b).total + 1 := by
  unfold Depths.after Depths.total at *
  by_cases ho : isOpening b = true
  · have hb : b = leftParen ∨ b = 0x5B ∨ b = 0x7B := by simpa [isOpening, or_assoc] using ho
    rw [depthAfter, if_pos ho]
    rcases hb with rfl | rfl | rfl <;> simp [leftParen, rightParen] <;> omega
  · by_cases hc : isClosing b = true
    · have hb : b = rightParen ∨ b = 0x5D ∨ b = 0x7D := by simpa [isClosing, or_assoc] using hc
      rw [depthAfter, if_neg ho, if_pos hc]
      rcases hb with rfl | rfl | rfl <;> simp [leftParen, rightParen] <;> omega
    · rw [depthAfter, if_neg ho, if_neg hc]
      simp only [isOpening, isClosing, Bool.or_eq_true, beq_iff_eq, not_or] at ho hc
      simpa only [ho, hc, if_false] using h

/-- A list that is read without failure ends at the bracket where as many are closed as were opened,
if nothing follows that. -/
theorem stop_read (hd : depth ≠ 0) (hle : depth ≤ depths.total + 1)
    (hn : ∀ piece ∈ pieces, piece.text ≠ [])
    (hc : Bracket.closing? depth offset pieces = some close)
    (hl : close + 1 = offset + (pieces.flatMap Piece.text).length)
    (hf : (read start depths pending offset done pieces).failure = none) :
    (read start depths pending offset done pieces).stop = close := by
  have hskip : ∀ b, (isSpace b || b == lineFeed || b == carriageReturn) = true →
      isOpening b = false ∧ isClosing b = false := by
    decide +kernel
  fun_induction read start depths pending offset done pieces generalizing depth with
  | case1 => cases hf
  | case2 => cases hf
  | case3 depths pending offset done text rest ih =>
    rw [Bracket.closing?_literal] at hc
    rw [Piece.stop_cons] at hl
    exact ih hd hle (List.forall_mem_cons.1 hn).2 hc hl hf
  | case4 depths pending offset done text rest ih =>
    rw [Bracket.closing?_comment] at hc
    rw [Piece.stop_cons] at hl
    exact ih hd hle (List.forall_mem_cons.1 hn).2 hc hl hf
  | case5 depths pending offset done b rest hs ih =>
    simp only [Pending.skips, Bool.and_eq_true] at hs
    rw [Bracket.closing?_plain (hskip b hs.2)] at hc
    rw [Piece.stop_cons] at hl
    exact ih hd hle (List.forall_mem_cons.1 hn).2 hc hl hf
  | case6 depths pending offset done b rest _ he ih =>
    rw [Bracket.closing?_plain (by rw [he.1]; decide)] at hc
    rw [Piece.stop_cons] at hl
    exact ih hd hle (List.forall_mem_cons.1 hn).2 hc hl hf
  | case7 => cases hf
  | case8 depths pending offset done b rest _ _ hb arguments _ ih =>
    rw [Bracket.closing?_plain (by rw [hb.1]; decide)] at hc
    rw [Piece.stop_cons] at hl
    exact ih hd hle (List.forall_mem_cons.1 hn).2 hc hl hf
  | case9 => cases hf
  | case10 pending offset done b rest _ arguments _ _ _ hb =>
    -- No bracket is open in the list, so its own parenthesis is the only one.
    obtain rfl : depth = 1 := by
      have : Depths.zero.total = 0 := rfl
      omega
    have hr : isClosing b = true ∧ 1 = 1 := ⟨by rw [hb.1]; decide, rfl⟩
    rw [Bracket.closing?, if_pos hr] at hc
    exact Option.some.inj hc
  | case11 => cases hf
  | case12 depths pending offset done b rest _ _ _ hb ih =>
    rw [Piece.stop_cons] at hl
    have hn' := (List.forall_mem_cons.1 hn).2
    by_cases hclose : isClosing b = true ∧ depth = 1
    · -- Nothing follows the last bracket, so a list that goes on is not closed.
      rw [Bracket.closing?, if_pos hclose] at hc
      cases hc
      have hl : close + 1 = close + 1 + (rest.flatMap Piece.text).length := hl
      cases rest with
      | nil => cases hf
      | cons piece rest =>
        have := List.length_pos_iff.2 (hn' piece List.mem_cons_self)
        rw [List.flatMap_cons, List.length_append] at hl
        omega
    · rw [Bracket.closing?_byte hclose] at hc
      exact ih (Bracket.depthAfter_ne_zero hd hclose) (Depths.depthAfter_le hle b) hn' hc hl hf

end ArgumentList

namespace Registration

/-- The parenthesis of the call: the first one that is in no comment and no literal. A
callee has none. -/
def parenthesis? (registration : Registration) : Option Nat :=
  ((codePlaces registration.text 0).find? (·.rest.head? == some leftParen)).map (·.offset)

/-- The text of a call: what stands in front of its parenthesis, and its arguments up to the bracket
that closes them. -/
structure Spelled (registration : Registration) (front arguments : Bytes) (last : UInt8) :
    Prop where
  text_eq : registration.text = front ++ leftParen :: (arguments ++ [last])
  front_unturned : Unturned (leftParen :: (arguments ++ [last])) front
  closes : ∀ start, Bracket.closing? 1 start (codePieces (arguments ++ [last])) =
    some (start + arguments.length)

variable {registration : Registration} {front arguments rest : Bytes} {last : UInt8}

/-- What a parenthesis encloses in a longer text it encloses in the text of its call. -/
theorem Spelled.of_matching {source : Bytes} {start close : Nat}
    (hd : source.drop start = front ++ leftParen :: rest) (hf : Unturned (leftParen :: rest) front)
    (hm : matching? source (start + front.length) = some close)
    (ht : registration.text = slice source start (close + 1)) :
    ∃ arguments last, registration.Spelled front arguments last := by
  have hparen : source.drop (start + front.length) = leftParen :: rest := by
    rw [← List.drop_drop, hd, List.drop_left]
  rw [matching?_opened hparen (by decide)] at hm
  obtain ⟨inner, last, others, hp, hclose, hc, hi⟩ := Bracket.closing?_split hm
  generalize harguments : inner.flatMap Piece.text = arguments at hclose hi
  have hrest : rest = (arguments ++ [last]) ++ others.flatMap Piece.text := by
    rw [← Piece.flatMap_text_cut true rest, show Piece.cut true rest = _ from hp,
      List.flatMap_append, List.flatMap_cons, harguments, List.append_assoc]
    rfl
  -- The pieces up to the bracket are cut the same without what follows it.
  have hlist : codePieces (arguments ++ [last]) = inner ++ [.byte last] := by
    refine @Piece.cut_own _ others _ (others.flatMap Piece.text) ?_ ?_ (by simpa using hc)
    · rw [← hrest, hp, List.append_assoc]
      rfl
    · rw [List.flatMap_append, harguments]
      rfl
  obtain ⟨found, hfound, hcover⟩ := hf
  have hcut : ∀ rest, codePieces (leftParen :: rest) = .byte leftParen :: codePieces rest :=
    Piece.cut_byte rfl rfl
  refine ⟨arguments, last, ?_, ⟨found, ?_, hcover⟩, fun start => ?_⟩
  · have hlen : close + 1 - start = (front ++ leftParen :: (arguments ++ [last])).length := by
      rw [hclose]
      simp only [List.length_append, List.length_cons, List.length_nil]
      omega
    have hspelled : source.drop start =
        (front ++ leftParen :: (arguments ++ [last])) ++ others.flatMap Piece.text := by
      rw [hd, hrest]
      simp only [List.append_assoc, List.cons_append]
    rw [ht, slice, hspelled, hlen, List.take_left]
  · rw [hcut, hlist]
    refine @Piece.cut_own _ others _ (others.flatMap Piece.text) ?_ ?_ ?_
    · rw [List.append_assoc, List.cons_append, ← hrest, hfound, hcut, hp]
      simp
    · rw [List.flatMap_append, List.flatMap_cons, List.flatMap_append, hcover.text_eq, harguments]
      rfl
    · intro open_ hm
      simp only [List.mem_append, List.mem_cons, List.not_mem_nil, or_false, reduceCtorEq,
        false_or] at hm
      exact hm.elim (hcover.closed open_) (hc open_)
  · rw [hlist]
    exact hi start

namespace Spelled

variable (h : registration.Spelled front arguments last)

include h

theorem parenthesis?_eq : registration.parenthesis? = some front.length := by
  obtain ⟨found, hf, hc⟩ := h.front_unturned
  unfold parenthesis? codePlaces
  rw [h.text_eq, List.drop_zero, hf, Place.ofPieces_append hc, List.find?_append,
    Piece.cut_byte (by decide) (by decide), Place.ofPieces, List.find?_cons_of_pos (by rfl)]
  -- No bracket is in front of it.
  have hnone (previous : Option UInt8) :
      (Place.ofPieces previous 0 (front ++ leftParen :: (arguments ++ [last])) found).find?
        (·.rest.head? == some leftParen) = none := by
    refine List.find?_eq_none.2 fun place hm hp => ?_
    obtain ⟨b, hb, hr⟩ := Place.head?_ofPieces hc.text_eq _ _ _ place hm
    obtain rfl : b = leftParen := by simpa [hr] using hp
    have ht : (Piece.byte leftParen).turn? ≠ none := by decide
    exact ht (List.filterMap_eq_nil_iff.1 hc.turns_eq _ hb)
  rw [hnone, Nat.zero_add]
  rfl

/-- The list is read from the call's parenthesis to the end unless another one stands in front. -/
theorem range_iff (hf : (ArgumentList.ofCall registration.text).failure = none) :
    ((ArgumentList.ofCall registration.text).start = front.length + 1 ∧
      (ArgumentList.ofCall registration.text).stop + 1 = registration.text.length) ↔
      leftParen ∉ registration.text.take front.length := by
  have ofCall_eq {before behind : Bytes} (hn : leftParen ∉ before) :
      ArgumentList.ofCall (before ++ leftParen :: behind) =
        ArgumentList.read (before.length + 1) .zero (.opened (before.length + 1))
          (before.length + 1) [] (codePieces behind) := by
    unfold ArgumentList.ofCall
    rw [splitFirst?_append hn]
  rw [h.text_eq] at hf ⊢
  rw [List.take_left]
  constructor
  · rintro ⟨hs, -⟩ hm
    obtain ⟨before, behind, rfl, hn⟩ := List.eq_append_cons_of_mem hm
    rw [List.append_assoc, List.cons_append, ofCall_eq hn, ArgumentList.start_read] at hs
    simp only [List.length_append, List.length_cons] at hs
    omega
  · intro hn
    rw [ofCall_eq hn] at hf ⊢
    generalize hstart : front.length + 1 = start at hf ⊢
    have hend : start + arguments.length + 1 =
        start + ((codePieces (arguments ++ [last])).flatMap Piece.text).length := by
      rw [show (codePieces (arguments ++ [last])).flatMap Piece.text = _ from
        Piece.flatMap_text_cut true _, List.length_append, Nat.add_assoc]
      rfl
    have hstop := ArgumentList.stop_read (by decide) (by decide) (Piece.text_ne_nil _)
      (h.closes start) hend hf
    refine ⟨ArgumentList.start_read .., ?_⟩
    rw [hstop, ← hstart]
    simp only [List.length_append, List.length_cons, List.length_nil]
    omega

end Spelled

end Registration

end ManifestScan
