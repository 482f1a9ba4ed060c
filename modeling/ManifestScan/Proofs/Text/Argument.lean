import ManifestScan.Proofs.Text.Lines
import ManifestScan.Proofs.Text.Parenthesis

namespace ManifestScan

namespace Piece

def isIdle : Piece → Bool
  | .byte b => isSpace b || b == lineFeed || b == carriageReturn
  | .comment _ => true
  | .literal _ | .unclosed _ => false

variable {text : Bytes} {front others : List Piece}

/-- What follows a piece is cut as a text of its own. -/
theorem codePieces_tail {piece : Piece} (h : codePieces text = piece :: others) :
    codePieces (others.flatMap Piece.text) = others := by
  obtain ⟨b, rest, rfl⟩ := List.exists_cons_of_ne_nil
    (show text ≠ [] by rintro rfl; rw [codePieces_nil] at h; cases h)
  by_cases hc : ∃ open_, piece = .unclosed open_
  · -- A literal without an end takes all that follows.
    obtain ⟨open_, rfl⟩ := hc
    have hall := flatMap_text_codePieces (b :: rest)
    have ho : others = [] := by
      unfold codePieces at h
      rw [cut] at h
      split at h
      · split at h <;> cases h
        rfl
      · split at h <;> cases h
    rw [ho]
    exact codePieces_nil
  · obtain ⟨behind, -, rfl, -⟩ := cut_first h fun open_ he => hc ⟨open_, he⟩
    rw [flatMap_text_codePieces]

theorem codePieces_behind (h : codePieces text = front ++ others) :
    codePieces (others.flatMap Piece.text) = others := by
  induction front generalizing text with
  | nil =>
    rw [List.nil_append] at h
    rw [← h, flatMap_text_codePieces]
  | cons piece front ih => exact ih (codePieces_tail h)

theorem text_of_codePieces (h : codePieces text = front ++ others) :
    text = front.flatMap Piece.text ++ others.flatMap Piece.text := by
  rw [← List.flatMap_append, ← h, flatMap_text_codePieces]

end Piece

def IsIdle (text : Bytes) : Prop := ∀ piece ∈ codePieces text, piece.isIdle = true

instance (text : Bytes) : Decidable (IsIdle text) :=
  inferInstanceAs (Decidable (∀ piece ∈ codePieces text, piece.isIdle = true))

namespace KeywordArgument

def segment (text : Bytes) (argument : KeywordArgument) : Bytes :=
  slice text argument.start argument.stop

end KeywordArgument

namespace ArgumentList

/-- The arguments take up a text from `start` to `stop`, with a comma behind each but the last, and
behind that nothing, or a comma and nothing of an argument. -/
inductive Tiles (text : Bytes) (stop : Nat) : Nat → List KeywordArgument → Prop
  | none {start : Nat} (hle : start ≤ stop) (hi : IsIdle (slice text start stop)) :
    Tiles text stop start []
  | last {argument : KeywordArgument} (hle : argument.start ≤ argument.stop)
    (hs : argument.stop = stop) : Tiles text stop argument.start [argument]
  | cons {argument : KeywordArgument} {others : List KeywordArgument}
    (hle : argument.start ≤ argument.stop) (hc : text[argument.stop]? = some comma)
    (h : Tiles text stop (argument.stop + 1) others) :
    Tiles text stop argument.start (argument :: others)

/-- An argument with an identifier for its key and no blanks around its value. -/
structure IsNeat (argument : KeywordArgument) : Prop where
  isIdentifier_key : isIdentifier argument.key = true
  trim_value : trim argument.value = argument.value

variable {text : Bytes} {start stop offset : Nat} {depths : Depths} {pending : Pending}
  {done more : List KeywordArgument} {taken pieces rest : List Piece} {b : UInt8}

/-- Where a list is being read: the pieces behind the last separator are `taken` so far and `pieces`
in front, and an argument without a byte of its own has only met what is idle. -/
structure Stands (text : Bytes) (pending : Pending) (offset : Nat)
    (taken pieces : List Piece) : Prop where
  cut : codePieces (text.drop pending.start) = taken ++ pieces
  offset_eq : offset = pending.start + (taken.flatMap Piece.text).length
  idle : pending.value = none → pending.key = [] → ∀ piece ∈ taken, piece.isIdle = true

namespace Stands

theorem codePieces_eq (h : Stands text pending offset taken pieces) :
    codePieces (text.drop offset) = pieces := by
  have ht := Piece.text_of_codePieces h.cut
  rw [h.offset_eq, ← List.drop_drop, ht, List.drop_left]
  exact Piece.codePieces_behind h.cut

theorem text_ne_nil (h : Stands text pending offset taken pieces) :
    ∀ piece ∈ pieces, piece.text ≠ [] :=
  h.codePieces_eq ▸ Piece.text_ne_nil (text.drop offset)

theorem start_le (h : Stands text pending offset taken pieces) : pending.start ≤ offset := by
  rw [h.offset_eq]
  exact Nat.le_add_right _ _

/-- One piece further, where the argument has got a byte if the piece is not idle. -/
theorem move {piece : Piece} {next : Pending}
    (h : Stands text pending offset taken (piece :: rest)) (hs : next.start = pending.start)
    (hi : next.value = none → next.key = [] →
      pending.value = none ∧ pending.key = [] ∧ piece.isIdle = true) :
    Stands text next (offset + piece.width) (taken ++ [piece]) rest := by
  refine ⟨?_, ?_, fun hv hk => ?_⟩
  · rw [hs, h.cut, List.append_assoc]
    rfl
  · rw [h.offset_eq, hs, List.flatMap_append, List.length_append, List.flatMap_singleton,
      Nat.add_assoc]
    rfl
  · obtain ⟨hv, hk, hp⟩ := hi hv hk
    exact List.forall_mem_append.2 ⟨h.idle hv hk, List.forall_mem_singleton.2 hp⟩

/-- Text that goes to the argument is a byte of its own. -/
theorem append {piece : Piece} (h : Stands text pending offset taken (piece :: rest)) :
    Stands text (pending.append piece.text) (offset + piece.width) (taken ++ [piece]) rest := by
  have hn := h.text_ne_nil piece List.mem_cons_self
  obtain ⟨key, value, start⟩ := pending
  cases value with
  | none => exact h.move rfl fun _ hk => absurd (List.append_eq_nil_iff.1 hk).2 hn
  | some value => exact h.move rfl nofun

/-- Behind a separator a new argument is opened. -/
theorem opened (h : Stands text pending offset taken (.byte b :: rest)) :
    Stands text (.opened (offset + 1)) (offset + 1) [] rest := by
  refine ⟨?_, rfl, fun _ _ => List.forall_mem_nil _⟩
  have ht := Piece.codePieces_tail h.codePieces_eq
  have hd := Piece.flatMap_text_codePieces (text.drop offset)
  rw [h.codePieces_eq, List.flatMap_cons] at hd
  rw [Pending.opened, ← List.drop_drop, ← hd]
  exact ht

theorem getElem?_eq (h : Stands text pending offset taken (.byte b :: rest)) :
    text[offset]? = some b := by
  have hd := Piece.flatMap_text_codePieces (text.drop offset)
  rw [h.codePieces_eq, List.flatMap_cons] at hd
  rw [← Nat.add_zero offset, ← List.getElem?_drop, ← hd]
  rfl

/-- An argument that has got no byte of its own. -/
theorem isIdle_slice (h : Stands text pending offset taken pieces) (hv : pending.value = none)
    (hk : pending.key = []) : IsIdle (slice text pending.start offset) := by
  have hi := h.idle hv hk
  have hs : slice text pending.start offset = taken.flatMap Piece.text := by
    rw [slice, h.offset_eq, Nat.add_sub_cancel_left, Piece.text_of_codePieces h.cut, List.take_left]
  have hc : ∀ open_, .unclosed open_ ∉ taken :=
    fun open_ hm => by simpa [Piece.isIdle] using hi _ hm
  unfold IsIdle
  have hown :
      codePieces (taken.flatMap Piece.text ++ pieces.flatMap Piece.text) = taken ++ pieces := by
    rw [← Piece.text_of_codePieces h.cut, h.cut]
  rw [hs, Piece.cut_own hown rfl hc]
  exact hi

end Stands

/-- What the end of an argument adds to the list. -/
theorem finish_cases {isLast : Bool} {arguments : List KeywordArgument}
    (h : pending.finish stop isLast = .ok arguments) :
    (pending.value = none ∧ pending.key = [] ∧ isLast = true ∧ arguments = []) ∨
      ∃ argument, arguments = [argument] ∧ argument.start = pending.start ∧
        argument.stop = stop ∧ IsNeat argument := by
  unfold Pending.finish at h
  split at h
  · rename_i hv
    split at h
    · rename_i hk
      split at h
      · rename_i hl
        cases h
        exact .inl ⟨hv, List.isEmpty_iff.1 hk, hl, rfl⟩
      · cases h
    · dsimp only at h
      split at h <;> cases h
  · dsimp only at h
    split at h
    · rename_i hk
      cases h
      exact .inr ⟨_, rfl, rfl, rfl, hk, trim_trim _⟩
    · cases h

/-- A list that is read without failure tiles the text from the argument that is being read on. -/
theorem tiles_read (h : Stands text pending offset taken pieces)
    (hf : (read start depths pending offset done pieces).failure = none) :
    ∃ more, (read start depths pending offset done pieces).arguments = done ++ more ∧
      text[(read start depths pending offset done pieces).stop]? = some rightParen ∧
      Tiles text (read start depths pending offset done pieces).stop pending.start more ∧
      ∀ argument ∈ more, IsNeat argument := by
  -- Along the scan. Only a separator and the closing parenthesis end an argument.
  fun_induction read start depths pending offset done pieces generalizing taken with
  | case1 => cases hf
  | case2 => cases hf
  | case3 depths pending offset done literal rest ih =>
    have hs : (pending.append literal).start = pending.start := by
      unfold Pending.append
      split <;> rfl
    have hm := ih h.append hf
    rwa [hs] at hm
  | case4 depths pending offset done comment rest ih =>
    exact ih (h.move rfl fun hv hk => ⟨hv, hk, rfl⟩) hf
  | case5 depths pending offset done b rest hs ih =>
    simp only [Pending.skips, Bool.and_eq_true] at hs
    exact ih (h.move rfl fun hv hk => ⟨hv, hk, hs.2⟩) hf
  | case6 depths pending offset done b rest _ _ ih =>
    exact ih (h.move rfl fun hv => by cases hv) hf
  | case7 => cases hf
  | case8 depths pending offset done b rest _ _ hb arguments ha ih =>
    obtain ⟨more, hmore, hstop, htiles, hneat⟩ := ih h.opened hf
    obtain ⟨-, -, hl, -⟩ | ⟨argument, rfl, hs, rfl, hargument⟩ := finish_cases ha
    · cases hl
    · refine ⟨argument :: more, ?_, hstop, ?_, List.forall_mem_cons.2 ⟨hargument, hneat⟩⟩
      · rw [hmore, List.append_assoc]
        rfl
      · have hc := h.getElem?_eq
        rw [hb.1] at hc
        rw [← hs]
        exact .cons (hs ▸ h.start_le) hc htiles
  | case9 => cases hf
  | case10 pending offset done b rest _ arguments ha _ _ hb =>
    have hc := h.getElem?_eq
    rw [hb.1] at hc
    obtain ⟨hv, hk, -, rfl⟩ | ⟨argument, rfl, hs, rfl, hargument⟩ := finish_cases ha
    · exact ⟨[], rfl, hc, .none h.start_le (h.isIdle_slice hv hk), List.forall_mem_nil _⟩
    · refine ⟨[argument], rfl, hc, ?_, List.forall_mem_singleton.2 hargument⟩
      rw [← hs]
      exact .last (hs ▸ h.start_le) rfl
  | case11 => cases hf
  | case12 depths pending offset done b rest _ _ _ _ ih =>
    have hs : (pending.append [b]).start = pending.start := by
      unfold Pending.append
      split <;> rfl
    have hm := ih h.append hf
    rwa [hs] at hm

/-- The text behind the last argument: nothing, or a comma and nothing of an argument. -/
def IsTrailer (text : Bytes) : Prop := text = [] ∨ ∃ idle, text = comma :: idle ∧ IsIdle idle

/-- The list covers the call text between its parentheses. -/
structure Covers (text : Bytes) (list : ArgumentList) : Prop where
  opened : 0 < list.start ∧ text[list.start - 1]? = some leftParen
  closed : text[list.stop]? = some rightParen
  first : ∀ argument ∈ list.arguments.head?, argument.start = list.start
  next : list.arguments.IsChain fun argument other =>
    text[argument.stop]? = some comma ∧ other.start = argument.stop + 1
  within : ∀ argument ∈ list.arguments,
    list.start ≤ argument.start ∧ argument.start ≤ argument.stop ∧ argument.stop ≤ list.stop
  joined : ∀ last ∈ list.arguments.getLast?,
    joinWith [comma] (list.arguments.map (·.segment text)) = slice text list.start last.stop
  trailer : ∀ last ∈ list.arguments.getLast?, IsTrailer (slice text last.stop list.stop)
  idle : list.arguments = [] → IsIdle (slice text list.start list.stop)
  neat : ∀ argument ∈ list.arguments, IsNeat argument

theorem slice_comma (h : text[offset]? = some comma) :
    slice text offset (offset + 1) = [comma] := by
  obtain ⟨hl, hc⟩ := List.getElem?_eq_some_iff.1 h
  rw [slice, List.drop_eq_getElem_cons hl, hc, Nat.add_sub_cancel_left]
  rfl

namespace Tiles

theorem le (h : Tiles text stop start more) : start ≤ stop := by
  induction h with
  | none hle => exact hle
  | last hle hs => exact hs ▸ hle
  | cons hle _ _ ih => exact Nat.le_trans hle (Nat.le_of_succ_le ih)

theorem start_eq (h : Tiles text stop start more) :
    ∀ argument ∈ more.head?, argument.start = start := by
  rintro argument ha
  cases h with
  | none => cases ha
  | last => cases ha; rfl
  | cons => cases ha; rfl

theorem isChain (h : Tiles text stop start more) : more.IsChain fun argument other =>
    text[argument.stop]? = some comma ∧ other.start = argument.stop + 1 := by
  induction h with
  | none => exact .nil
  | last => exact .singleton _
  | @cons argument others _ hc h ih =>
    cases others with
    | nil => exact .singleton _
    | cons other others => exact .cons_cons ⟨hc, h.start_eq other rfl⟩ ih

theorem within (h : Tiles text stop start more) : ∀ argument ∈ more,
    start ≤ argument.start ∧ argument.start ≤ argument.stop ∧ argument.stop ≤ stop := by
  induction h with
  | none => exact List.forall_mem_nil _
  | last hle hs => exact List.forall_mem_singleton.2 ⟨Nat.le_refl _, hle, hs.le⟩
  | cons hle _ h ih =>
    refine List.forall_mem_cons.2 ⟨⟨Nat.le_refl _, hle, Nat.le_of_succ_le h.le⟩, fun other ho => ?_⟩
    obtain ⟨hs, hrest⟩ := ih other ho
    exact ⟨by omega, hrest⟩

theorem isIdle (h : Tiles text stop start []) : IsIdle (slice text start stop) := by
  cases h with
  | none _ hi => exact hi

/-- The segments joined by commas are the text up to the last end. -/
theorem joined (h : Tiles text stop start more) : ∀ last ∈ more.getLast?,
    joinWith [comma] (more.map (·.segment text)) = slice text start last.stop ∧
      IsTrailer (slice text last.stop stop) := by
  induction h with
  | none => exact nofun
  | @last argument _ hs =>
    intro last hl
    obtain rfl : argument = last := Option.some.inj hl
    rw [hs, slice_self]
    exact ⟨congrArg (slice text _) hs, .inl rfl⟩
  | @cons argument others hle hc h ih =>
    have hcomma := slice_comma hc
    intro last hl
    cases others with
    | nil =>
      obtain rfl : argument = last := Option.some.inj hl
      refine ⟨rfl, .inr ⟨slice text (argument.stop + 1) stop, ?_, ?_⟩⟩
      · rw [← slice_append (Nat.le_succ _) h.le, hcomma, List.singleton_append]
      · exact h.isIdle
    | cons other others =>
      rw [List.getLast?_cons_cons] at hl
      obtain ⟨hj, ht⟩ := ih last hl
      have hw := h.within last (List.mem_of_getLast? hl)
      refine ⟨?_, ht⟩
      rw [List.map_cons, joinWith_cons _ (by simp), hj, ← hcomma,
        slice_append (Nat.le_succ _) (by omega)]
      exact slice_append hle (by omega)

end Tiles

theorem ofCall_opened {callee : Bytes} (h : leftParen ∉ callee) (rest : Bytes) :
    ofCall (callee ++ leftParen :: rest) =
      read (callee.length + 1) .zero (.opened (callee.length + 1)) (callee.length + 1) []
        (codePieces rest) := by
  unfold ofCall
  rw [splitFirst?_append h]

/-- A call text that is read without failure has a parenthesis. -/
theorem exists_opened (h : (ofCall text).failure = none) :
    ∃ callee rest, text = callee ++ leftParen :: rest ∧ leftParen ∉ callee := by
  by_cases hm : leftParen ∈ text
  · exact List.eq_append_cons_of_mem hm
  · unfold ofCall at h
    rw [splitFirst?_of_notMem hm] at h
    cases h

/-- In front of the first byte behind the parenthesis nothing is read. -/
theorem stands_opened (callee rest : Bytes) :
    Stands (callee ++ leftParen :: rest) (.opened (callee.length + 1)) (callee.length + 1) []
      (codePieces rest) := by
  refine ⟨?_, rfl, fun _ _ => List.forall_mem_nil _⟩
  rw [Pending.opened, ← List.drop_drop, List.drop_left]
  rfl

/-- The arguments of a call text that is read without failure tile the text between its
parentheses: commas part their segments, and behind the last one there is nothing, or a comma with
blanks and comments. -/
theorem covers_ofCall (h : (ofCall text).failure = none) : Covers text (ofCall text) := by
  obtain ⟨callee, rest, rfl, hn⟩ := exists_opened h
  have hcall := ofCall_opened hn rest
  rw [hcall] at h
  obtain ⟨more, hmore, hstop, htiles, hneat⟩ := tiles_read (stands_opened callee rest) h
  have hstart := start_read (callee.length + 1) .zero (.opened (callee.length + 1))
    (callee.length + 1) [] (codePieces rest)
  rw [← hcall] at hmore hstop htiles hstart
  rw [List.nil_append] at hmore
  rw [← hmore, Pending.opened, ← hstart] at htiles
  rw [← hmore] at hneat
  refine ⟨⟨?_, ?_⟩, hstop, htiles.start_eq, htiles.isChain, htiles.within,
    fun last hl => (htiles.joined last hl).1, fun last hl => (htiles.joined last hl).2, ?_, hneat⟩
  · rw [hstart]
    exact Nat.succ_pos _
  · rw [hstart, Nat.add_sub_cancel, List.getElem?_append_right (Nat.le_refl _), Nat.sub_self]
    rfl
  · intro he
    rw [he] at htiles
    exact htiles.isIdle

/-- Commas in brackets, in a literal and in a comment, and a comma behind the last argument. -/
theorem covers_ofCall_trailing :
    let call := ascii "f(a=[1, 2], # ,\n b: c = ',' , # )\n)"
    (ofCall call).failure = none ∧ Covers call (ofCall call) ∧
      (ofCall call).arguments.map (·.segment call) =
        [ascii "a=[1, 2]", ascii " # ,\n b: c = ',' "] := by
  intro call
  have hf : (ofCall call).failure = none := by decide +kernel
  exact ⟨hf, covers_ofCall hf, by decide +kernel⟩

end ArgumentList

end ManifestScan
