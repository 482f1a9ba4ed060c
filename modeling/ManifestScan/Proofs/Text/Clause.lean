import ManifestScan.Proofs.Text.Argument

namespace ManifestScan

namespace ArgumentList

variable {start offset : Nat} {depths next : Depths} {pending : Pending} {text : Bytes}
  {done : List KeywordArgument} {taken pieces rest : List Piece} {b : UInt8}

namespace Pending

/-- An argument read as far as this one from elsewhere. -/
def openedAt (pending : Pending) (start : Nat) : Pending := { pending with start := start }

@[simp] theorem value_openedAt (pending : Pending) (start : Nat) :
    (pending.openedAt start).value = pending.value := rfl

@[simp] theorem skips_openedAt (pending : Pending) (start : Nat) (b : UInt8) :
    (pending.openedAt start).skips b = pending.skips b := rfl

theorem openedAt_append (pending : Pending) (text : Bytes) (start : Nat) :
    (pending.append text).openedAt start = (pending.openedAt start).append text := by
  obtain ⟨key, value, opening⟩ := pending
  cases value <;> rfl

theorem start_append (pending : Pending) (text : Bytes) :
    (pending.append text).start = pending.start := by
  obtain ⟨key, value, opening⟩ := pending
  cases value <;> rfl

end Pending

/-- Pieces that bring an argument from its opening as far as `pending`, wherever they are read. -/
structure Reaches (taken : List Piece) (depths : Depths) (pending : Pending) : Prop where
  closed : ∀ open_, .unclosed open_ ∉ taken
  read_eq : ∀ start opening offset done others,
    read start .zero (.opened opening) offset done (taken ++ others) =
      read start depths (pending.openedAt opening)
        (offset + (taken.flatMap Piece.text).length) done others

namespace Reaches

theorem opened (start : Nat) : Reaches [] .zero (.opened start) := by
  refine ⟨fun _ => List.not_mem_nil, ?_⟩
  intros
  rfl

/-- One piece further. -/
theorem step {piece : Piece} {more : Pending} (h : Reaches taken depths pending)
    (hc : ∀ open_, piece ≠ .unclosed open_)
    (hs : ∀ start opening offset done others,
      read start depths (pending.openedAt opening) offset done (piece :: others) =
        read start next (more.openedAt opening) (offset + piece.width) done others) :
    Reaches (taken ++ [piece]) next more := by
  refine ⟨fun open_ ho => ?_, fun start opening offset done others => ?_⟩
  · rcases List.mem_append.1 ho with ho | ho
    · exact h.closed open_ ho
    · exact hc open_ (List.mem_singleton.1 ho).symm
  · rw [List.append_assoc, h.read_eq, List.singleton_append, hs, List.flatMap_append,
      List.length_append, List.flatMap_singleton, Nat.add_assoc]
    rfl

theorem literal (h : Reaches taken depths pending) (text : Bytes) :
    Reaches (taken ++ [.literal text]) depths (pending.append text) := by
  refine h.step (fun _ hn => nomatch hn) ?_
  intro start opening offset done others
  rw [read, Pending.openedAt_append]
  rfl

theorem comment (h : Reaches taken depths pending) (text : Bytes) :
    Reaches (taken ++ [.comment text]) depths pending := by
  refine h.step (fun _ hn => nomatch hn) ?_
  intro start opening offset done others
  rw [read]
  rfl

theorem skip (h : Reaches taken depths pending) (hs : pending.skips b = true) :
    Reaches (taken ++ [.byte b]) depths pending := by
  refine h.step (fun _ hn => nomatch hn) ?_
  intro start opening offset done others
  rw [read, Pending.skips_openedAt, if_pos hs]
  rfl

/-- The equals sign behind the key. -/
theorem assign (h : Reaches taken depths pending) (hs : ¬pending.skips b = true)
    (he : b = equals ∧ pending.value.isNone ∧ depths = .zero) :
    Reaches (taken ++ [.byte b]) depths { pending with value := some [] } := by
  refine h.step (fun _ hn => nomatch hn) ?_
  intro start opening offset done others
  rw [read, Pending.skips_openedAt, if_neg hs, Pending.value_openedAt, if_pos he]
  rfl

/-- A byte of the argument's own. -/
theorem byte (h : Reaches taken depths pending) (hs : ¬pending.skips b = true)
    (he : ¬(b = equals ∧ pending.value.isNone ∧ depths = .zero))
    (hc : ¬(b = comma ∧ depths = .zero)) (hp : ¬(b = rightParen ∧ depths.parens = 0)) :
    Reaches (taken ++ [.byte b]) (depths.after b) (pending.append [b]) := by
  refine h.step (fun _ hn => nomatch hn) ?_
  intro start opening offset done others
  rw [read, Pending.skips_openedAt, if_neg hs, Pending.value_openedAt, if_neg he, if_neg hc,
    if_neg hp, Pending.openedAt_append]
  rfl

end Reaches

/-- A text that brings an argument from its opening as far as `key` and `value`, wherever in a
list it stands. -/
structure Reads (text key : Bytes) (value : Option Bytes) : Prop where
  cut : ∀ {rest : Bytes}, (∀ b ∈ rest.head?, Literal.isQuote b = false) →
    codePieces (text ++ rest) = codePieces text ++ codePieces rest
  read_eq : ∀ start opening offset done others,
    read start .zero (.opened opening) offset done (codePieces text ++ others) =
      read start .zero ⟨key, value, opening⟩ (offset + text.length) done others

def IsClause (text : Bytes) (pair : Bytes × Bytes) : Prop :=
  ∃ key value, Reads text key (some value) ∧ Pending.keyOf key = pair.1 ∧
    isIdentifier pair.1 = true ∧ trim value = pair.2

/-- A text that ends a list where an argument might start. -/
def Ends (text : Bytes) : Prop :=
  ∃ idle rest, text = idle ++ rightParen :: rest ∧ Reads idle [] none

/-- A text that ends a list behind an argument. -/
def Closes (text : Bytes) : Prop :=
  (∃ rest, text = rightParen :: rest) ∨ ∃ rest, text = comma :: rest ∧ Ends rest

theorem Closes.head? (h : Closes text) : ∀ b ∈ text.head?, Literal.isQuote b = false := by
  rintro b hb
  obtain ⟨rest, rfl⟩ | ⟨rest, rfl, -⟩ := h <;> cases hb <;> rfl

/-- What is read up to a separator is read alike elsewhere. -/
theorem Reaches.reads (hr : Reaches taken .zero pending)
    (h : Stands text pending offset taken (.byte b :: rest)) (hb : b ≠ lineFeed) :
    Reads (slice text pending.start offset) pending.key pending.value := by
  have ht := Piece.text_of_codePieces h.cut
  have hs : slice text pending.start offset = taken.flatMap Piece.text := by
    rw [slice, h.offset_eq, Nat.add_sub_cancel_left, ht, List.take_left]
  have hown : codePieces (taken.flatMap Piece.text ++ (Piece.byte b :: rest).flatMap Piece.text) =
      taken ++ Piece.byte b :: rest := by
    rw [← ht, h.cut]
  have hline : ((Piece.byte b :: rest).flatMap Piece.text).takeWhile (· != lineFeed) ≠ [] := by
    rw [List.flatMap_cons, Piece.text, List.singleton_append,
      List.takeWhile_cons_of_pos (by simpa using hb)]
    exact List.cons_ne_nil _ _
  rw [hs]
  have hcut := Piece.cut_own hown rfl hr.closed
  refine ⟨fun hq => ?_, fun start opening offset done others => ?_⟩
  · rw [hcut]
    exact Piece.cut_anew hown rfl hr.closed hq (.inr hline)
  · rw [hcut]
    exact hr.read_eq start opening offset done others

/-- What the end of an argument adds to the list does not hang on where it stands. -/
theorem isClause_of_finish {stop : Nat} {isLast : Bool} {argument : KeywordArgument}
    (h : pending.finish stop isLast = .ok [argument])
    (hr : Reads text pending.key pending.value) :
    IsClause text (argument.key, argument.value) := by
  obtain ⟨key, value, opening⟩ := pending
  unfold Pending.finish at h
  cases value with
  | none =>
    dsimp only at h
    repeat' split at h
    all_goals cases h
  | some value =>
    dsimp only at h
    split at h
    · rename_i hk
      cases h
      exact ⟨key, value, hr, rfl, hk, rfl⟩
    · cases h

theorem finish_clause {key value : Bytes} {pair : Bytes × Bytes} (hk : Pending.keyOf key = pair.1)
    (hi : isIdentifier pair.1 = true) (hv : trim value = pair.2) (opening stop : Nat)
    (isLast : Bool) :
    Pending.finish ⟨key, some value, opening⟩ stop isLast =
      .ok [⟨pair.1, pair.2, opening, stop⟩] := by
  unfold Pending.finish
  dsimp only
  rw [hk, hv, if_pos hi]

/-- What stands behind the separator where an argument is read. -/
theorem Stands.drop_eq (h : Stands text pending offset taken (.byte b :: rest)) :
    text.drop offset = b :: text.drop (offset + 1) := by
  obtain ⟨hl, hb⟩ := List.getElem?_eq_some_iff.1 h.getElem?_eq
  rw [List.drop_eq_getElem_cons hl, hb]

/-- Arguments that are read from a text, with one in each segment and behind the last one the end of
a list; where there is none, a list ends at the start. -/
structure Clauses (text : Bytes) (start : Nat) (arguments : List KeywordArgument) : Prop where
  isClause : ∀ argument ∈ arguments, IsClause (argument.segment text) (argument.key, argument.value)
  ends : arguments = [] → Ends (text.drop start)
  closes : ∀ last ∈ arguments.getLast?, Closes (text.drop last.stop)

namespace Clauses

variable {argument : KeywordArgument} {more : List KeywordArgument}

theorem nil (h : Ends (text.drop start)) : Clauses text start [] :=
  ⟨List.forall_mem_nil _, fun _ => h, fun _ hl => by cases hl⟩

theorem singleton (h : IsClause (argument.segment text) (argument.key, argument.value))
    (hc : Closes (text.drop argument.stop)) : Clauses text start [argument] := by
  refine ⟨List.forall_mem_singleton.2 h, nofun, fun last hl => ?_⟩
  cases hl
  exact hc

/-- Behind an argument a comma stands, and the others are read from there on. -/
theorem cons (h : IsClause (argument.segment text) (argument.key, argument.value))
    (hd : text.drop argument.stop = comma :: text.drop (argument.stop + 1))
    (hm : Clauses text (argument.stop + 1) more) : Clauses text start (argument :: more) := by
  cases more with
  | nil => exact singleton h (.inr ⟨_, hd, hm.ends rfl⟩)
  | cons other more =>
    refine ⟨List.forall_mem_cons.2 ⟨h, hm.isClause⟩, nofun, ?_⟩
    rw [List.getLast?_cons_cons]
    exact hm.closes

end Clauses

/-- A list that is read without failure holds one argument in each segment, and what stands behind
the last one ends a list. -/
theorem clauses_read (h : Stands text pending offset taken pieces)
    (hr : Reaches taken depths pending)
    (hf : (read start depths pending offset done pieces).failure = none) :
    ∃ more, (read start depths pending offset done pieces).arguments = done ++ more ∧
      Clauses text pending.start more := by
  -- The pieces taken so far are those of the argument that is being read: a comma outside of all
  -- brackets ends it, and the next one starts with none.
  fun_induction read start depths pending offset done pieces generalizing taken with
  | case1 => cases hf
  | case2 => cases hf
  | case3 depths pending offset done literal rest ih =>
    have hm := ih h.append (hr.literal literal) hf
    rwa [Pending.start_append] at hm
  | case4 depths pending offset done comment rest ih =>
    exact ih (h.move rfl fun hv hk => ⟨hv, hk, rfl⟩) (hr.comment comment) hf
  | case5 depths pending offset done b rest hs ih =>
    have hb := hs
    simp only [Pending.skips, Bool.and_eq_true] at hb
    exact ih (h.move rfl fun hv hk => ⟨hv, hk, hb.2⟩) (hr.skip hs) hf
  | case6 depths pending offset done b rest hs he ih =>
    exact ih (h.move rfl fun hv => by cases hv) (hr.assign hs he) hf
  | case7 => cases hf
  | case8 depths pending offset done b rest _ _ hb arguments ha ih =>
    obtain ⟨rfl, rfl⟩ := hb
    obtain ⟨more, hmore, hm⟩ := ih h.opened (.opened _) hf
    obtain ⟨-, -, hl, -⟩ | ⟨argument, rfl, hs, rfl, -⟩ := finish_cases ha
    · cases hl
    · have hreads := hr.reads h (by decide)
      rw [← hs] at hreads
      refine ⟨argument :: more, ?_, .cons (isClause_of_finish ha hreads) h.drop_eq hm⟩
      rw [hmore, List.append_assoc]
      rfl
  | case9 => cases hf
  | case10 pending offset done b rest _ arguments ha _ _ hb =>
    obtain ⟨rfl, -⟩ := hb
    have hreads := hr.reads h (by decide)
    obtain ⟨hv, hk, -, rfl⟩ | ⟨argument, rfl, hs, rfl, -⟩ := finish_cases ha
    · rw [hv, hk] at hreads
      have hends : Ends (text.drop pending.start) := by
        refine ⟨slice text pending.start offset, text.drop (offset + 1), ?_, hreads⟩
        rw [← h.drop_eq, slice_append_drop h.start_le]
      exact ⟨[], rfl, .nil hends⟩
    · rw [← hs] at hreads
      exact ⟨[argument], rfl, .singleton (isClause_of_finish ha hreads) (.inl ⟨_, h.drop_eq⟩)⟩
  | case11 => cases hf
  | case12 depths pending offset done b rest hs he hc hp ih =>
    have hm := ih h.append (hr.byte hs he hc hp) hf
    rwa [Pending.start_append] at hm

/-- Only blanks are skipped. -/
theorem Pending.skips_plain {b : UInt8}
    (h : (isSpace b || b == lineFeed || b == carriageReturn) = false) (pending : Pending) :
    pending.skips b = false := by
  rw [skips, h, Bool.and_false]

/-- A comma outside of all brackets ends the argument. -/
theorem read_comma {arguments : List KeywordArgument}
    (hf : pending.finish offset false = .ok arguments) (rest : Bytes) :
    read start .zero pending offset done (codePieces (comma :: rest)) =
      read start .zero (.opened (offset + 1)) (offset + 1) (done ++ arguments)
        (codePieces rest) := by
  have hs : ¬pending.skips comma = true := by
    rw [Pending.skips_plain (by decide)]
    decide
  rw [Piece.cut_byte rfl rfl, read, if_neg hs, if_neg fun h => absurd h.1 (by decide),
    if_pos ⟨rfl, rfl⟩, hf]

/-- The parenthesis that closes the list ends the last argument. -/
theorem read_rightParen {arguments : List KeywordArgument}
    (hf : pending.finish offset true = .ok arguments) (rest : Bytes) :
    read start .zero pending offset done (codePieces (rightParen :: rest)) =
      ⟨done ++ arguments, start, offset, none⟩ := by
  have hs : ¬pending.skips rightParen = true := by
    rw [Pending.skips_plain (by decide)]
    decide
  rw [Piece.cut_byte rfl rfl, read, if_neg hs, if_neg fun h => absurd h.1 (by decide),
    if_neg fun h => absurd h.1 (by decide), if_pos ⟨rfl, rfl⟩, if_pos rfl, hf]

/-- Where a list can end no further argument is read. -/
theorem read_ends (h : Ends text) {opening : Nat} :
    let list := read start .zero (.opened opening) offset done (codePieces text)
    list.failure = none ∧ list.arguments = done := by
  obtain ⟨idle, rest, rfl, hr⟩ := h
  have hq : ∀ b ∈ (rightParen :: rest).head?, Literal.isQuote b = false := by
    intro b hb
    cases hb
    rfl
  have hf : ∀ stop, Pending.finish ⟨[], none, opening⟩ stop true = .ok [] := fun _ => rfl
  rw [hr.cut hq, hr.read_eq, read_rightParen (hf _), List.append_nil]
  exact ⟨rfl, rfl⟩

/-- Segments that hold one argument each, and behind them what ends a list, are read as
these arguments. -/
theorem read_clauses {clauses : List (Bytes × Bytes × Bytes)} {tail : Bytes} {opening : Nat}
    (hn : clauses ≠ []) (hc : ∀ clause ∈ clauses, IsClause clause.1 clause.2) (ht : Closes tail) :
    let list := read start .zero (.opened opening) offset done
      (codePieces (joinWith [comma] (clauses.map (·.1)) ++ tail))
    list.failure = none ∧ ∃ more, list.arguments = done ++ more ∧
      more.map (fun argument => (argument.key, argument.value)) = clauses.map (·.2) := by
  induction clauses generalizing opening offset done with
  | nil => exact absurd rfl hn
  | cons clause others ih =>
    obtain ⟨⟨key, value, hr, hk, hi, hv⟩, hothers⟩ := List.forall_mem_cons.1 hc
    have hfinish := finish_clause hk hi hv opening
    by_cases ho : others = []
    · subst ho
      rw [List.map_singleton, joinWith, hr.cut ht.head?, hr.read_eq]
      obtain ⟨rest, rfl⟩ | ⟨rest, rfl, hends⟩ := ht
      · rw [read_rightParen (hfinish _ _)]
        exact ⟨rfl, _, rfl, rfl⟩
      · rw [read_comma (hfinish _ _)]
        obtain ⟨hf, ha⟩ := read_ends hends
        exact ⟨hf, _, ha, rfl⟩
    · have hj : joinWith [comma] ((clause :: others).map (·.1)) ++ tail =
          clause.1 ++ comma :: (joinWith [comma] (others.map (·.1)) ++ tail) := by
        rw [List.map_cons, joinWith_cons _ (by simpa using ho)]
        simp only [List.append_assoc, List.cons_append, List.nil_append]
      rw [hj, hr.cut fun b hb => by cases hb; rfl, hr.read_eq, read_comma (hfinish _ _)]
      obtain ⟨hf, more, ha, hm⟩ := ih ho hothers
      rw [List.append_assoc] at ha
      refine ⟨hf, _, ha, ?_⟩
      rw [List.map_append, hm]
      rfl

/-- A call text that is read without failure: a callee, one argument in each segment, and what
ends a list. -/
theorem clauses_ofCall (h : (ofCall text).failure = none) :
    (∃ callee, leftParen ∉ callee ∧ text.take (ofCall text).start = callee ++ [leftParen]) ∧
      (∀ argument ∈ (ofCall text).arguments,
        IsClause (argument.segment text) (argument.key, argument.value)) ∧
      ∀ last ∈ (ofCall text).arguments.getLast?, Closes (text.drop last.stop) := by
  obtain ⟨callee, rest, rfl, hn⟩ := exists_opened h
  have hcall := ofCall_opened hn rest
  have hf := h
  rw [hcall] at hf
  obtain ⟨more, hmore, hclauses, -, hcloses⟩ :=
    clauses_read (stands_opened callee rest) (.opened _) hf
  rw [← hcall, List.nil_append] at hmore
  rw [hmore]
  refine ⟨⟨callee, hn, ?_⟩, hclauses, hcloses⟩
  rw [hcall, start_read, ← List.singleton_append, ← List.append_assoc]
  exact List.take_left' (by simp)

/-- The call text with its arguments in another order: their segments change places between the
commas, and all else stays. -/
def reordered (text : Bytes) (order : List KeywordArgument) : Bytes :=
  match (ofCall text).arguments.getLast? with
  | none => text
  | some last =>
    text.take (ofCall text).start ++
      (joinWith [comma] (order.map (·.segment text)) ++ text.drop last.stop)

/-- The arguments of a call text can be put in any order: what is read then is these arguments
in that order. -/
theorem ofCall_reordered (h : (ofCall text).failure = none) {order : List KeywordArgument}
    (ho : order.Perm (ofCall text).arguments) :
    (ofCall (reordered text order)).failure = none ∧
      (ofCall (reordered text order)).arguments.map
        (fun argument => (argument.key, argument.value)) =
        order.map fun argument => (argument.key, argument.value) := by
  obtain ⟨⟨callee, hn, htake⟩, hclauses, hcloses⟩ := clauses_ofCall h
  cases hl : (ofCall text).arguments.getLast? with
  | none =>
    have hnil := List.getLast?_eq_none_iff.1 hl
    rw [hnil, List.perm_nil] at ho
    unfold reordered
    rw [hl, ho, hnil]
    exact ⟨h, rfl⟩
  | some last =>
    have hne : order ≠ [] := by
      rintro rfl
      rw [List.nil_perm.1 ho] at hl
      cases hl
    let clauses := order.map fun argument => (argument.segment text, argument.key, argument.value)
    have hc : ∀ clause ∈ clauses, IsClause clause.1 clause.2 := by
      intro clause hm
      obtain ⟨argument, ha, rfl⟩ := List.mem_map.1 hm
      exact hclauses argument (ho.mem_iff.1 ha)
    have hread := @read_clauses (callee.length + 1) (callee.length + 1) [] clauses _
      (callee.length + 1) (by simpa [clauses] using hne) hc (hcloses last hl)
    have htext : reordered text order = callee ++ leftParen ::
        (joinWith [comma] (clauses.map (·.1)) ++ text.drop last.stop) := by
      unfold reordered
      rw [hl, htake]
      dsimp only
      rw [List.append_assoc, List.map_map]
      rfl
    rw [htext, ofCall_opened hn]
    obtain ⟨hf, more, hm, hp⟩ := hread
    refine ⟨hf, ?_⟩
    rw [hm, List.nil_append, hp, List.map_map]
    rfl

end ArgumentList

end ManifestScan
