import ManifestScan.Proofs.Lexing.Word
import ManifestScan.Proofs.Text.Clause
import ManifestScan.Proofs.Text.Name
import ManifestScan.Proofs.Text.Part

namespace ManifestScan

open Lexeme

namespace ArgumentList

/-- The depths behind the pieces of a value, if it can stand in a list: each literal has an
end, no comment starts, no comma stands outside of all brackets and no parenthesis closes what
none opened. -/
def Depths.through? (depths : Depths) : List Piece → Option Depths
  | [] => some depths
  | .unclosed _ :: _ => none
  | .comment _ :: _ => none
  | .literal _ :: rest => depths.through? rest
  | .byte b :: rest =>
    if b = hash ∨ b = comma ∧ depths = .zero ∨ b = rightParen ∧ depths.parens = 0 then none
    else (depths.after b).through? rest

/-- A text without blanks around it that closes the brackets it opens. It may be empty. -/
structure IsValue (value : Bytes) : Prop where
  trim_eq : trim value = value
  balanced : Depths.zero.through? (pieces value) = some .zero

instance (value : Bytes) : Decidable (IsValue value) :=
  decidable_of_iff (trim value = value ∧ Depths.zero.through? (pieces value) = some .zero)
    ⟨fun h => ⟨h.1, h.2⟩, fun h => ⟨h.trim_eq, h.balanced⟩⟩

variable {start offset opening stop : Nat} {depths next : Depths} {pending : Pending}
  {done : List KeywordArgument} {found others : List Piece} {key value rest : Bytes}

theorem Pending.append_nil (pending : Pending) : pending.append [] = pending := by
  obtain ⟨key, value, start⟩ := pending
  cases value <;> simp [append]

theorem Pending.append_append (pending : Pending) (text more : Bytes) :
    (pending.append text).append more = pending.append (text ++ more) := by
  obtain ⟨key, value, start⟩ := pending
  cases value <;> simp [append]

theorem Pending.isSome_append (h : pending.value.isSome = true) (text : Bytes) :
    (pending.append text).value.isSome = true := by
  unfold append
  split
  · exact h
  · rfl

/-- Only in front of a key are blanks skipped. -/
theorem Pending.skips_eq_false (h : pending.value.isSome = true) (b : UInt8) :
    pending.skips b = false := by
  have hn : pending.value.isNone = false := by simpa using h
  rw [skips, hn, Bool.false_and, Bool.false_and]

/-- In a value only a comma and a parenthesis are more than bytes of it. -/
theorem read_byte {b : UInt8} (hv : pending.value.isSome = true)
    (hb : ¬(b = comma ∧ depths = .zero ∨ b = rightParen ∧ depths.parens = 0)) :
    read start depths pending offset done (.byte b :: others) =
      read start (depths.after b) (pending.append [b]) (offset + 1) done others := by
  have hn : pending.value.isNone = false := by simpa using hv
  rw [not_or] at hb
  rw [read, if_neg (by simp [Pending.skips_eq_false hv]), if_neg (by simp [hn]), if_neg hb.1,
    if_neg hb.2]

/-- The pieces of a value all go to the value that is being read. -/
theorem read_through (hv : pending.value.isSome = true) (h : depths.through? found = some next) :
    read start depths pending offset done (found ++ others) =
      read start next (pending.append (found.flatMap Piece.text))
        (offset + (found.flatMap Piece.text).length) done others := by
  fun_induction Depths.through? depths found generalizing pending offset with
  | case1 depths =>
    cases h
    rw [List.flatMap_nil, Pending.append_nil]
    rfl
  | case2 => cases h
  | case3 => cases h
  | case4 depths text found ih =>
    rw [List.cons_append, read, ih (Pending.isSome_append hv text) h, Pending.append_append,
      List.flatMap_cons, List.length_append, Nat.add_assoc]
    rfl
  | case5 => cases h
  | case6 depths b found hb ih =>
    rw [not_or] at hb
    rw [List.cons_append, read_byte hv hb.2, ih (Pending.isSome_append hv [b]) h,
      Pending.append_append, List.flatMap_cons, List.length_append, Nat.add_assoc]
    rfl

/-- What stands behind a value does not change its pieces, unless a quote joins its last literal. -/
theorem codePieces_through (h : depths.through? (pieces value) = some next)
    (hr : ∀ b ∈ rest.head?, Literal.isQuote b = false) :
    codePieces (value ++ rest) = pieces value ++ codePieces rest := by
  unfold pieces at h ⊢
  fun_induction Piece.cut false value generalizing depths with
  | case1 => rfl
  | case2 b text hq behind ha ih =>
    have hm : text = [b] → rest.head? ≠ some b := by
      intro _ hb
      have hn := hr b hb
      rw [hq] at hn
      cases hn
    have hl := Literal.after?_append ha hm
    obtain ⟨body, rfl⟩ := Literal.after?_suffix ha
    rw [List.length_append, Nat.add_sub_cancel, List.take_left]
    rw [List.append_assoc, ← List.cons_append] at hl
    rw [← List.cons_append, List.append_assoc, Piece.cut_literal hq hl, ih h]
    rfl
  | case3 => cases h
  | case4 b text _ hc => simp at hc
  | case5 b text hq _ ih =>
    unfold Depths.through? at h
    split at h
    · cases h
    · rename_i hb
      rw [not_or] at hb
      rw [List.cons_append, Piece.cut_byte (by simpa using hq) (by simpa using hb.1), ih h]
      rfl

theorem isQuote_head {b : UInt8} (hb : Literal.isQuote b = false) (rest : Bytes) :
    ∀ c ∈ (b :: rest).head?, Literal.isQuote c = false := by
  intro c hc
  cases hc
  exact hb

/-- A value is read up to what ends it. -/
theorem read_value (hv : pending.value.isSome = true) (h : IsValue value)
    (hr : ∀ b ∈ rest.head?, Literal.isQuote b = false) :
    read start .zero pending offset done (codePieces (value ++ rest)) =
      read start .zero (pending.append value) (offset + value.length) done (codePieces rest) := by
  rw [codePieces_through h.balanced hr, read_through hv h.balanced,
    show (pieces value).flatMap Piece.text = value from Piece.flatMap_text_cut false value]

theorem isNameByte_plain : ∀ b, isNameByte b = true → b ≠ lineFeed ∧ b ≠ carriageReturn ∧
    b ≠ equals ∧ b ≠ comma ∧ b ≠ rightParen ∧ Depths.zero.after b = .zero := by
  decide +kernel

/-- A name goes to the key that is being read. -/
theorem read_name {text : Bytes} (ht : text.all isNameByte = true) :
    read start .zero pending offset done (text.map .byte ++ others) =
      read start .zero (pending.append text) (offset + text.length) done others := by
  induction text generalizing pending offset with
  | nil =>
    rw [Pending.append_nil]
    rfl
  | cons b text ih =>
    rw [List.all_cons, Bool.and_eq_true] at ht
    obtain ⟨hl, hr, he, hc, hp, hd⟩ := isNameByte_plain b ht.1
    have hs := (isNameByte_apart b ht.1).1
    have hskip : pending.skips b = false := Pending.skips_plain (by simp [hs, hl, hr]) pending
    rw [List.map_cons, List.cons_append, read, if_neg (by simp [hskip]), if_neg (by simp [he]),
      if_neg (by simp [hc]), if_neg (by simp [hp]), hd, ih ht.2, Pending.append_append,
      List.length_cons, Nat.add_assoc, Nat.add_comm 1]
    rfl

theorem codePieces_name {text : Bytes} (ht : text.all isNameByte = true) (rest : Bytes) :
    codePieces (text ++ rest) = text.map .byte ++ codePieces rest :=
  codePieces_inert (fun b hb => isInert_wordByte b
    (isWordByte_of_isNameByte b (List.all_eq_true.1 ht b hb))) rest

def written (pair : Bytes × Bytes) : Bytes := pair.1 ++ equals :: pair.2

structure IsPair (pair : Bytes × Bytes) : Prop where
  isIdentifier_key : isIdentifier pair.1 = true
  isValue : IsValue pair.2

/-- An argument is read up to what ends it. -/
theorem read_written {pair : Bytes × Bytes} (h : IsPair pair)
    (hr : ∀ b ∈ rest.head?, Literal.isQuote b = false) :
    read start .zero (.opened opening) offset done (codePieces (written pair ++ rest)) =
      read start .zero ⟨pair.1, some pair.2, opening⟩ (offset + (written pair).length) done
        (codePieces rest) := by
  have ht : written pair ++ rest = pair.1 ++ equals :: (pair.2 ++ rest) := by
    simp [written]
  have hl : offset + (written pair).length = offset + pair.1.length + 1 + pair.2.length := by
    rw [written, List.length_append, List.length_cons]
    omega
  have hk := all_isNameByte h.isIdentifier_key
  have hskip : ∀ pending : Pending, pending.skips equals = false := Pending.skips_plain (by decide)
  rw [ht, codePieces_name hk, read_name hk, Piece.cut_byte rfl rfl, read, if_neg (by simp [hskip]),
    if_pos ⟨rfl, rfl, rfl⟩, read_value rfl h.isValue hr, hl]
  rfl

theorem keyOf_eq (h : isIdentifier key = true) : Pending.keyOf key = key := by
  have hc : colon ∉ key := notMem_of_isIdentifier h (by decide)
  have ht := trim_name (all_isNameByte h)
  rw [Pending.keyOf, ht, splitLast?_of_notMem hc]

theorem finish_pair {pair : Bytes × Bytes} (h : IsPair pair) (opening stop : Nat) (isLast : Bool) :
    Pending.finish ⟨pair.1, some pair.2, opening⟩ stop isLast =
      .ok [⟨pair.1, pair.2, opening, stop⟩] :=
  finish_clause
    (keyOf_eq h.isIdentifier_key) h.isIdentifier_key h.isValue.trim_eq opening stop isLast

def inside (pairs : List (Bytes × Bytes)) : Bytes := joinWith [comma, space] (pairs.map written)

/-- Where an argument is expected, those that are written are read one after the other. -/
theorem read_inside {pairs : List (Bytes × Bytes)} (h : ∀ pair ∈ pairs, IsPair pair) :
    ∃ arguments, read start .zero (.opened opening) offset done
        (codePieces (inside pairs ++ [rightParen])) =
          ⟨done ++ arguments, start, offset + (inside pairs).length, none⟩ ∧
      arguments.map (fun argument => (argument.key, argument.value)) = pairs := by
  induction pairs generalizing opening offset done with
  | nil =>
    refine ⟨[], ?_, rfl⟩
    have hf : ∀ stop, (Pending.opened opening).finish stop true = .ok [] := fun _ => rfl
    unfold inside
    rw [List.map_nil, joinWith, List.nil_append, read_rightParen (hf _)]
    rfl
  | cons pair others ih =>
    obtain ⟨hpair, hothers⟩ := List.forall_mem_cons.1 h
    by_cases ho : others = []
    · subst ho
      refine ⟨[⟨pair.1, pair.2, opening, offset + (written pair).length⟩], ?_, rfl⟩
      unfold inside
      rw [List.map_singleton, joinWith, read_written hpair (isQuote_head rfl []),
        read_rightParen (finish_pair hpair _ _ _)]
    -- The comma ends this argument, and the blank behind it belongs to none.
    · have hj : inside (pair :: others) = written pair ++ comma :: space :: inside others := by
        unfold inside
        rw [List.map_cons, joinWith_cons _ (by simp [ho])]
        simp
      obtain ⟨arguments, hr, ha⟩ := @ih (offset + (written pair).length + 1 + 1)
        (offset + (written pair).length + 1)
        (done ++ [⟨pair.1, pair.2, opening, offset + (written pair).length⟩]) hothers
      refine ⟨⟨pair.1, pair.2, opening, offset + (written pair).length⟩ :: arguments, ?_, ?_⟩
      · rw [hj, List.append_assoc, List.cons_append, List.cons_append,
          read_written hpair (isQuote_head rfl _), read_comma (finish_pair hpair _ _ _)]
        have hlength : offset + (written pair ++ comma :: space :: inside others).length =
            offset + (written pair).length + 1 + 1 + (inside others).length := by
          simp only [List.length_append, List.length_cons]
          omega
        rw [Piece.cut_byte rfl rfl, read, if_pos rfl, hr, hlength, List.append_assoc]
        rfl
      · rw [List.map_cons, ha]

def callText (callee : Bytes) (pairs : List (Bytes × Bytes)) : Bytes :=
  callee ++ leftParen :: (inside pairs ++ [rightParen])

/-- Reading the arguments of a call undoes writing them: nothing fails, each pair is found again in
its place, and the list ends at the last byte of the call. -/
theorem ofCall_callText {callee : Bytes} {pairs : List (Bytes × Bytes)} (hc : leftParen ∉ callee)
    (h : ∀ pair ∈ pairs, isIdentifier pair.1 = true ∧ IsValue pair.2) :
    let call := callText callee pairs
    (ofCall call).failure = none ∧
      (ofCall call).arguments.map (fun argument => (argument.key, argument.value)) = pairs ∧
      (ofCall call).stop + 1 = call.length := by
  intro call
  have hpairs : ∀ pair ∈ pairs, IsPair pair := by
    intro pair hm
    exact ⟨(h pair hm).1, (h pair hm).2⟩
  obtain ⟨arguments, hr, ha⟩ := @read_inside (callee.length + 1) (callee.length + 1)
    (callee.length + 1) [] pairs hpairs
  have hcall : ofCall call = ⟨arguments, callee.length + 1,
      callee.length + 1 + (inside pairs).length, none⟩ := (ofCall_opened hc _).trans hr
  have hlength : call.length = callee.length + ((inside pairs).length + 1 + 1) := by
    simp [call, callText]
  refine ⟨?_, ?_, ?_⟩
  · rw [hcall]
  · rw [hcall]
    exact ha
  · rw [hcall, hlength]
    dsimp only
    omega

/-- Commas, parentheses and hashes in literals and brackets, a bracket that closes nothing, a
second equals sign, and no value at all. -/
theorem ofCall_callText_nested :
    let pairs := [(ascii "a", ascii "f(x, [1, 2], k=')')"), (ascii "b_2", ascii "'''it's, #)'''"),
      (ascii "c", ascii "=]\x7d\x7b'\\'': 1, (2): \"\\\"(\"\x7d"), (ascii "d", [])]
    let call := callText (ascii "C.\"register") pairs
    (ofCall call).failure = none ∧
      (ofCall call).arguments.map (fun argument => (argument.key, argument.value)) = pairs ∧
      (ofCall call).stop + 1 = call.length :=
  ofCall_callText (by decide) (by decide +kernel)

end ArgumentList

end ManifestScan
