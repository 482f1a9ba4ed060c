import ManifestScan.Proofs.Listing.Tokens
import ManifestScan.Proofs.Outline.Block
import ManifestScan.Registration.Tree
import Mathlib.Data.List.Forall2

namespace ManifestScan

namespace Cursor

/-- A dotted name is read up to the token behind it. -/
theorem callee_nameTail {name : List Token} {suffix : Bytes} (hn : NameTail name suffix)
    {cursor : Cursor} {token : Token} {rest : List Token} (h : cursor.rest = name ++ token :: rest)
    (hk : token.kind ≠ .dot) (start : Bytes) :
    (callee start cursor).1 = start ++ suffix ∧
      cursor.Moved (callee start cursor).2 (token :: rest) := by
  induction hn generalizing cursor start with
  | nil =>
    have he : callee start cursor = (start, cursor) := by
      rw [callee]
      split
      · rename_i hr
        rw [h] at hr
        cases hr
        exact if_neg fun hd => hk hd.1
      · rfl
    rw [he, List.append_nil]
    exact ⟨rfl, .refl h⟩
  | @cons point name tokens suffix hp hi _ ih =>
    have he : callee start cursor = callee (start ++ dot :: name.text)
        ((cursor.past point (name :: (tokens ++ token :: rest))).past name
          (tokens ++ token :: rest)) := by
      rw [callee]
      split
      · rename_i hr
        rw [h] at hr
        cases hr
        exact if_pos ⟨hp, hi⟩
      · rename_i hr
        exact absurd h (hr _ _ _)
    obtain ⟨ht, hm⟩ := ih (moved_past (cursor.past point (name :: (tokens ++ token :: rest))) name
      (tokens ++ token :: rest)).rest_eq (start ++ dot :: name.text)
    rw [he, ht]
    refine ⟨by simp, hm.rest_eq, hm.source_eq, hm.final_eq, hm.faults_eq⟩

/-- The cursor stands right behind the bracket that closes an argument list. -/
theorem previous_arguments {cursor : Cursor} {depth : Nat} {close : Token}
    (hc : (arguments depth cursor).value.close = some close) :
    (arguments depth cursor).next.previous = close := by
  -- Not structural: behind a call in the list the search goes on at its closing bracket.
  induction hk : cursor.rest.length using Nat.strong_induction_on generalizing cursor depth with
  | _ n ih =>
    subst hk
    cases h : cursor.rest with
    | nil =>
      rw [arguments] at hc
      split at hc
      · cases hc
      · simp_all
    | cons token rest =>
      have hlt : (cursor.past token rest).rest.length < cursor.rest.length := by
        rw [h]
        exact Nat.lt_succ_self _
      by_cases hi : token.kind = .identifier
      · have hle := (cursor.named token rest).next_le
        cases hn : (cursor.named token rest).value.isCalled with
        | true =>
          obtain ⟨hv, hx⟩ := arguments_called h depth hi hn
          rw [hv] at hc
          rw [hx]
          refine ih _ ?_ hc rfl
          rw [rest_reportUnclosed]
          have := (arguments 1 (cursor.named token rest).next).next_le
          omega
        | false =>
          obtain ⟨hv, hx⟩ := arguments_uncalled h depth hi hn
          rw [hv] at hc
          rw [hx]
          exact ih _ (by omega) hc rfl
      · by_cases hcl : token.kind.isClosing = true ∧ depth ≤ 1
        · obtain ⟨hv, hx⟩ := arguments_close h depth hcl.1 hcl.2
          rw [hv] at hc
          rw [hx]
          cases hc
          rfl
        · obtain ⟨hv, hx⟩ := arguments_skip h depth hi fun hd => by
            by_contra hle
            exact hcl ⟨hd, by omega⟩
          rw [hv] at hc
          rw [hx]
          exact ih _ hlt hc rfl

end Cursor

structure Registration.Is (registration : Registration) (call : Call) : Prop where
  callee_eq : call.callee = registration.callee
  extent_eq : call.extent = ⟨registration.offset, registration.offset + registration.text.length⟩
  closed : call.closed = true

namespace Cursor

/-- The calls of a list are those that its tokens list. -/
theorem arguments_listsCalls {tokens : List Token} {calls : List Registration}
    (hl : ListsCalls tokens calls) {cursor : Cursor} {more : List Token}
    (h : cursor.rest = tokens ++ more) (hp : cursor.previous.kind ≠ .dot) :
    ∃ next found, cursor.Moved next more ∧ List.Forall₂ Registration.Is calls found ∧
      (arguments 2 cursor).value =
        ⟨found ++ (arguments 2 next).value.calls, (arguments 2 next).value.close⟩ ∧
      (arguments 2 cursor).next = (arguments 2 next).next := by
  induction hl generalizing cursor with
  | nil => exact ⟨cursor, [], .refl h, .nil, rfl, rfl⟩
  | @comma token tokens calls hk _ ih =>
    rw [List.cons_append] at h
    obtain ⟨hv, hx⟩ := arguments_skip h 2 (by simp [hk]) (by simp [hk])
    have hd : token.kind.depthAfter 2 = 2 := by rw [hk]; rfl
    obtain ⟨next, found, hm, hf, hv', hx'⟩ :=
      ih (moved_past cursor token (tokens ++ more)).rest_eq (by simp [past, hk])
    refine ⟨next, found, (moved_past _ _ _).trans hm, hf, ?_, ?_⟩
    · rw [hv, hd, hv']
    · rw [hx, hd, hx']
  | @call first mark close name inner tokens suffix call calls hf ho hn hc hm hi hk hs _ ih =>
    have h : cursor.rest = first :: (name ++ mark :: (inner ++ close :: (tokens ++ more))) := by
      rw [h]
      simp
    generalize hrest : name ++ mark :: (inner ++ close :: (tokens ++ more)) = rest at h
    obtain ⟨htext, hmoved⟩ := callee_nameTail hn
      ((moved_past cursor first rest).rest_eq.trans hrest.symm) (by simp [hm]) first.text
    obtain ⟨hcalled, hnext, hname⟩ := named_called hmoved.rest_eq hm
    have hmin : cursor.Moved (cursor.named first rest).next
        (inner ++ close :: (tokens ++ more)) := by
      rw [hnext]
      exact (moved_past _ _ _).trans (hmoved.trans (moved_past _ _ _))
    obtain ⟨hclose, hbehind⟩ := arguments_balanced hmin.rest_eq (by rw [hk]; rfl) hi
    rw [Nat.zero_add] at hclose hbehind
    obtain ⟨behind, hmo, hb, hclosed, hv, hx⟩ :=
      arguments_closed h 2 hf hcalled hclose (hmin.trans hbehind)
    generalize hcall : callOf first (cursor.named first rest).value
      (arguments 1 (cursor.named first rest).next).value cursor.final = found at hclosed hv
    have his : call.Is found := by
      refine ⟨?_, ?_, hclosed⟩
      · rw [← hcall]
        exact (hname hp).trans (htext.trans hc)
      · rw [← hcall, ← hs, ← ho, callOf, hclose]
        rfl
    -- The closing bracket is behind the cursor, so a name that follows is no member.
    have hprevious : behind.previous.kind ≠ .dot := by
      rw [hb, previous_arguments hclose, hk]
      decide
    obtain ⟨next, others, hmn, hfo, hvo, hxo⟩ := ih hmo.rest_eq hprevious
    refine ⟨next, found :: others, hmo.trans hmn, .cons his hfo, ?_, ?_⟩
    · rw [hv, hvo]
      rfl
    · rw [hx, hxo]

/-- What a list in a call has for its arguments. -/
theorem arguments_list {cursor : Cursor} {word assign first last close : Token}
    {items more : List Token} {calls : List Registration} (hl : ListsCalls items calls)
    (h : cursor.rest = word :: assign :: first :: (items ++ last :: close :: more))
    (hw : word.kind = .identifier) (ha : assign.kind = .equals) (hf : first.kind = .leftBracket)
    (hr : last.kind = .rightBracket) (hc : close.kind = .rightParen) :
    ∃ found, List.Forall₂ Registration.Is calls found ∧
      (arguments 1 cursor).value = ⟨found, some close⟩ ∧
      cursor.Moved (arguments 1 cursor).next more := by
  obtain ⟨-, hword⟩ := callee_nameTail .nil
    (moved_past cursor word (assign :: first :: (items ++ last :: close :: more))).rest_eq
    (by simp [ha]) word.text
  obtain ⟨hu, hx⟩ := named_uncalled hword.rest_eq (by simp [ha])
  obtain ⟨hv, hn⟩ := arguments_uncalled h 1 hw hu
  rw [hx] at hv hn
  have hword := (moved_past _ _ _).trans hword
  -- The mark behind the keyword, then the bracket.
  generalize (callee word.text _).2 = behind at hv hn hword
  obtain ⟨hva, hna⟩ := arguments_skip hword.rest_eq 1 (by simp [ha]) (by rw [ha]; decide)
  have hda : assign.kind.depthAfter 1 = 1 := by rw [ha]; rfl
  rw [hda] at hva hna
  generalize hlist :
    behind.past assign (first :: (items ++ last :: close :: more)) = list at hva hna
  have hmlist : cursor.Moved list (first :: (items ++ last :: close :: more)) := by
    rw [← hlist]
    exact hword.trans (moved_past _ _ _)
  obtain ⟨hvf, hnf⟩ := arguments_skip hmlist.rest_eq 1 (by simp [hf]) (by rw [hf]; decide)
  have hdf : first.kind.depthAfter 1 = 2 := by rw [hf]; rfl
  rw [hdf] at hvf hnf
  have hmfirst := hmlist.trans (moved_past list first (items ++ last :: close :: more))
  obtain ⟨next, found, hm, hfound, hvi, hni⟩ := arguments_listsCalls hl hmfirst.rest_eq
    (by simp [past, hf])
  have hmnext := hmfirst.trans hm
  -- The brackets that close the list and the call.
  obtain ⟨hvl, hnl⟩ := arguments_skip hmnext.rest_eq 2 (by simp [hr]) fun _ => by decide
  have hdl : last.kind.depthAfter 2 = 1 := by rw [hr]; rfl
  rw [hdl] at hvl hnl
  have hmlast := hmnext.trans (moved_past next last (close :: more))
  obtain ⟨hvc, hnc⟩ := arguments_close hmlast.rest_eq 1 (by rw [hc]; rfl) (Nat.le_refl _)
  refine ⟨found, hfound, ?_, ?_⟩
  · rw [hv, hva, hvf, hvi, hvl, hvc]
    simp
  · rw [hn, hna, hnf, hni, hnl, hnc]
    exact hmlast.trans (moved_past _ _ _)

/-- The statement of a listing is one call, and what the list holds is inside it. -/
theorem statement_list {cursor : Cursor}
    {word package mark keyword assign first last close line : Token}
    {items more : List Token} {calls : List Registration} (hl : ListsCalls items calls)
    (h : cursor.rest = word :: package :: mark :: keyword :: assign :: first ::
      (items ++ last :: close :: line :: more))
    (hw : word.kind = .returnWord) (hp : package.kind = .identifier) (hm : mark.kind = .leftParen)
    (hk : keyword.kind = .identifier) (ha : assign.kind = .equals) (hf : first.kind = .leftBracket)
    (hr : last.kind = .rightBracket) (hc : close.kind = .rightParen) (he : line.kind = .newline) :
    ∃ call, cursor.statement.value = [call] ∧ call.callee = package.text ∧
      List.Forall₂ Registration.Is calls call.nested ∧
      cursor.Moved cursor.statement.next more := by
  obtain ⟨hv, hn⟩ := statement_skip h (by simp [hw, TokenKind.isLayout]) (by simp [hw])
  have hword := moved_past cursor word (package :: mark :: keyword :: assign :: first ::
    (items ++ last :: close :: line :: more))
  have hprevious : (cursor.past word (package :: mark :: keyword :: assign :: first ::
    (items ++ last :: close :: line :: more))).previous.kind ≠ .dot := by simp [past, hw]
  generalize cursor.past word _ = start at hv hn hword hprevious
  have hstart := hword.rest_eq
  -- A parenthesis follows the name at once, so the callee has no further part.
  obtain ⟨htext, hname⟩ := callee_nameTail .nil (moved_past start package (mark :: keyword ::
    assign :: first :: (items ++ last :: close :: line :: more))).rest_eq
      (by simp [hm]) package.text
  obtain ⟨hcalled, hnext, hcallee⟩ := named_called hname.rest_eq hm
  obtain ⟨hvc, hnc⟩ := statement_called hstart hp hcalled
  have hinside : cursor.Moved (start.named package (mark :: keyword :: assign :: first ::
      (items ++ last :: close :: line :: more))).next
        (keyword :: assign :: first :: (items ++ last :: close :: line :: more)) := by
    rw [hnext]
    exact hword.trans ((moved_past _ _ _).trans (hname.trans (moved_past _ _ _)))
  obtain ⟨found, hfound, hva, hma⟩ := arguments_list hl hinside.rest_eq hk ha hf hr hc
  rw [hva] at hvc hnc
  generalize hcall : callOf package _ _ start.final = call at hvc hnc
  have hclosed : call.closed = true := by rw [← hcall]; rfl
  have hbehind := hinside.trans (hma.trans (moved_reportUnclosed hclosed))
  rw [hma.rest_eq] at hbehind
  obtain ⟨hvl, hnl⟩ := statement_newline hbehind.rest_eq he
  refine ⟨call, ?_, ?_, ?_, ?_⟩
  · rw [hv, hvc, hvl]
  · rw [← hcall]
    refine (hcallee hprevious).trans ?_
    rw [htext, List.append_nil]
  · rw [← hcall]
    exact hfound
  · rw [hn, hnc, hnl]
    exact hbehind.trans (moved_past _ _ _)

end Cursor

end ManifestScan
