import ManifestScan.Proofs.Lexing.Nesting
import ManifestScan.Proofs.Outline.Arguments
import ManifestScan.Proofs.Outline.Passes
import ManifestScan.Proofs.Outline.Reading

namespace ManifestScan

/-- A token that closes nothing from further out goes on within the brackets. -/
theorem TokenKind.exists_through {kind : TokenKind} {outer : Nat}
    (hc : kind.isClosing = true → outer ≠ 0) : ∃ inner,
      Turn.through outer kind.turn?.toList = some inner ∧
        kind.depthAfter (outer + 1) = inner + 1 := by
  have hinner : ∃ inner, Turn.through outer kind.turn?.toList = some inner := by
    unfold turn?
    split
    · exact ⟨outer + 1, rfl⟩
    · split
      · rename_i hk
        obtain ⟨outer, rfl⟩ := Nat.exists_eq_succ_of_ne_zero (hc hk)
        exact ⟨outer, rfl⟩
      · exact ⟨outer, rfl⟩
  obtain ⟨inner, hinner⟩ := hinner
  refine ⟨inner, hinner, ?_⟩
  rw [Nat.add_comm, depthAfter_of_through hinner, Nat.add_comm]

namespace Token

variable {tokens inner rest : List Token} {paren close : Token}

/-- Tokens that close nothing from further out leave as many brackets open as they go deeper. -/
theorem balance_of_through {depth next : Nat}
    (h : Turn.through depth (tokens.filterMap turn?) = some next) :
    (depth : Int) + balance tokens = next := by
  induction tokens generalizing depth with
  | nil =>
    cases h
    simp [balance]
  | cons token tokens ih =>
    rw [through_cons] at h
    obtain ⟨middle, hm, h⟩ := Option.bind_eq_some_iff.1 h
    have hd := @TokenKind.depthAfter_of_through _ 1 _ _ hm
    have hs := @balance_singleton token (1 + depth) (by omega)
    have ha := balance_append [token] tokens
    have hi := ih h
    rw [List.singleton_append] at ha
    rw [hd] at hs
    omega

/-- A bracket and the one that closes it enclose the tokens between them. -/
theorem encloses_of_through (ho : paren.kind.isOpening = true) (hc : close.kind.isClosing = true)
    (h : Turn.through 0 (inner.filterMap turn?) = some 0) : paren.Encloses inner close := by
  refine ⟨ho, hc, ?_, ?_⟩
  · have hz := balance_of_through h
    rw [balance_opening ho, balance_append, balance_closing hc]
    omega
  · intro front hf
    obtain ⟨behind, rfl⟩ := (List.mem_inits front inner).1 hf
    rw [List.filterMap_append, Turn.through_append] at h
    obtain ⟨next, hn, -⟩ := Option.bind_eq_some_iff.1 h
    have hz := balance_of_through hn
    rw [balance_opening ho]
    omega

/-- The tokens go on up to a bracket that closes the one opened `depth` brackets further out. -/
def ClosedBy (depth : Nat) (tokens : List Token) (close : Token) (rest : List Token) : Prop :=
  ∃ inner, tokens = inner ++ close :: rest ∧ close.kind.isClosing = true ∧
    Turn.through depth (inner.filterMap turn?) = some 0

namespace ClosedBy

variable {depth next : Nat} {passed more : List Token} {last : Token}

theorem prepend (h : ClosedBy next tokens close rest)
    (hp : Turn.through depth (passed.filterMap turn?) = some next) :
    ClosedBy depth (passed ++ tokens) close rest := by
  obtain ⟨inner, rfl, hc, ht⟩ := h
  refine ⟨passed ++ inner, (List.append_assoc ..).symm, hc, ?_⟩
  rw [List.filterMap_append, Turn.through_append, hp]
  exact ht

/-- Brackets within brackets. -/
theorem nested (h : ClosedBy 0 tokens close rest) (h' : ClosedBy depth rest last more) :
    ClosedBy (depth + 1) tokens last more := by
  obtain ⟨inner, rfl, hc, ht⟩ := h
  have hclose : close.turn? = some .closing := TokenKind.turn?_of_isClosing hc
  rw [List.append_cons]
  refine h'.prepend ?_
  have hadd := Turn.through_add ht (depth + 1)
  rw [Nat.add_zero] at hadd
  rw [List.filterMap_append, Turn.through_append, hadd]
  simp [hclose, Turn.through]

end ClosedBy

/-- A dotted name starts with its first part. -/
theorem exists_dotted (start : Bytes) (tokens : List Token) :
    ∃ more, (dotted start tokens).1 = start ++ more ∧ (more = [] ∨ more.head? = some dot) := by
  induction start, tokens using dotted_induction with
  | link start point name rest hk ih =>
    obtain ⟨more, he, -⟩ := ih
    rw [dotted_link hk, he]
    exact ⟨dot :: name.text ++ more, by simp, .inr rfl⟩
  | stop start tokens hd _ =>
    rw [hd]
    exact ⟨[], by simp, .inl rfl⟩

end Token

def Token.IsPart (token : Token) : Prop := token.kind = .identifier ∨ token.kind = .dot

theorem Token.turns_parts {parts : List Token} (h : ∀ token ∈ parts, token.IsPart) :
    parts.filterMap turn? = [] := by
  refine List.filterMap_eq_nil_iff.2 fun token hm => ?_
  rcases h token hm with hk | hk <;> rw [turn?, hk] <;> rfl

/-- The tokens at the start of a call: its name, with the dots and names that go on from it, and the
parenthesis behind them. -/
structure Call.Heads (call : Call) (name : Token) (links : List Token) (paren : Token) : Prop where
  name_eq : name.kind = .identifier
  parts : ∀ token ∈ links, token.IsPart
  paren_eq : paren.kind = .leftParen
  start_eq : call.extent.start = name.offset
  callee_eq : ∃ more, (more = [] ∨ more.head? = some dot) ∧
    (call.callee = name.text ++ more ∨ call.callee = dot :: (name.text ++ more))

/-- Sibling calls spread over the tokens of a list, one behind the other, up to where `next` is
left. A call that nothing closes takes all tokens that are left and ends at `stop`. -/
inductive Call.Spread (stop : Nat) : List Token → List Token → List Call → Prop
  | nil {rest : List Token} : Spread stop rest rest []
  | pass {token : Token} {rest next : List Token} {calls : List Call}
    (h : Spread stop rest next calls) : Spread stop (token :: rest) next calls
  | closed {call : Call} {calls : List Call} {name paren close : Token}
    {links inner rest next : List Token} (hh : call.Heads name links paren)
    (he : paren.Encloses inner close) (hc : call.closed = true)
    (hs : call.extent.stop = close.stop)
    (hn : Spread stop (inner ++ close :: rest) (close :: rest) call.nested)
    (h : Spread stop rest next calls) :
    Spread stop (name :: (links ++ paren :: (inner ++ close :: rest))) next (call :: calls)
  | unclosed {call : Call} {name paren : Token} {links rest : List Token}
    (hh : call.Heads name links paren) (hc : call.closed = false) (hs : call.extent.stop = stop)
    (hn : Spread stop rest [] call.nested) :
    Spread stop (name :: (links ++ paren :: rest)) [] [call]

namespace Call.Spread

variable {stop : Nat} {rest next last more : List Token} {calls others : List Call}

/-- What is behind the parenthesis of a call. -/
theorem suffix_paren (name paren : Token) (links rest : List Token) :
    rest <:+ name :: (links ++ paren :: rest) :=
  .trans (List.suffix_cons _ _) (.trans (List.suffix_append _ _) (List.suffix_cons _ _))

/-- What is behind the bracket that closes a call. -/
theorem suffix_close (inner : List Token) (close : Token) (rest : List Token) :
    rest <:+ inner ++ close :: rest :=
  .trans (List.suffix_cons _ _) (List.suffix_append _ _)

theorem suffix (h : Spread stop rest next calls) : next <:+ rest := by
  induction h with
  | nil => exact List.suffix_rfl
  | pass _ ih => exact ih.trans (List.suffix_cons _ _)
  | closed _ _ _ _ _ _ _ ih => exact ih.trans ((suffix_close _ _ _).trans (suffix_paren _ _ _ _))
  | unclosed => exact List.nil_suffix

theorem of_suffix (h : Spread stop rest next calls) (hs : rest <:+ more) :
    Spread stop more next calls := by
  obtain ⟨front, rfl⟩ := hs
  induction front with
  | nil => exact h
  | cons token front ih => exact .pass ih

/-- At the end of the tokens no call is left. -/
theorem eq_nil (h : Spread stop [] next calls) : next = [] ∧ calls = [] := by
  cases h
  exact ⟨rfl, rfl⟩

theorem append (h : Spread stop rest next calls) (h' : Spread stop next last others) :
    Spread stop rest last (calls ++ others) := by
  induction h with
  | nil => exact h'
  | pass _ ih => exact .pass (ih h')
  | closed hh he hc hs hn _ _ ih => exact .closed hh he hc hs hn (ih h')
  | unclosed hh hc hs hn =>
    obtain ⟨rfl, rfl⟩ := h'.eq_nil
    exact .unclosed hh hc hs hn

end Call.Spread

namespace Cursor

variable {cursor behind next : Cursor} {token : Token} {rest : List Token} {callee : Callee}

/-- A name is passed with the dots and names that go on from it, and with its parenthesis. -/
theorem named_passes {hb : behind.rest.length ≤ (cursor.past token rest).rest.length}
    (h : cursor.rest = token :: rest) (hk : token.kind = .identifier)
    (hq : cursor.named token rest = ⟨callee, behind, hb⟩) :
    ∃ links, (∀ part ∈ token :: links, part.IsPart) ∧
      ((callee.isCalled = false ∧ cursor.rest = token :: links ++ behind.rest) ∨
        (callee.isCalled = true ∧ ∃ paren, paren.kind = .leftParen ∧
          cursor.rest = token :: links ++ paren :: behind.rest)) := by
  obtain ⟨-, hr, -, -⟩ := callee_reads token.text (cursor.past token rest)
  obtain ⟨links, hrest, hlinks⟩ := Token.exists_links token.text rest
  have hrest' : rest = (links.flatMap fun link => [link.1, link.2]) ++
      (Cursor.callee token.text (cursor.past token rest)).2.rest := by
    rw [hr]
    exact hrest
  refine ⟨links.flatMap fun link => [link.1, link.2],
    List.forall_mem_cons.2 ⟨.inl hk, fun part hm => ?_⟩, ?_⟩
  · obtain ⟨link, hl, hm⟩ := List.mem_flatMap.1 hm
    obtain ⟨hp, hn⟩ := hlinks link hl
    simp only [List.mem_cons, List.not_mem_nil, or_false] at hm
    rcases hm with rfl | rfl
    · exact .inr hp
    · exact .inl hn
  · unfold named at hq
    dsimp only at hq
    split at hq
    · cases hq
      exact .inl ⟨rfl, by rw [h, List.cons_append, ← hrest']⟩
    · rename_i inside hpast
      cases hq
      obtain ⟨paren, others, hparen, hkind, rfl⟩ := past?_eq_some hpast
      refine .inr ⟨rfl, paren, hkind, ?_⟩
      rw [h, List.cons_append]
      exact congrArg _ (hrest'.trans (congrArg _ hparen))

/-- Of a name only its parenthesis turns a bracket. -/
theorem named_turns {hb : behind.rest.length ≤ (cursor.past token rest).rest.length}
    (h : cursor.rest = token :: rest) (hk : token.kind = .identifier)
    (hq : cursor.named token rest = ⟨callee, behind, hb⟩) :
    ∃ passed, cursor.rest = passed ++ behind.rest ∧
      passed.filterMap Token.turn? = if callee.isCalled then [.opening] else [] := by
  obtain ⟨links, hparts, ⟨hc, hrest⟩ | ⟨hc, paren, hparen, hrest⟩⟩ := named_passes h hk hq
  · exact ⟨token :: links, hrest, by rw [hc, Token.turns_parts hparts]; rfl⟩
  · have hturn : paren.turn? = some .opening := by
      rw [Token.turn?, hparen]
      rfl
    refine ⟨token :: links ++ [paren], by rw [hrest, List.append_assoc]; rfl, ?_⟩
    rw [hc, List.filterMap_append, Token.turns_parts hparts, List.filterMap_cons_some hturn]
    rfl

/-- What is passed of a called name are the tokens that its call starts with. -/
theorem named_heads {hb : behind.rest.length ≤ (cursor.past token rest).rest.length}
    (h : cursor.rest = token :: rest) (hk : token.kind = .identifier)
    (hq : cursor.named token rest = ⟨callee, behind, hb⟩) (hn : callee.isCalled = true)
    (inner : Arguments) (final : Token) :
    ∃ links paren, cursor.rest = token :: (links ++ paren :: behind.rest) ∧
      (callOf token callee inner final).Heads token links paren := by
  obtain ⟨links, hparts, ⟨hu, -⟩ | ⟨-, paren, hparen, hrest⟩⟩ := named_passes h hk hq
  · exact absurd (hn.symm.trans hu) nofun
  refine ⟨links, paren, by rw [hrest, List.cons_append], hk,
    fun part hm => hparts part (List.mem_cons_of_mem _ hm), hparen, rfl, ?_⟩
  obtain ⟨more, hmore, hd⟩ := Token.exists_dotted token.text (cursor.past token rest).rest
  obtain ⟨htext, -⟩ := callee_reads token.text (cursor.past token rest)
  rw [← htext] at hmore
  refine ⟨more, hd, ?_⟩
  show callee.text = _ ∨ callee.text = _
  unfold named at hq
  dsimp only at hq
  rw [hmore] at hq
  split at hq
  · cases hq
    cases hn
  · cases hq
    dsimp only
    split
    · exact .inr rfl
    · exact .inl rfl

theorem ArgumentsPath.of_nil {depth : Nat} {list : Arguments}
    (h : ArgumentsPath depth cursor list next) (hr : cursor.rest = []) :
    list.close = none ∧ list.calls = [] ∧ next.rest = [] := by
  cases h with
  | nil => exact ⟨rfl, rfl, hr⟩
  | uncalled h => cases hr.symm.trans h
  | called h => cases hr.symm.trans h
  | close h => cases hr.symm.trans h
  | skip h => cases hr.symm.trans h

/-- What the tokens of an argument list are for it: its calls spread over them, up to the bracket
that closes it, or over all that are left. -/
structure Arguments.Takes (list : Arguments) (stop depth : Nat) (tokens rest : List Token) :
    Prop where
  unclosed : list.close = none → rest = [] ∧ Call.Spread stop tokens [] list.calls
  closed : ∀ close, list.close = some close → Call.Spread stop tokens (close :: rest) list.calls ∧
    ∀ outer, depth = outer + 1 → Token.ClosedBy outer tokens close rest

/-- Tokens in front of an argument list that go deeper into brackets. -/
theorem Arguments.Takes.prepend {list : Arguments} {stop depth inner : Nat}
    {passed tokens rest : List Token} (h : list.Takes stop inner tokens rest)
    (ht : ∀ outer, depth = outer + 1 → ∃ further, inner = further + 1 ∧
      Turn.through outer (passed.filterMap Token.turn?) = some further) :
    list.Takes stop depth (passed ++ tokens) rest := by
  have hs : tokens <:+ passed ++ tokens := List.suffix_append _ _
  refine ⟨fun hn => ?_, fun close hc => ?_⟩
  · obtain ⟨hr, hcalls⟩ := h.unclosed hn
    exact ⟨hr, hcalls.of_suffix hs⟩
  · obtain ⟨hcalls, hclosed⟩ := h.closed close hc
    refine ⟨hcalls.of_suffix hs, fun outer ho => ?_⟩
    obtain ⟨further, hi, ht⟩ := ht outer ho
    exact (hclosed further hi).prepend ht

/-- A call takes the tokens of its name and of its arguments, whether something closes it or not. -/
theorem spread_called {hb : behind.rest.length ≤ (cursor.past token rest).rest.length}
    (h : cursor.rest = token :: rest) (hk : token.kind = .identifier)
    (hq : cursor.named token rest = ⟨callee, behind, hb⟩) (hn : callee.isCalled = true)
    {inner : Arguments} {after last : List Token} {calls : List Call}
    (hi : inner.Takes cursor.final.stop 1 behind.rest after)
    (hs : Call.Spread cursor.final.stop after last calls) :
    Call.Spread cursor.final.stop cursor.rest last
      (callOf token callee inner cursor.final :: calls) := by
  obtain ⟨links, paren, hrest, hheads⟩ := named_heads h hk hq hn inner cursor.final
  rw [hrest]
  cases hc : inner.close with
  | none =>
    obtain ⟨rfl, hnested⟩ := hi.unclosed hc
    obtain ⟨rfl, rfl⟩ := hs.eq_nil
    exact .unclosed hheads (by simp [callOf, hc]) (by simp [callOf, hc]) hnested
  | some close =>
    obtain ⟨hnested, hclosed⟩ := hi.closed close hc
    obtain ⟨between, hbehind, hclose, hthrough⟩ := hclosed 0 rfl
    rw [hbehind] at hnested ⊢
    have hopen : paren.kind.isOpening = true := by
      rw [hheads.paren_eq]
      rfl
    exact .closed hheads (Token.encloses_of_through hopen hclose hthrough) (by simp [callOf, hc])
      (by simp [callOf, hc]) hnested hs

theorem ArgumentsPath.takes {depth : Nat} {list : Arguments}
    (h : ArgumentsPath depth cursor list next) :
    list.Takes cursor.final.stop depth cursor.rest next.rest := by
  induction h with
  | nil h =>
    refine ⟨fun _ => ⟨h, ?_⟩, nofun⟩
    rw [h]
    exact .nil
  | @uncalled depth cursor behind next token rest callee list hb h hk hq hn _ ih =>
    obtain ⟨passed, hpassed, hturns⟩ := named_turns h hk hq
    rw [(reaches_named h hq).final_eq] at ih
    rw [hpassed]
    refine ih.prepend fun outer ho => ⟨outer, ho, ?_⟩
    rw [hturns, hn]
    rfl
  | @called depth cursor behind close next token rest callee inner others hb h hk hq hn hi hp
      ihi ih =>
    have hbehind := reaches_named h hq
    have hclose : close.final = cursor.final := hi.reaches.final_eq.trans hbehind.final_eq
    have hafter : (close.reportUnclosed (callOf token callee inner cursor.final)).final =
        cursor.final := hclose
    rw [hbehind.final_eq] at ihi
    rw [hafter] at ih
    refine ⟨fun hnone => ?_, fun last hlast => ?_⟩
    · obtain ⟨hr, hcalls⟩ := ih.unclosed hnone
      exact ⟨hr, spread_called h hk hq hn ihi hcalls⟩
    · obtain ⟨hcalls, hclosed⟩ := ih.closed last hlast
      refine ⟨spread_called h hk hq hn ihi hcalls, fun outer ho => ?_⟩
      -- What goes on behind a call is closed, so the call is.
      cases hc : inner.close with
      | none =>
        obtain ⟨hr, -⟩ := ihi.unclosed hc
        cases (hp.of_nil hr).1.symm.trans hlast
      | some close' =>
        obtain ⟨passed, hpassed, hturns⟩ := named_turns h hk hq
        obtain ⟨-, hinner⟩ := ihi.closed close' hc
        rw [hpassed]
        refine ((hinner 0 rfl).nested (hclosed outer ho)).prepend ?_
        rw [hturns, hn]
        rfl
  | @close depth cursor token rest h hc hd =>
    refine ⟨nofun, fun close hclose => ?_⟩
    obtain rfl : token = close := Option.some.inj hclose
    rw [h]
    refine ⟨.nil, fun outer ho => ?_⟩
    obtain rfl : outer = 0 := by omega
    exact ⟨[], rfl, hc, rfl⟩
  | @skip depth cursor next token rest list h hk hc hp ih =>
    rw [h]
    refine @Arguments.Takes.prepend _ _ _ _ [token] _ _ ih fun outer ho => ?_
    subst ho
    obtain ⟨inner, ht, hinner⟩ := @TokenKind.exists_through token.kind outer fun hk => by
      have := hc hk
      omega
    refine ⟨inner, hinner, ?_⟩
    rw [through_cons, Token.turn?, ht]
    rfl

theorem StatementPath.spread {calls : List Call} (h : StatementPath cursor calls next) :
    Call.Spread cursor.final.stop cursor.rest next.rest calls := by
  induction h with
  | nil => exact .nil
  | newline h =>
    rw [h]
    exact .pass .nil
  | indentation => exact .nil
  | uncalled h hk hq _ _ ih =>
    have hbehind := reaches_named h hq
    rw [hbehind.final_eq] at ih
    exact ih.of_suffix hbehind.suffix
  | called h hk hq hn hi _ ih =>
    have hbehind := reaches_named h hq
    have hinner := hi.takes
    rw [hbehind.final_eq] at hinner
    have hafter := hi.reaches.final_eq.trans hbehind.final_eq
    refine spread_called h hk hq hn hinner ?_
    rw [← hafter]
    exact ih
  | skip h _ _ _ ih =>
    rw [h]
    exact .pass ih

end Cursor

end ManifestScan
