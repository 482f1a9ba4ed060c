import ManifestScan.Outline.Parser
import ManifestScan.Proofs.Lexing.Segment

namespace ManifestScan.Cursor

structure Moved (cursor next : Cursor) (rest : List Token) : Prop where
  rest_eq : next.rest = rest
  source_eq : next.source = cursor.source
  final_eq : next.final = cursor.final
  faults_eq : next.faults = cursor.faults

variable {cursor : Cursor} {token : Token} {rest : List Token}

theorem Moved.refl (h : cursor.rest = rest) : cursor.Moved cursor rest := ⟨h, rfl, rfl, rfl⟩

theorem Moved.trans {next last : Cursor} {more : List Token} (h : cursor.Moved next rest)
    (h' : next.Moved last more) : cursor.Moved last more :=
  ⟨h'.rest_eq, h'.source_eq.trans h.source_eq, h'.final_eq.trans h.final_eq,
    h'.faults_eq.trans h.faults_eq⟩

theorem moved_past (cursor : Cursor) (token : Token) (rest : List Token) :
    cursor.Moved (cursor.past token rest) rest := ⟨rfl, rfl, rfl, rfl⟩

theorem past?_of_rest {kind : TokenKind} (h : cursor.rest = token :: rest)
    (hk : token.kind = kind) :
    cursor.past? kind = some (cursor.past token rest) := by
  rw [past?, h]
  exact if_pos hk

theorem past?_of_ne {kind : TokenKind} (h : cursor.rest = token :: rest) (hk : token.kind ≠ kind) :
    cursor.past? kind = none := by
  rw [past?, h]
  exact if_neg hk

section

variable (h : cursor.rest = token :: rest) (depth : Nat)

include h

/-- A name that no argument list follows changes nothing. -/
theorem arguments_uncalled (hk : token.kind = .identifier)
    (hn : (cursor.named token rest).value.isCalled = false) :
    (arguments depth cursor).value = (arguments depth (cursor.named token rest).next).value ∧
      (arguments depth cursor).next = (arguments depth (cursor.named token rest).next).next := by
  rw [arguments]
  split
  · simp_all
  · rename_i he
    cases h.symm.trans he
    dsimp only
    rw [if_pos hk, if_neg (by simp [hn])]
    exact ⟨rfl, rfl⟩

/-- A call takes the tokens up to the bracket that closes it. -/
theorem arguments_called (hk : token.kind = .identifier)
    (hn : (cursor.named token rest).value.isCalled = true) :
    let inner := arguments 1 (cursor.named token rest).next
    let call := callOf token (cursor.named token rest).value inner.value cursor.final
    let others := arguments depth (inner.next.reportUnclosed call)
    (arguments depth cursor).value = ⟨call :: others.value.calls, others.value.close⟩ ∧
      (arguments depth cursor).next = others.next := by
  intro inner call others
  rw [arguments]
  split
  · simp_all
  · rename_i he
    cases h.symm.trans he
    dsimp only
    rw [if_pos hk, if_pos hn]
    exact ⟨rfl, rfl⟩

theorem arguments_close (hc : token.kind.isClosing = true) (hd : depth ≤ 1) :
    (arguments depth cursor).value = ⟨[], some token⟩ ∧
      (arguments depth cursor).next = cursor.past token rest := by
  have hk : token.kind ≠ .identifier := by
    intro hk
    rw [hk] at hc
    cases hc
  rw [arguments]
  split
  · simp_all
  · rename_i he
    cases h.symm.trans he
    dsimp only
    rw [if_neg hk, if_pos ⟨hc, hd⟩]
    exact ⟨rfl, rfl⟩

theorem arguments_skip (hk : token.kind ≠ .identifier)
    (hc : token.kind.isClosing = true → 1 < depth) :
    (arguments depth cursor).value =
        (arguments (token.kind.depthAfter depth) (cursor.past token rest)).value ∧
      (arguments depth cursor).next =
        (arguments (token.kind.depthAfter depth) (cursor.past token rest)).next := by
  rw [arguments]
  split
  · simp_all
  · rename_i he
    cases h.symm.trans he
    dsimp only
    rw [if_neg hk, if_neg fun hn => Nat.not_lt.2 hn.2 (hc hn.1)]
    exact ⟨rfl, rfl⟩

end

theorem named_called {start : Token} {tokens : List Token}
    (hn : (callee start.text (cursor.past start tokens)).2.rest = token :: rest)
    (hk : token.kind = .leftParen) :
    (cursor.named start tokens).value.isCalled = true ∧
      (cursor.named start tokens).next =
        (callee start.text (cursor.past start tokens)).2.past token rest ∧
      (cursor.previous.kind ≠ .dot → (cursor.named start tokens).value.text =
        (callee start.text (cursor.past start tokens)).1) := by
  have hp := past?_of_rest hn hk
  unfold named
  dsimp only
  split
  · simp_all
  · rename_i he
    cases hp.symm.trans he
    exact ⟨rfl, rfl, fun hd => if_neg hd⟩

theorem named_uncalled {start : Token} {tokens : List Token}
    (hn : (callee start.text (cursor.past start tokens)).2.rest = token :: rest)
    (hk : token.kind ≠ .leftParen) :
    (cursor.named start tokens).value.isCalled = false ∧
      (cursor.named start tokens).next = (callee start.text (cursor.past start tokens)).2 := by
  have hp := past?_of_ne hn hk
  unfold named
  dsimp only
  split
  · exact ⟨rfl, rfl⟩
  · simp_all

/-- A name reaches no further than up to the bracket behind it. -/
theorem callee_split {tokens : List Token} (start : Bytes)
    (h : cursor.rest = tokens ++ token :: rest) (hd : token.kind ≠ .dot)
    (hi : token.kind ≠ .identifier) :
    ∃ read left, tokens = read ++ left ∧ read.filterMap Token.turn? = [] ∧
      cursor.Moved (callee start cursor).2 (left ++ token :: rest) := by
  fun_induction callee start cursor generalizing tokens with
  | case1 start cursor point name others he hk ih =>
    cases tokens with
    | nil =>
      rw [h] at he
      cases he
      exact absurd hk.1 hd
    | cons first tokens =>
      cases tokens with
      | nil =>
        rw [h] at he
        cases he
        exact absurd hk.2 hi
      | cons second tokens =>
        rw [h] at he
        cases he
        obtain ⟨read, left, ht, hr, hm⟩ := ih rfl
        refine ⟨point :: name :: read, left, by rw [ht]; rfl, ?_, ?_⟩
        · have hp : point.turn? = none := by rw [Token.turn?, hk.1]; rfl
          have hn : name.turn? = none := by rw [Token.turn?, hk.2]; rfl
          simp [hp, hn, hr]
        · exact ⟨hm.rest_eq, hm.source_eq, hm.final_eq, hm.faults_eq⟩
  | case2 => exact ⟨[], tokens, rfl, rfl, .refl h⟩
  | case3 => exact ⟨[], tokens, rfl, rfl, .refl h⟩

end ManifestScan.Cursor

namespace ManifestScan

theorem through_cons (depth : Nat) (token : Token) (tokens : List Token) :
    Turn.through depth ((token :: tokens).filterMap Token.turn?) =
      (Turn.through depth token.turn?.toList).bind
        fun next => Turn.through next (tokens.filterMap Token.turn?) := by
  rw [← Turn.through_append]
  cases h : token.turn? <;> simp [h]

theorem isClosing_of_turn? {token : Token} (h : token.turn? = some .closing) :
    token.kind.isClosing = true := by
  unfold Token.turn? TokenKind.turn? at h
  split at h
  · cases h
  · split at h
    · assumption
    · cases h

/-- Where the last of the inner brackets is closed. -/
theorem exists_close {tokens : List Token} {depth outer : Nat}
    (h : Turn.through (depth + (outer + 1)) (tokens.filterMap Token.turn?) = some 0) :
    ∃ inner close others, tokens = inner ++ close :: others ∧ close.kind.isClosing = true ∧
      Turn.through depth (inner.filterMap Token.turn?) = some 0 ∧
      Turn.through outer (others.filterMap Token.turn?) = some 0 := by
  induction tokens generalizing depth with
  | nil => cases h
  | cons token tokens ih =>
    rw [through_cons] at h
    -- Unless the token closes the bracket, it stands in front of the one that does.
    have keep : ∀ next, Turn.through depth token.turn?.toList = some next →
        Turn.through (next + (outer + 1)) (tokens.filterMap Token.turn?) = some 0 →
        ∃ inner close others, token :: tokens = inner ++ close :: others ∧
          close.kind.isClosing = true ∧
          Turn.through depth (inner.filterMap Token.turn?) = some 0 ∧
          Turn.through outer (others.filterMap Token.turn?) = some 0 := by
      intro next hn ht
      obtain ⟨inner, close, others, rfl, hc, hi, ho⟩ := ih ht
      refine ⟨token :: inner, close, others, rfl, hc, ?_, ho⟩
      rw [through_cons, hn]
      exact hi
    cases ht : token.turn? with
    | none =>
      rw [ht] at h keep
      exact keep depth rfl h
    | some turn =>
      rw [ht] at h keep
      cases turn with
      | opening =>
        refine keep (depth + 1) rfl ?_
        rw [Nat.add_right_comm]
        exact h
      | closing =>
        cases depth with
        | zero =>
          rw [Nat.zero_add] at h
          exact ⟨[], token, tokens, rfl, isClosing_of_turn? ht, rfl, h⟩
        | succ depth =>
          refine keep depth rfl ?_
          rw [Nat.add_right_comm] at h
          exact h

theorem TokenKind.turn?_of_isClosing {kind : TokenKind} (h : kind.isClosing = true) :
    kind.turn? = some .closing := by
  cases kind <;> first | rfl | cases h

theorem TokenKind.notMem_of_isClosing {kind : TokenKind} {others : List TokenKind}
    (h : kind.isClosing = true) (ho : ∀ other ∈ others, other.isClosing = false) :
    kind ∉ others := by
  intro hm
  rw [ho kind hm] at h
  cases h

namespace Cursor

theorem moved_reportUnclosed {cursor : Cursor} {call : Call} (h : call.closed = true) :
    cursor.Moved (cursor.reportUnclosed call) cursor.rest := by
  refine ⟨rfl, rfl, rfl, ?_⟩
  rw [reportUnclosed, if_pos h]

/-- Behind a call whose argument list is closed the reading goes on at the same depth. -/
theorem arguments_closed {cursor : Cursor} {token close : Token} {rest others : List Token}
    (h : cursor.rest = token :: rest) (depth : Nat) (hk : token.kind = .identifier)
    (hn : (cursor.named token rest).value.isCalled = true)
    (hc : (arguments 1 (cursor.named token rest).next).value.close = some close)
    (hm : cursor.Moved (arguments 1 (cursor.named token rest).next).next others) :
    let inner := arguments 1 (cursor.named token rest).next
    let call := callOf token (cursor.named token rest).value inner.value cursor.final
    ∃ next, cursor.Moved next others ∧ next.previous = inner.next.previous ∧ call.closed = true ∧
      (arguments depth cursor).value =
        ⟨call :: (arguments depth next).value.calls, (arguments depth next).value.close⟩ ∧
      (arguments depth cursor).next = (arguments depth next).next := by
  intro inner call
  have hclosed : call.closed = true := by
    show inner.value.close.isSome = true
    rw [hc]
    rfl
  obtain ⟨hv, hy⟩ := arguments_called h depth hk hn
  have hreport := hm.trans (moved_reportUnclosed hclosed)
  rw [hm.rest_eq] at hreport
  exact ⟨inner.next.reportUnclosed call, hreport, rfl, hclosed, hv, hy⟩

/-- Among tokens whose brackets close each other a name stands alone, or an argument list follows it
up to the bracket that closes the list. -/
theorem named_cases {cursor : Cursor} {token close : Token} {tokens more : List Token} {depth : Nat}
    (hc : close.kind ∉ [.dot, .identifier, .leftParen])
    (ht : Turn.through depth (tokens.filterMap Token.turn?) = some 0) :
    let read := cursor.named token (tokens ++ close :: more)
    (read.value.isCalled = false ∧ ∃ left, left <:+ tokens ∧
        cursor.Moved read.next (left ++ close :: more) ∧
        Turn.through depth (left.filterMap Token.turn?) = some 0) ∨
      (read.value.isCalled = true ∧ ∃ inner last others, others <:+ tokens ∧
        inner.length + others.length < tokens.length ∧ last.kind.isClosing = true ∧
        cursor.Moved read.next (inner ++ last :: (others ++ close :: more)) ∧
        Turn.through 0 (inner.filterMap Token.turn?) = some 0 ∧
        Turn.through depth (others.filterMap Token.turn?) = some 0) := by
  intro name
  simp only [List.mem_cons, List.not_mem_nil, or_false, not_or] at hc
  have hp := moved_past cursor token (tokens ++ close :: more)
  obtain ⟨read, left, rfl, hr, hm⟩ := callee_split token.text hp.rest_eq hc.1 hc.2.1
  replace hm := hp.trans hm
  rw [List.filterMap_append, hr, List.nil_append] at ht
  rw [List.length_append]
  -- Two cases need it: no token is left, or the next one opens no list.
  have uncalled : ∀ {next : Token} {others : List Token}, left ++ close :: more = next :: others →
      next.kind ≠ .leftParen → name.value.isCalled = false ∧
        cursor.Moved name.next (left ++ close :: more) := by
    intro next others he hn
    obtain ⟨hu, hx⟩ := named_uncalled (hm.rest_eq.trans he) hn
    exact ⟨hu, hx ▸ hm⟩
  cases left with
  | nil =>
    obtain ⟨hu, hx⟩ := uncalled rfl hc.2.2
    exact .inl ⟨hu, [], List.suffix_append _ _, hx, ht⟩
  | cons mark left =>
    by_cases ho : mark.kind = .leftParen
    · obtain ⟨hu, hx, -⟩ := named_called hm.rest_eq ho
      rw [through_cons, Token.turn?, ho] at ht
      have ht : Turn.through (0 + (depth + 1)) (left.filterMap Token.turn?) = some 0 := by
        rw [Nat.zero_add]
        exact ht
      obtain ⟨inner, last, others, rfl, hl, hti, hto⟩ := exists_close ht
      refine .inr
        ⟨hu, inner, last, others, ⟨read ++ mark :: (inner ++ [last]), by simp⟩, ?_, hl, ?_,
        hti, hto⟩
      · simp only [List.length_cons, List.length_append]
        omega
      · rw [hx]
        exact ⟨by simp [past], hm.source_eq, hm.final_eq, hm.faults_eq⟩
    · obtain ⟨hu, hx⟩ := uncalled rfl ho
      exact .inl ⟨hu, mark :: left, List.suffix_append _ _, hx, ht⟩

/-- An argument list ends at the bracket that closes it. -/
theorem arguments_balanced {cursor : Cursor} {tokens more : List Token} {close : Token}
    {depth : Nat} (h : cursor.rest = tokens ++ close :: more)
    (hc : close.kind.isClosing = true)
    (ht : Turn.through depth (tokens.filterMap Token.turn?) = some 0) :
    (arguments (depth + 1) cursor).value.close = some close ∧
      cursor.Moved (arguments (depth + 1) cursor).next more := by
  -- Not structural: a call is read by an inner list and then by what is behind it.
  induction hk : tokens.length using Nat.strong_induction_on
    generalizing cursor tokens close more depth with
  | _ n ih =>
    subst hk
    cases tokens with
    | nil =>
      cases ht
      obtain ⟨hv, hn⟩ := arguments_close h 1 hc (Nat.le_refl _)
      rw [hv, hn]
      exact ⟨rfl, moved_past _ _ _⟩
    | cons token tokens =>
      rw [List.cons_append] at h
      rw [List.length_cons] at ih
      rw [through_cons] at ht
      by_cases hi : token.kind = .identifier
      · rw [Token.turn?, hi] at ht
        have hclose : close.kind ∉ [.dot, .identifier, .leftParen] :=
          TokenKind.notMem_of_isClosing hc (by decide)
        rcases @named_cases cursor token close tokens more depth hclose ht with
          ⟨hu, left, hs, hm, ht⟩ | ⟨hu, inner, last, others, -, hlt, hl, hm, hti, hto⟩
        · obtain ⟨hv, hx⟩ := arguments_uncalled h (depth + 1) hi hu
          rw [hv, hx]
          obtain ⟨hv, hx⟩ := ih left.length (Nat.lt_succ_of_le hs.length_le) hm.rest_eq hc ht rfl
          exact ⟨hv, hm.trans hx⟩
        · obtain ⟨hvi, hxi⟩ := ih inner.length (by omega) hm.rest_eq hl hti rfl
          obtain ⟨next, hmo, -, -, hv, hx⟩ := arguments_closed h (depth + 1) hi hu hvi
            (hm.trans hxi)
          rw [hv, hx]
          obtain ⟨hvo, hxo⟩ := ih others.length (by omega) hmo.rest_eq hc hto rfl
          exact ⟨hvo, hmo.trans hxo⟩
      · obtain ⟨next, hn, ht⟩ := Option.bind_eq_some_iff.1 ht
        have hd : token.kind.depthAfter (depth + 1) = next + 1 := by
          rw [Nat.add_comm, TokenKind.depthAfter_of_through hn, Nat.add_comm]
        -- A closing bracket closes one that was opened in the list, not the list.
        have hcl : token.kind.isClosing = true → 1 < depth + 1 := by
          intro hcl
          rw [Token.turn?, TokenKind.turn?_of_isClosing hcl] at hn
          cases depth with
          | zero => cases hn
          | succ depth => omega
        obtain ⟨hv, hx⟩ := arguments_skip h (depth + 1) hi hcl
        rw [hv, hx, hd]
        have hm := moved_past cursor token (tokens ++ close :: more)
        obtain ⟨hv, hx⟩ := ih tokens.length (Nat.lt_succ_self _) hm.rest_eq hc ht rfl
        exact ⟨hv, hm.trans hx⟩

end Cursor

end ManifestScan
