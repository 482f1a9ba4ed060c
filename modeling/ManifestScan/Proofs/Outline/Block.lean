import ManifestScan.Proofs.Outline.Header

namespace ManifestScan

/-- Tokens of a line that neither end it nor open an argument list. -/
def TokenKind.isPlain (kind : TokenKind) : Bool := !kind.isLayout && kind != .leftParen

namespace Cursor

variable {cursor : Cursor} {token : Token} {rest : List Token}

section

variable (h : cursor.rest = token :: rest)

include h

theorem statement_newline (hk : token.kind = .newline) :
    cursor.statement.value = [] ∧ cursor.statement.next = cursor.past token rest := by
  rw [statement]
  split
  · simp_all
  · rename_i he
    cases h.symm.trans he
    dsimp only
    rw [if_pos hk]
    exact ⟨rfl, rfl⟩

theorem statement_skip (hl : token.kind.isLayout = false) (hk : token.kind ≠ .identifier) :
    cursor.statement.value = (cursor.past token rest).statement.value ∧
      cursor.statement.next = (cursor.past token rest).statement.next := by
  have hn : token.kind ≠ .newline ∧ ¬(token.kind = .indent ∨ token.kind = .dedent) := by
    cases ht : token.kind <;> simp_all [TokenKind.isLayout]
  rw [statement]
  split
  · simp_all
  · rename_i he
    cases h.symm.trans he
    dsimp only
    rw [if_neg hn.1, if_neg hn.2, if_neg hk]
    exact ⟨rfl, rfl⟩

theorem statement_uncalled (hk : token.kind = .identifier)
    (hn : (cursor.named token rest).value.isCalled = false) :
    cursor.statement.value = (cursor.named token rest).next.statement.value ∧
      cursor.statement.next = (cursor.named token rest).next.statement.next := by
  rw [statement]
  split
  · simp_all
  · rename_i he
    cases h.symm.trans he
    dsimp only
    rw [if_neg (by simp [hk]), if_neg (by simp [hk]), if_pos hk, if_neg (by simp [hn])]
    exact ⟨rfl, rfl⟩

theorem statement_called (hk : token.kind = .identifier)
    (hn : (cursor.named token rest).value.isCalled = true) :
    let inner := arguments 1 (cursor.named token rest).next
    let call := callOf token (cursor.named token rest).value inner.value cursor.final
    let others := (inner.next.reportUnclosed call).statement
    cursor.statement.value = call :: others.value ∧ cursor.statement.next = others.next := by
  intro inner call others
  rw [statement]
  split
  · simp_all
  · rename_i he
    cases h.symm.trans he
    dsimp only
    rw [if_neg (by simp [hk]), if_neg (by simp [hk]), if_pos hk, if_pos hn]
    exact ⟨rfl, rfl⟩

end

/-- A line without argument lists has no calls. -/
theorem statement_plain {tokens more : List Token} {line : Token}
    (h : cursor.rest = tokens ++ line :: more) (hl : line.kind = .newline)
    (hp : ∀ token ∈ tokens, token.kind.isPlain = true) :
    cursor.statement.value = [] ∧ cursor.Moved cursor.statement.next more := by
  -- Not structural: a name with its parts is passed in one step.
  induction hk : tokens.length using Nat.strong_induction_on generalizing cursor tokens with
  | _ n ih =>
    subst hk
    cases tokens with
    | nil =>
      obtain ⟨hv, hn⟩ := statement_newline h hl
      rw [hv, hn]
      exact ⟨rfl, moved_past _ _ _⟩
    | cons token tokens =>
      rw [List.cons_append] at h
      have hpm := moved_past cursor token (tokens ++ line :: more)
      have ht := hp token (by simp)
      simp only [TokenKind.isPlain, Bool.and_eq_true, Bool.not_eq_true'] at ht
      by_cases hi : token.kind = .identifier
      · obtain ⟨read, left, rfl, -, hm⟩ := callee_split token.text hpm.rest_eq
          (by simp [hl]) (by simp [hl])
        replace hm := hpm.trans hm
        have hleft : ∀ other ∈ left, other.kind.isPlain = true :=
          fun other ho => hp other (by simp [ho])
        obtain ⟨next, others, he, hn⟩ : ∃ next others, left ++ line :: more = next :: others ∧
            next.kind ≠ .leftParen := by
          cases left with
          | nil => exact ⟨line, more, rfl, by simp [hl]⟩
          | cons next left =>
            have := hleft next (by simp)
            simp only [TokenKind.isPlain, Bool.and_eq_true, bne_iff_ne] at this
            exact ⟨next, _, rfl, this.2⟩
        obtain ⟨hu, hx⟩ := named_uncalled (hm.rest_eq.trans he) hn
        obtain ⟨hv, hy⟩ := statement_uncalled h hi hu
        rw [hv, hy, hx]
        have hlt : left.length < (token :: (read ++ left)).length := by
          rw [List.length_cons, List.length_append]
          omega
        obtain ⟨hv, hy⟩ := ih left.length hlt hm.rest_eq hleft rfl
        exact ⟨hv, hm.trans hy⟩
      · obtain ⟨hv, hx⟩ := statement_skip h ht.1 hi
        rw [hv, hx]
        obtain ⟨hv, hy⟩ := ih tokens.length (Nat.lt_succ_self _) hpm.rest_eq
          (fun other ho => hp other (by simp [ho])) rfl
        exact ⟨hv, hpm.trans hy⟩

/-- A line whose brackets close each other is one statement. -/
theorem statement_balanced {tokens more : List Token} {line : Token} {depth : Nat}
    (h : cursor.rest = tokens ++ line :: more) (hl : line.kind = .newline)
    (hp : ∀ token ∈ tokens, token.kind.isLayout = false)
    (ht : Turn.through depth (tokens.filterMap Token.turn?) = some 0) :
    cursor.Moved cursor.statement.next more := by
  -- Not structural: a call is passed in one step, with its argument list.
  induction hk : tokens.length using Nat.strong_induction_on generalizing cursor tokens depth with
  | _ n ih =>
    subst hk
    cases tokens with
    | nil =>
      obtain ⟨-, hn⟩ := statement_newline h hl
      rw [hn]
      exact moved_past _ _ _
    | cons token tokens =>
      rw [List.cons_append] at h
      obtain ⟨htoken, htokens⟩ := List.forall_mem_cons.1 hp
      rw [through_cons] at ht
      by_cases hi : token.kind = .identifier
      · rw [Token.turn?, hi] at ht
        have hline : line.kind ∉ [.dot, .identifier, .leftParen] := by simp [hl]
        rcases @named_cases cursor token line tokens more depth hline ht with
          ⟨hu, left, hs, hm, ht⟩ | ⟨hu, inner, last, others, hs, hlt, hc, hm, hti, hto⟩
        · obtain ⟨-, hx⟩ := statement_uncalled h hi hu
          rw [hx]
          exact hm.trans (ih left.length (Nat.lt_succ_of_le hs.length_le) hm.rest_eq
            (fun other ho => htokens other (hs.subset ho)) ht rfl)
        · obtain ⟨-, hx⟩ := statement_called h hi hu
          rw [hx]
          obtain ⟨hclose, hmi⟩ := arguments_balanced hm.rest_eq hc hti
          rw [Nat.zero_add] at hclose hmi
          generalize hcall : callOf token _ _ cursor.final = call
          have hclosed : call.closed = true := by
            rw [← hcall]
            exact congrArg Option.isSome hclose
          have hreport := hm.trans (hmi.trans (moved_reportUnclosed hclosed))
          rw [hmi.rest_eq] at hreport
          exact hreport.trans (ih others.length (Nat.lt_succ_of_le hs.length_le) hreport.rest_eq
            (fun other ho => htokens other (hs.subset ho)) hto rfl)
      · obtain ⟨next, -, ht⟩ := Option.bind_eq_some_iff.1 ht
        obtain ⟨-, hx⟩ := statement_skip h htoken hi
        rw [hx]
        have hm := moved_past cursor token (tokens ++ line :: more)
        exact hm.trans (ih tokens.length (Nat.lt_succ_self _) hm.rest_eq htokens ht rfl)

theorem block_nil (outermost : Bool) (pending : List Decorator) (h : cursor.rest = []) :
    (block outermost pending cursor).value = ⟨[], []⟩ ∧
      (block outermost pending cursor).next = cursor := by
  rw [block]
  split
  · exact ⟨rfl, rfl⟩
  · simp_all

section

variable (h : cursor.rest = token :: rest)

include h

theorem block_dedent (pending : List Decorator) (hk : token.kind = .dedent) :
    (block false pending cursor).value = ⟨[], []⟩ ∧
      (block false pending cursor).next = cursor.past token rest := by
  rw [block]
  split
  · simp_all
  · rename_i he
    cases h.symm.trans he
    dsimp only
    rw [if_pos ⟨hk, rfl⟩]
    exact ⟨rfl, rfl⟩

theorem pastAsync_of_ne (hk : token.kind ≠ .asyncWord) : cursor.pastAsync = cursor := by
  unfold pastAsync
  split
  · rename_i he
    cases h.symm.trans he
    exact if_neg fun ha => hk ha.1
  · rfl

/-- A line that no keyword of a definition starts. -/
theorem block_unkeyed (outermost : Bool) (hl : token.kind.isLayout = false) (ha : token.kind ≠ .at)
    (hp : cursor.pastAsync.pastKeyword? = none) :
    let others := block outermost [] cursor.statement.next
    (block outermost [] cursor).value =
        ⟨cursor.statement.value ++ others.value.calls, others.value.definitions⟩ ∧
      (block outermost [] cursor).next = others.next := by
  intro others
  have hn : ¬(token.kind = .dedent ∨ token.kind = .newline) ∧ token.kind ≠ .indent ∧
      token.kind ≠ .dedent := by
    cases ht : token.kind <;> simp_all [TokenKind.isLayout]
  rw [block]
  split
  · simp_all
  · rename_i he
    cases h.symm.trans he
    dsimp only
    rw [if_neg (fun hd => hn.2.2 hd.1), dif_neg hn.1, dif_neg hn.2.1, if_neg ha]
    split
    · simp_all
    · exact ⟨rfl, rfl⟩

theorem pastKeyword?_eq_none (hk : token.kind ∉ [.asyncWord, .defWord, .classWord]) :
    cursor.pastAsync.pastKeyword? = none := by
  simp only [List.mem_cons, List.not_mem_nil, or_false, not_or] at hk
  rw [pastAsync_of_ne h hk.1, pastKeyword?, h]
  exact if_neg (by simp [hk])

/-- A line that no definition starts. -/
theorem block_statement (outermost : Bool) (hl : token.kind.isLayout = false)
    (hk : token.kind ∉ [.at, .asyncWord, .defWord, .classWord]) :
    let others := block outermost [] cursor.statement.next
    (block outermost [] cursor).value =
        ⟨cursor.statement.value ++ others.value.calls, others.value.definitions⟩ ∧
      (block outermost [] cursor).next = others.next := by
  rw [List.mem_cons, not_or] at hk
  exact block_unkeyed h outermost hl hk.1 (pastKeyword?_eq_none h hk.2)

/-- A definition whose body is a block, or that has none. -/
theorem block_keyword (outermost : Bool) {pending : List Decorator}
    (hk : token.kind = .defWord ∨ token.kind = .classWord) :
    let start := header pending token (cursor.past token rest)
    let inner := block false [] start.next
    let others := block outermost [] inner.next
    let missing := block outermost [] start.next
    (start.form = .block →
      (block outermost pending cursor).value =
        ⟨others.value.calls, closeDefinition { start.definition with
          calls := inner.value.calls, definitions := inner.value.definitions } inner.next ::
            others.value.definitions⟩ ∧
        (block outermost pending cursor).next = others.next) ∧
      (start.form = .missing →
        (block outermost pending cursor).value = ⟨missing.value.calls,
            closeDefinition start.definition start.next :: missing.value.definitions⟩ ∧
          (block outermost pending cursor).next = missing.next) := by
  intro start inner others missing
  have hp : cursor.pastAsync.pastKeyword? = some (token, cursor.past token rest) := by
    rw [pastAsync_of_ne h (by rcases hk with hk | hk <;> simp [hk]), pastKeyword?, h]
    exact if_pos hk
  rw [block]
  split
  · simp_all
  · rename_i he
    cases h.symm.trans he
    dsimp only
    have hne : ∀ kind ∈ [TokenKind.dedent, .newline, .indent, .at], token.kind ≠ kind := by
      rcases hk with hk | hk <;> simp [hk]
    simp only [List.mem_cons, List.not_mem_nil, or_false, forall_eq_or_imp, forall_eq] at hne
    rw [if_neg (by simp [hne]), dif_neg (by simp [hne]), dif_neg (by simp [hne]),
      if_neg (by simp [hne])]
    split
    · rename_i hq
      cases hp.symm.trans hq
      split
      · rename_i hm _
        exact ⟨fun hf => absurd (hf.symm.trans hm) (by decide), fun _ => ⟨rfl, rfl⟩⟩
      · rename_i hm _
        exact ⟨fun hf => absurd (hf.symm.trans hm) (by decide),
          fun hf => absurd (hf.symm.trans hm) (by decide)⟩
      · rename_i hm _
        exact ⟨fun _ => ⟨rfl, rfl⟩, fun hf => absurd (hf.symm.trans hm) (by decide)⟩
    · simp_all

end

end Cursor

end ManifestScan
