import ManifestScan.Proofs.Outline.Arguments
import ManifestScan.Proofs.Outline.Passes

namespace ManifestScan

/-- The tokens, behind `depth` open brackets, have no colon outside brackets. -/
def Token.ColonsInside : Nat → List Token → Prop
  | _, [] => True
  | depth, token :: rest =>
    (depth = 0 → token.kind ≠ .colon) ∧ ColonsInside (token.kind.depthAfter depth) rest

namespace Cursor

variable {cursor : Cursor} {token : Token} {rest : List Token}

section

variable (h : cursor.rest = token :: rest)

include h

theorem pastBrackets_last (span : Span) {depth : Nat} (hd : token.kind.depthAfter depth = 0) :
    pastBrackets span depth cursor = cursor.past token rest := by
  rw [pastBrackets]
  split
  · simp_all
  · rename_i he
    cases h.symm.trans he
    rw [hd]

theorem pastBrackets_inner (span : Span) {depth inner : Nat}
    (hd : token.kind.depthAfter depth = inner + 1) :
    pastBrackets span depth cursor = pastBrackets span (inner + 1) (cursor.past token rest) := by
  rw [pastBrackets]
  split
  · simp_all
  · rename_i he
    cases h.symm.trans he
    rw [hd]

theorem pastReturnType_stop (hk : token.kind = .colon) : cursor.pastReturnType = cursor := by
  rw [pastReturnType]
  split
  · rfl
  · rename_i he
    cases h.symm.trans he
    rw [if_pos (.inl hk)]

theorem pastReturnType_opening (ho : token.kind.isOpening = true) :
    cursor.pastReturnType =
      (pastBrackets token.span 1 (cursor.past token rest)).pastReturnType := by
  have hd : token.kind.depthAfter 0 = 0 + 1 := if_pos ho
  have hn : ¬(token.kind = .colon ∨ token.kind = .newline) := by
    rintro (hk | hk) <;> rw [hk] at ho <;> cases ho
  rw [← pastBrackets_inner h token.span hd, pastReturnType]
  split
  · simp_all
  · rename_i he
    cases h.symm.trans he
    rw [if_neg hn, if_pos ho]

theorem pastReturnType_skip (hc : token.kind ≠ .colon) (hl : token.kind ≠ .newline)
    (ho : token.kind.isOpening = false) :
    cursor.pastReturnType = (cursor.past token rest).pastReturnType := by
  rw [pastReturnType]
  split
  · simp_all
  · rename_i he
    cases h.symm.trans he
    rw [if_neg (by simp [hc, hl]), if_neg (by simp [ho])]

end

/-- Brackets are passed up to the one that closes the outermost of them. -/
theorem moved_pastBrackets {tokens : List Token} {close : Token} {depth : Nat} (span : Span)
    (h : cursor.rest = tokens ++ close :: rest) (hc : close.kind.isClosing = true)
    (ht : Turn.through depth (tokens.filterMap Token.turn?) = some 0) :
    cursor.Moved (pastBrackets span (depth + 1) cursor) rest := by
  induction tokens generalizing cursor depth with
  | nil =>
    cases ht
    have hclose : Turn.through 1 close.kind.turn?.toList = some 0 := by
      rw [TokenKind.turn?_of_isClosing hc]
      rfl
    have hd := @TokenKind.depthAfter_of_through _ 0 _ _ hclose
    rw [pastBrackets_last h span hd]
    exact moved_past _ _ _
  | cons token tokens ih =>
    rw [through_cons] at ht
    obtain ⟨next, hn, ht⟩ := Option.bind_eq_some_iff.1 ht
    have hd : token.kind.depthAfter (depth + 1) = next + 1 := by
      rw [Nat.add_comm, TokenKind.depthAfter_of_through hn, Nat.add_comm]
    rw [pastBrackets_inner h span hd]
    have hm := moved_past cursor token (tokens ++ close :: rest)
    exact hm.trans (ih hm.rest_eq ht)

/-- The annotation goes on behind the brackets that are open. -/
def pastHint (span : Span) : Nat → Cursor → Cursor
  | 0, cursor => cursor.pastReturnType
  | depth + 1, cursor => (pastBrackets span (depth + 1) cursor).pastReturnType

theorem pastHint_cons (span : Span) (h : cursor.rest = token :: rest)
    (hl : token.kind.isLayout = false) {depth next : Nat}
    (ht : Turn.through depth token.kind.turn?.toList = some next)
    (hc : depth = 0 → token.kind ≠ .colon) :
    ∃ span', pastHint span depth cursor = pastHint span' next (cursor.past token rest) := by
  have hd := @TokenKind.depthAfter_of_through _ 0 _ _ ht
  rw [Nat.zero_add, Nat.zero_add] at hd
  cases depth with
  | zero =>
    by_cases ho : token.kind.isOpening = true
    · obtain rfl : 0 + 1 = next := (if_pos ho).symm.trans hd
      exact ⟨token.span, pastReturnType_opening h ho⟩
    · have hn : token.kind ≠ .newline := fun he => by
        rw [he] at hl
        cases hl
      unfold TokenKind.turn? at ht
      rw [if_neg ho] at ht
      split at ht
      · cases ht
      · cases ht
        exact ⟨span, pastReturnType_skip h (hc rfl) hn (by simpa using ho)⟩
  | succ depth =>
    refine ⟨span, ?_⟩
    cases next with
    | zero => exact congrArg pastReturnType (pastBrackets_last h span hd)
    | succ next => exact congrArg pastReturnType (pastBrackets_inner h span hd)

theorem moved_pastHint {tokens : List Token} {stop : Token} {depth : Nat} (span : Span)
    (h : cursor.rest = tokens ++ stop :: rest) (hs : stop.kind = .colon)
    (hl : ∀ token ∈ tokens, token.kind.isLayout = false)
    (ht : Turn.through depth (tokens.filterMap Token.turn?) = some 0)
    (hc : Token.ColonsInside depth tokens) :
    cursor.Moved (pastHint span depth cursor) (stop :: rest) := by
  induction tokens generalizing cursor depth span with
  | nil =>
    cases ht
    rw [pastHint, pastReturnType_stop h hs]
    exact .refl h
  | cons token tokens ih =>
    rw [through_cons] at ht
    obtain ⟨next, hn, ht⟩ := Option.bind_eq_some_iff.1 ht
    obtain ⟨htoken, htokens⟩ := List.forall_mem_cons.1 hl
    obtain ⟨hcolon, hc⟩ := hc
    have hd := @TokenKind.depthAfter_of_through _ 0 _ _ hn
    rw [Nat.zero_add, Nat.zero_add] at hd
    rw [hd] at hc
    obtain ⟨span', he⟩ := pastHint_cons span h htoken hn hcolon
    rw [he]
    have hm := moved_past cursor token (tokens ++ stop :: rest)
    exact hm.trans (ih span' hm.rest_eq htokens ht hc)

/-- An annotation without colons outside brackets is passed up to the colon behind it. -/
theorem moved_pastReturnType {tokens : List Token} {stop : Token}
    (h : cursor.rest = tokens ++ stop :: rest) (hs : stop.kind = .colon)
    (hl : ∀ token ∈ tokens, token.kind.isLayout = false)
    (ht : Turn.through 0 (tokens.filterMap Token.turn?) = some 0)
    (hc : Token.ColonsInside 0 tokens) : cursor.Moved cursor.pastReturnType (stop :: rest) :=
  moved_pastHint cursor.token.span h hs hl ht hc

/-- The parentheses of a definition and what is in them. -/
theorem parameterList_passes {first close : Token} {inner : List Token} {definition : Definition}
    (h : cursor.rest = first :: (inner ++ close :: rest)) (hf : first.kind = .leftParen)
    (hc : close.kind.isClosing = true)
    (ht : Turn.through 0 (inner.filterMap Token.turn?) = some 0) :
    (cursor.parameterList definition).1 =
        { definition with parameters := some ⟨first.offset, close.stop⟩ } ∧
      cursor.Moved (cursor.parameterList definition).2 rest := by
  have htoken : cursor.token = first := by rw [token, h]; rfl
  have hopen : first.kind.depthAfter 0 = 0 + 1 := by rw [hf]; rfl
  have hm := moved_past cursor first (inner ++ close :: rest)
  have hmoved := hm.trans (moved_pastBrackets first.span hm.rest_eq hc ht)
  rw [← pastBrackets_inner h first.span hopen] at hmoved
  -- The last token passed is the bracket that closes the list.
  have hrest : cursor.rest =
      (first :: inner ++ [close]) ++ (pastBrackets first.span 0 cursor).rest := by
    rw [h, hmoved.rest_eq]
    simp
  have hlast := ((reaches_pastBrackets first.span 0 cursor).passes hrest).previous_eq
  rw [List.getLastD_concat] at hlast
  unfold parameterList
  rw [htoken, if_pos hf]
  dsimp only
  rw [hlast]
  exact ⟨rfl, hmoved⟩

/-- The tokens between the parameters and the colon of a header, with the annotation
they stand for. -/
inductive ReturnTokens (source : Bytes) : List Token → Option Bytes → Prop
  | none : ReturnTokens source [] none
  | some {arrow first last : Token} {tokens : List Token} (ha : arrow.kind = .arrow)
    (hl : ∀ token ∈ tokens, token.kind.isLayout = false)
    (ht : Turn.through 0 (tokens.filterMap Token.turn?) = some 0) (hc : Token.ColonsInside 0 tokens)
    (hf : tokens.head? = some first) (hs : tokens.getLast? = some last)
    (hlt : first.offset < last.stop) :
    ReturnTokens source (arrow :: tokens) (some (slice source first.offset last.stop))

theorem returnType_passes {stop : Token} {tokens : List Token} {returns : Option Bytes}
    {definition : Definition} (hr : ReturnTokens cursor.source tokens returns)
    (h : cursor.rest = tokens ++ stop :: rest) (hs : stop.kind = .colon)
    (hd : definition.returns = none) :
    (cursor.returnType definition).1 = { definition with returns := returns } ∧
      cursor.Moved (cursor.returnType definition).2 (stop :: rest) := by
  cases hr with
  | none =>
    unfold returnType
    rw [past?_of_ne h (by simp [hs])]
    dsimp only
    refine ⟨?_, .refl h⟩
    cases definition
    cases hd
    rfl
  | @some arrow first last tokens ha hl ht hc hf hlast hlt =>
    rw [List.cons_append] at h
    have hm := moved_past cursor arrow (tokens ++ stop :: rest)
    have hmoved := moved_pastReturnType hm.rest_eq hs hl ht hc
    have hprevious := ((reaches_pastReturnType _).passes
      (hm.rest_eq.trans (congrArg _ hmoved.rest_eq.symm))).previous_eq
    rw [List.getLastD_eq_getLast?, hlast, Option.getD_some] at hprevious
    have htoken : (cursor.past arrow (tokens ++ stop :: rest)).token = first := by
      rw [token, hm.rest_eq]
      cases tokens with
      | nil => cases hf
      | cons first tokens =>
        cases hf
        rfl
    unfold returnType
    rw [past?_of_rest h ha]
    dsimp only
    rw [htoken, hprevious, if_pos hlt]
    exact ⟨rfl, hm.trans hmoved⟩

/-- A colon in front of a block. -/
theorem opening_passes {colon line indent : Token} {definition : Definition}
    (h : cursor.rest = colon :: line :: indent :: rest) (hc : colon.kind = .colon)
    (hl : line.kind = .newline) (hi : indent.kind = .indent) :
    (cursor.opening definition).definition = { definition with body := some colon.stop } ∧
      (cursor.opening definition).form = .block ∧
      cursor.Moved (cursor.opening definition).next rest := by
  have hcolon := past?_of_rest h hc
  have hline : (cursor.past colon (line :: indent :: rest)).past? .newline = some _ :=
    past?_of_rest rfl hl
  have hindent : ((cursor.past colon (line :: indent :: rest)).past line (indent :: rest)).past?
      .indent = some _ := past?_of_rest rfl hi
  unfold opening
  rw [hcolon]
  dsimp only
  rw [hline]
  dsimp only
  rw [hindent]
  exact ⟨rfl, rfl, rfl, rfl, rfl, rfl⟩

/-- The header of a definition is read part by part. -/
theorem header_named {keyword name : Token} {decorators : List Decorator}
    (h : cursor.rest = name :: rest) (hn : name.kind = .identifier) :
    let start : Definition :=
      ⟨if keyword.kind = .classWord then .type else .function, name.text, decorators, none,
        none, none, (decorators.head?.map (·.extent)).getD ⟨keyword.offset, 0⟩,
        (decorators.head?.map (·.span)).getD keyword.span, [], []⟩
    let list := (cursor.past name rest).parameterList start
    let result := list.2.returnType list.1
    header decorators keyword cursor = result.2.opening result.1 := by
  have htoken : cursor.token = name := by rw [token, h]; rfl
  unfold header
  rw [past?_of_rest h hn, htoken]

/-- The header of a function in front of a block. -/
theorem header_function {keyword name first close colon line indent : Token}
    {inner result : List Token} {returns : Option Bytes} {decorators : List Decorator}
    (h : cursor.rest =
      name :: first :: (inner ++ close :: (result ++ colon :: line :: indent :: rest)))
    (hk : keyword.kind = .defWord) (hn : name.kind = .identifier) (hf : first.kind = .leftParen)
    (hi : Turn.through 0 (inner.filterMap Token.turn?) = some 0) (hl : close.kind.isClosing = true)
    (hr : ReturnTokens cursor.source result returns) (hc : colon.kind = .colon)
    (he : line.kind = .newline) (hb : indent.kind = .indent) :
    (header decorators keyword cursor).form = .block ∧
      (header decorators keyword cursor).definition =
        ⟨.function, name.text, decorators, some ⟨first.offset, close.stop⟩, returns,
          some colon.stop, (decorators.head?.map (·.extent)).getD ⟨keyword.offset, 0⟩,
          (decorators.head?.map (·.span)).getD keyword.span, [], []⟩ ∧
      cursor.Moved (header decorators keyword cursor).next rest := by
  have hm := moved_past cursor name
    (first :: (inner ++ close :: (result ++ colon :: line :: indent :: rest)))
  have hkind : ¬keyword.kind = .classWord := by simp [hk]
  obtain ⟨hlist, hml⟩ := @parameterList_passes _ _ _ _ _
    ⟨.function, name.text, decorators, none, none, none,
      (decorators.head?.map (·.extent)).getD ⟨keyword.offset, 0⟩,
      (decorators.head?.map (·.span)).getD keyword.span, [], []⟩
    hm.rest_eq hf hl hi
  have hml := hm.trans hml
  rw [header_named h hn, if_neg hkind]
  generalize (cursor.past name _).parameterList _ = list at hlist hml ⊢
  have hdefinition : list.1.returns = none := by rw [hlist]
  obtain ⟨hresult, hmr⟩ := returnType_passes (hml.source_eq.symm ▸ hr) hml.rest_eq hc hdefinition
  have hmr := hml.trans hmr
  generalize list.2.returnType list.1 = result at hresult hmr ⊢
  obtain ⟨hbody, hform, hmb⟩ := @opening_passes _ _ _ _ _ result.1 hmr.rest_eq hc he hb
  refine ⟨hform, ?_, hmr.trans hmb⟩
  rw [hbody, hresult, hlist]

inductive BaseTokens : List Token → Prop
  | none : BaseTokens []
  | some {first close : Token} {inner : List Token} (hf : first.kind = .leftParen)
    (hi : Turn.through 0 (inner.filterMap Token.turn?) = some 0)
    (hl : close.kind.isClosing = true) :
    BaseTokens (first :: (inner ++ [close]))

theorem bases_passes {stop : Token} {tokens : List Token} {definition : Definition}
    (hb : BaseTokens tokens) (h : cursor.rest = tokens ++ stop :: rest) (hs : stop.kind = .colon)
    (hd : definition.kind = .type) (hp : definition.parameters = none) :
    ∃ parameters, (cursor.parameterList definition).1 =
      { definition with parameters := parameters } ∧
      cursor.Moved (cursor.parameterList definition).2 (stop :: rest) := by
  cases hb with
  | none =>
    have hparen : ¬cursor.token.kind = .leftParen := by
      rw [token, h]
      show ¬stop.kind = .leftParen
      simp [hs]
    have hfunction : ¬definition.kind = .function := by simp [hd]
    refine ⟨none, ?_⟩
    unfold parameterList
    rw [if_neg hparen, if_neg hfunction]
    refine ⟨?_, .refl h⟩
    cases definition
    cases hp
    rfl
  | @some first close inner hf hi hl =>
    rw [List.cons_append, List.append_assoc] at h
    exact ⟨_, parameterList_passes h hf hl hi⟩

/-- The header of a class in front of a block. -/
theorem header_class {keyword name colon line indent : Token} {bases : List Token}
    {decorators : List Decorator}
    (h : cursor.rest = name :: (bases ++ colon :: line :: indent :: rest))
    (hk : keyword.kind = .classWord) (hn : name.kind = .identifier) (hb : BaseTokens bases)
    (hc : colon.kind = .colon) (he : line.kind = .newline) (hi : indent.kind = .indent) :
    (header decorators keyword cursor).form = .block ∧
      (∃ parameters, (header decorators keyword cursor).definition =
        ⟨.type, name.text, decorators, parameters, none, some colon.stop,
          (decorators.head?.map (·.extent)).getD ⟨keyword.offset, 0⟩,
          (decorators.head?.map (·.span)).getD keyword.span, [], []⟩) ∧
      cursor.Moved (header decorators keyword cursor).next rest := by
  have hm := moved_past cursor name (bases ++ colon :: line :: indent :: rest)
  rw [header_named h hn, if_pos hk]
  obtain ⟨parameters, hlist, hml⟩ := @bases_passes _ _ colon bases
    ⟨.type, name.text, decorators, none, none, none,
      (decorators.head?.map (·.extent)).getD ⟨keyword.offset, 0⟩,
      (decorators.head?.map (·.span)).getD keyword.span, [], []⟩ hb hm.rest_eq hc rfl rfl
  have hml := hm.trans hml
  generalize (cursor.past name _).parameterList _ = list at hlist hml ⊢
  have hdefinition : list.1.returns = none := by rw [hlist]
  obtain ⟨hresult, hmr⟩ := @returnType_passes list.2 _ colon [] none list.1 .none hml.rest_eq hc
    hdefinition
  have hmr := hml.trans hmr
  generalize list.2.returnType list.1 = result at hresult hmr ⊢
  obtain ⟨hbody, hform, hmb⟩ := @opening_passes _ _ _ _ _ result.1 hmr.rest_eq hc he hi
  refine ⟨hform, ⟨parameters, ?_⟩, hmr.trans hmb⟩
  rw [hbody, hresult, hlist]

/-- The rest of a line is passed with its end. -/
theorem rest_pastLine {tokens : List Token} {line : Token}
    (h : cursor.rest = tokens ++ line :: rest)
    (hl : line.kind = .newline) (hp : ∀ token ∈ tokens, token.kind ≠ .newline) :
    cursor.pastLine.rest = rest := by
  induction tokens generalizing cursor with
  | nil =>
    rw [pastLine]
    split
    · simp_all
    · rename_i he
      cases h.symm.trans he
      rw [if_pos hl]
      rfl
  | cons token tokens ih =>
    obtain ⟨htoken, htokens⟩ := List.forall_mem_cons.1 hp
    rw [pastLine]
    split
    · simp_all
    · rename_i he
      cases h.symm.trans he
      rw [if_neg htoken]
      exact ih rfl htokens

/-- Without a name a definition has no body, and its line is passed. -/
theorem header_unnamed {keyword line : Token} {tokens : List Token}
    (h : cursor.rest = token :: (tokens ++ line :: rest)) (hn : token.kind ≠ .identifier)
    (hl : line.kind = .newline) (hp : ∀ other ∈ token :: tokens, other.kind ≠ .newline) :
    (header [] keyword cursor).form = .missing ∧ (header [] keyword cursor).definition.name = [] ∧
      (header [] keyword cursor).next.rest = rest := by
  unfold header
  rw [past?_of_ne h hn]
  exact ⟨rfl, rfl, @rest_pastLine _ _ (token :: tokens) line h hl hp⟩

end Cursor

end ManifestScan
