import ManifestScan.Proofs.Outline.Path

namespace ManifestScan

/-- A definition whose body is not read yet. -/
def Definition.Bare (definition : Definition) : Prop :=
  definition.calls = [] ∧ definition.definitions = []

namespace Cursor

/-- `next` stands behind the given tokens, which the cursor had in front of it. -/
structure Passes (cursor : Cursor) (tokens : List Token) (next : Cursor) : Prop where
  rest_eq : cursor.rest = tokens ++ next.rest
  source_eq : next.source = cursor.source
  final_eq : next.final = cursor.final
  previous_eq : next.previous = tokens.getLastD cursor.previous
  significant_eq :
    next.significant = (tokens.filter (!·.kind.isLayout)).getLastD cursor.significant

variable {cursor next behind last inside : Cursor} {token keyword : Token}
  {tokens others rest : List Token}

namespace Passes

theorem refl (cursor : Cursor) : cursor.Passes [] cursor := ⟨rfl, rfl, rfl, rfl, rfl⟩

theorem past (h : cursor.rest = token :: rest) :
    cursor.Passes [token] (cursor.past token rest) := by
  refine ⟨h, rfl, rfl, rfl, ?_⟩
  unfold Cursor.past
  cases hk : token.kind.isLayout <;> simp [hk]

theorem trans (h : cursor.Passes tokens next) (h' : next.Passes others last) :
    cursor.Passes (tokens ++ others) last := by
  refine ⟨?_, h'.source_eq.trans h.source_eq, h'.final_eq.trans h.final_eq, ?_, ?_⟩
  · rw [h.rest_eq, h'.rest_eq, List.append_assoc]
  · rw [h'.previous_eq, h.previous_eq]
    simp [List.getLastD_eq_getLast?, List.getLast?_append]
  · rw [h'.significant_eq, h.significant_eq, List.filter_append]
    simp [List.getLastD_eq_getLast?, List.getLast?_append]

/-- Which tokens were passed is told by what is left. -/
theorem eq_of_rest (h : cursor.Passes tokens next) (he : cursor.rest = others ++ next.rest) :
    tokens = others :=
  List.append_cancel_right (h.rest_eq.symm.trans he)

end Passes

def Reaches (cursor next : Cursor) : Prop := ∃ tokens, cursor.Passes tokens next

namespace Reaches

theorem refl (cursor : Cursor) : cursor.Reaches cursor := ⟨[], .refl cursor⟩

theorem past (h : cursor.rest = token :: rest) : cursor.Reaches (cursor.past token rest) :=
  ⟨[token], .past h⟩

theorem trans (h : cursor.Reaches next) (h' : next.Reaches last) : cursor.Reaches last := by
  obtain ⟨tokens, h⟩ := h
  obtain ⟨others, h'⟩ := h'
  exact ⟨tokens ++ others, h.trans h'⟩

/-- A report moves nothing. -/
theorem report (h : cursor.Reaches next) (cause : FaultCause) (span : Span) :
    cursor.Reaches (next.report cause span) := by
  obtain ⟨tokens, h⟩ := h
  exact ⟨tokens, h.rest_eq, h.source_eq, h.final_eq, h.previous_eq, h.significant_eq⟩

theorem suffix (h : cursor.Reaches next) : next.rest <:+ cursor.rest := by
  obtain ⟨tokens, h⟩ := h
  exact ⟨tokens, h.rest_eq.symm⟩

theorem final_eq (h : cursor.Reaches next) : next.final = cursor.final := by
  obtain ⟨tokens, h⟩ := h
  exact h.final_eq

theorem source_eq (h : cursor.Reaches next) : next.source = cursor.source := by
  obtain ⟨tokens, h⟩ := h
  exact h.source_eq

/-- Which tokens were passed is told by what is left. -/
theorem passes (h : cursor.Reaches next) (he : cursor.rest = tokens ++ next.rest) :
    cursor.Passes tokens next := by
  obtain ⟨others, h⟩ := h
  exact h.eq_of_rest he ▸ h

end Reaches

theorem reaches_past? {kind : TokenKind} (h : cursor.past? kind = some next) :
    cursor.Reaches next := by
  obtain ⟨token, rest, hr, -, rfl⟩ := past?_eq_some h
  exact .past hr

theorem reaches_getD_past? (cursor : Cursor) (kind : TokenKind) :
    cursor.Reaches ((cursor.past? kind).getD cursor) := by
  cases h : cursor.past? kind with
  | none => exact .refl cursor
  | some next => exact reaches_past? h

theorem reaches_pastLine (cursor : Cursor) : cursor.Reaches cursor.pastLine := by
  fun_induction pastLine cursor with
  | case1 cursor => exact .refl cursor
  | case2 cursor token rest h => exact .past h
  | case3 cursor token rest h _ ih => exact (Reaches.past h).trans ih

theorem reaches_toLineEnd (cursor : Cursor) : cursor.Reaches cursor.toLineEnd := by
  fun_induction toLineEnd cursor with
  | case1 cursor => exact .refl cursor
  | case2 cursor => exact .refl cursor
  | case3 cursor token rest h _ ih => exact (Reaches.past h).trans ih

theorem reaches_pastBrackets (span : Span) (depth : Nat) (cursor : Cursor) :
    cursor.Reaches (pastBrackets span depth cursor) := by
  fun_induction pastBrackets span depth cursor with
  | case1 depth cursor => exact (Reaches.refl cursor).report _ _
  | case2 depth cursor token rest h => exact .past h
  | case3 depth cursor token rest h _ _ ih => exact (Reaches.past h).trans ih

theorem reaches_pastReturnType (cursor : Cursor) : cursor.Reaches cursor.pastReturnType := by
  fun_induction pastReturnType cursor with
  | case1 cursor => exact .refl cursor
  | case2 cursor => exact .refl cursor
  | case3 cursor token rest h _ _ ih => exact (reaches_pastBrackets _ _ _).trans ih
  | case4 cursor token rest h _ _ ih => exact (Reaches.past h).trans ih

theorem suffix_past (h : cursor.rest = token :: rest) : rest <:+ cursor.rest :=
  (Reaches.past h).suffix

theorem reaches_parameterList (cursor : Cursor) (definition : Definition) :
    cursor.Reaches (cursor.parameterList definition).2 := by
  unfold parameterList
  repeat' split
  · exact reaches_pastBrackets _ _ _
  · exact (Reaches.refl cursor).report _ _
  · exact .refl cursor

theorem reaches_returnType (cursor : Cursor) (definition : Definition) :
    cursor.Reaches (cursor.returnType definition).2 := by
  unfold returnType
  split
  · exact .refl cursor
  · rename_i inside hi
    have hr := (reaches_past? hi).trans (reaches_pastReturnType inside)
    dsimp only
    split <;> exact hr

theorem reaches_opening (cursor : Cursor) (definition : Definition) :
    cursor.Reaches (cursor.opening definition).next := by
  unfold opening
  split
  · exact ((Reaches.refl cursor).report _ _).trans (reaches_pastLine _)
  · rename_i inside hi
    have hinside := reaches_past? hi
    dsimp only
    split
    · exact hinside
    · rename_i below hb
      have hbelow := hinside.trans (reaches_past? hb)
      split
      · rename_i block hk
        exact hbelow.trans (reaches_past? hk)
      · exact hbelow.report _ _

theorem reaches_header (pending : List Decorator) (keyword : Token) (cursor : Cursor) :
    cursor.Reaches (header pending keyword cursor).next := by
  unfold header
  dsimp only
  split
  · exact ((Reaches.refl cursor).report _ _).trans (reaches_pastLine _)
  · rename_i named hn
    exact (((reaches_past? hn).trans (reaches_parameterList _ _)).trans
      (reaches_returnType _ _)).trans (reaches_opening _ _)

/-- What holds of a definition without a body and is no matter of its parameters, of what it returns
or of where its body starts holds of the definition of a header. -/
theorem header_keeps {P : Definition → Prop} {pending : List Decorator} {keyword : Token}
    (hp : ∀ definition parameters, P definition → P { definition with parameters := parameters })
    (hr : ∀ definition returns, P definition → P { definition with returns := returns })
    (hb : ∀ definition body, P definition → P { definition with body := body }) (cursor : Cursor)
    (hs : ∀ name, (∀ named, cursor.past? .identifier = some named → name = cursor.token.text) →
      P ⟨if keyword.kind = .classWord then .type else .function, name, pending, none, none, none,
        (pending.head?.map (·.extent)).getD ⟨keyword.offset, 0⟩,
        (pending.head?.map (·.span)).getD keyword.span, [], []⟩) :
    P (header pending keyword cursor).definition := by
  have hlist {cursor : Cursor} {definition : Definition} (h : P definition) :
      P (cursor.parameterList definition).1 := by
    unfold parameterList
    repeat' split
    · exact hp _ _ h
    · exact h
    · exact h
  have hresult {cursor : Cursor} {definition : Definition} (h : P definition) :
      P (cursor.returnType definition).1 := by
    unfold returnType
    dsimp only
    repeat' split
    · exact h
    · exact hr _ _ h
    · exact h
  have hopening {cursor : Cursor} {definition : Definition} (h : P definition) :
      P (cursor.opening definition).definition := by
    unfold opening
    dsimp only
    repeat' split
    · exact h
    all_goals exact hb _ _ h
  unfold header
  dsimp only
  split
  · rename_i hn
    exact hs [] fun named he => absurd (hn.symm.trans he) (by simp)
  · exact hopening (hresult (hlist (hs _ fun _ _ => rfl)))

theorem header_bare (pending : List Decorator) (keyword : Token) (cursor : Cursor) :
    (header pending keyword cursor).definition.Bare :=
  header_keeps (fun _ _ h => h) (fun _ _ h => h) (fun _ _ h => h) cursor fun _ _ => ⟨rfl, rfl⟩

section

variable {body : Cursor} {pending : List Decorator} {definition : Definition} {form : BodyForm}

/-- A header takes all pending decorators, its kind from its keyword and its name from the token
behind that. -/
theorem header_takes (hq : header pending keyword inside = ⟨definition, form, body⟩) :
    definition.decorators = pending ∧
      definition.kind = (if keyword.kind = .classWord then .type else .function) ∧
      ∀ named, inside.past? .identifier = some named → definition.name = inside.token.text := by
  have h := header_keeps (P := fun definition => definition.decorators = pending ∧
      definition.kind = (if keyword.kind = .classWord then .type else .function) ∧
      ∀ named, inside.past? .identifier = some named → definition.name = inside.token.text)
    (fun _ _ h => h) (fun _ _ h => h) (fun _ _ h => h) inside fun _ hn => ⟨rfl, rfl, hn⟩
  rwa [hq] at h

theorem header_members (hq : header pending keyword inside = ⟨definition, form, body⟩) :
    definition.definitions = [] := by
  have h := header_bare pending keyword inside
  rw [hq] at h
  exact h.2

/-- A header without faults has a name. -/
theorem header_name (hq : header pending keyword inside = ⟨definition, form, body⟩)
    (hf : body.faults = []) : ∃ name rest, inside.rest = name :: rest ∧ name.kind = .identifier ∧
      definition.name = name.text := by
  cases hn : inside.past? .identifier with
  | none =>
    unfold header at hq
    rw [hn] at hq
    cases hq
    rw [faults_pastLine] at hf
    cases hf
  | some named =>
    obtain ⟨name, rest, hr, hk, -⟩ := past?_eq_some hn
    refine ⟨name, rest, hr, hk, ((header_takes hq).2.2 named hn).trans ?_⟩
    rw [Cursor.token, hr]
    rfl

end

theorem reaches_pastAsync (cursor : Cursor) : cursor.Reaches cursor.pastAsync := by
  unfold pastAsync
  split
  · rename_i first second rest h
    split
    · exact .past h
    · exact .refl cursor
  · exact .refl cursor

theorem reaches_pastKeyword? (h : cursor.pastAsync.pastKeyword? = some (keyword, inside)) :
    cursor.Reaches inside := by
  refine (reaches_pastAsync cursor).trans ?_
  unfold pastKeyword? at h
  split at h
  · cases h
  · rename_i hr
    split at h
    · cases h
      exact .past hr
    · cases h

/-- A decorator is passed from behind its mark on. -/
theorem reaches_behind_mark {decorator : Decorator}
    (hq : cursor.decorator token rest = (decorator, behind)) :
    (cursor.past token rest).Reaches behind := by
  unfold Cursor.decorator at hq
  cases hq
  exact (reaches_toLineEnd _).trans (reaches_getD_past? _ _)

theorem reaches_decorator {decorator : Decorator} (h : cursor.rest = token :: rest)
    (hq : cursor.decorator token rest = (decorator, behind)) : cursor.Reaches behind :=
  (Reaches.past h).trans (reaches_behind_mark hq)

theorem reaches_callee (start : Bytes) (cursor : Cursor) :
    cursor.Reaches (callee start cursor).2 := by
  fun_induction callee start cursor with
  | case1 start cursor point name rest h _ ih =>
    exact (Reaches.past h).trans (Reaches.trans (.past rfl) ih)
  | case2 start cursor => exact .refl cursor
  | case3 start cursor => exact .refl cursor

theorem reaches_named {callee : Callee}
    {hb : behind.rest.length ≤ (cursor.past token rest).rest.length}
    (h : cursor.rest = token :: rest) (hq : cursor.named token rest = ⟨callee, behind, hb⟩) :
    cursor.Reaches behind := by
  have hc := (Reaches.past h).trans (reaches_callee token.text (cursor.past token rest))
  unfold named at hq
  dsimp only at hq
  split at hq
  · cases hq
    exact hc
  · rename_i inside hp
    cases hq
    exact hc.trans (reaches_past? hp)

theorem reaches_reportUnclosed (cursor : Cursor) (call : Call) :
    cursor.Reaches (cursor.reportUnclosed call) := ⟨[], rfl, rfl, rfl, rfl, rfl⟩

theorem reaches_reportStray (cursor : Cursor) (pending : List Decorator) :
    cursor.Reaches (cursor.reportStray pending) := by
  unfold reportStray
  split
  · exact .refl cursor
  · exact (Reaches.refl cursor).report _ _

theorem ArgumentsPath.reaches {depth : Nat} {list : Arguments}
    (h : ArgumentsPath depth cursor list next) : cursor.Reaches next := by
  induction h with
  | nil => exact .refl _
  | uncalled h _ hq _ _ ih => exact (reaches_named h hq).trans ih
  | called h _ hq _ _ _ ihi ih =>
    exact ((reaches_named h hq).trans ihi).trans ((reaches_reportUnclosed _ _).trans ih)
  | close h => exact .past h
  | skip h _ _ _ ih => exact (Reaches.past h).trans ih

theorem StatementPath.reaches {calls : List Call} (h : StatementPath cursor calls next) :
    cursor.Reaches next := by
  induction h with
  | nil => exact .refl _
  | newline h => exact .past h
  | indentation => exact .refl _
  | uncalled h _ hq _ _ ih => exact (reaches_named h hq).trans ih
  | called h _ hq _ hi _ ih =>
    exact ((reaches_named h hq).trans hi.reaches).trans ((reaches_reportUnclosed _ _).trans ih)
  | skip h _ _ _ ih => exact (Reaches.past h).trans ih

theorem reaches_heading {pending : List Decorator} {cursor inside body : Cursor} {keyword : Token}
    {definition : Definition} {form : BodyForm}
    (hk : cursor.pastAsync.pastKeyword? = some (keyword, inside))
    (hq : header pending keyword inside = ⟨definition, form, body⟩) : cursor.Reaches body := by
  have hb := reaches_header pending keyword inside
  rw [hq] at hb
  exact (reaches_pastKeyword? hk).trans hb

theorem BlockPath.reaches {outermost : Bool} {pending : List Decorator} {contents : Contents}
    (h : BlockPath outermost pending cursor contents next) : cursor.Reaches next := by
  induction h with
  | nil => exact .refl _
  | close h => exact .past h
  | pass h _ _ _ ih => exact (Reaches.past h).trans ih
  | indent h _ _ _ ihi ih => exact ((Reaches.past h).trans ihi).trans ih
  | decorator h _ hq _ ih => exact (reaches_decorator h hq).trans ih
  | missing hk hq _ ih => exact (reaches_heading hk hq).trans ih
  | line hk hq hi _ ih => exact ((reaches_heading hk hq).trans hi.reaches).trans ih
  | body hk hq _ _ ihi ih => exact ((reaches_heading hk hq).trans ihi).trans ih
  | statement _ _ _ hi _ ih =>
    exact ((reaches_reportStray _ _).trans hi.reaches).trans ih

end Cursor

end ManifestScan
