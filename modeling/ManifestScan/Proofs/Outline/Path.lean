import ManifestScan.Outline.Parser

namespace ManifestScan.Cursor

inductive ArgumentsPath : Nat → Cursor → Arguments → Cursor → Prop
  | nil {depth : Nat} {cursor : Cursor} (h : cursor.rest = []) :
    ArgumentsPath depth cursor ⟨[], none⟩ cursor
  | uncalled {depth : Nat} {cursor behind next : Cursor} {token : Token} {rest : List Token}
    {callee : Callee} {list : Arguments}
    {hb : behind.rest.length ≤ (cursor.past token rest).rest.length}
    (h : cursor.rest = token :: rest) (hk : token.kind = .identifier)
    (hq : cursor.named token rest = ⟨callee, behind, hb⟩) (hn : callee.isCalled = false)
    (hp : ArgumentsPath depth behind list next) : ArgumentsPath depth cursor list next
  | called {depth : Nat} {cursor behind close next : Cursor} {token : Token} {rest : List Token}
    {callee : Callee} {inner others : Arguments}
    {hb : behind.rest.length ≤ (cursor.past token rest).rest.length}
    (h : cursor.rest = token :: rest) (hk : token.kind = .identifier)
    (hq : cursor.named token rest = ⟨callee, behind, hb⟩) (hn : callee.isCalled = true)
    (hi : ArgumentsPath 1 behind inner close)
    (hp : ArgumentsPath depth (close.reportUnclosed (callOf token callee inner cursor.final))
      others next) :
    ArgumentsPath depth cursor
      ⟨callOf token callee inner cursor.final :: others.calls, others.close⟩ next
  | close {depth : Nat} {cursor : Cursor} {token : Token} {rest : List Token}
    (h : cursor.rest = token :: rest) (hc : token.kind.isClosing = true) (hd : depth ≤ 1) :
    ArgumentsPath depth cursor ⟨[], some token⟩ (cursor.past token rest)
  | skip {depth : Nat} {cursor next : Cursor} {token : Token} {rest : List Token} {list : Arguments}
    (h : cursor.rest = token :: rest) (hk : token.kind ≠ .identifier)
    (hc : token.kind.isClosing = true → 1 < depth)
    (hp : ArgumentsPath (token.kind.depthAfter depth) (cursor.past token rest) list next) :
    ArgumentsPath depth cursor list next

inductive StatementPath : Cursor → List Call → Cursor → Prop
  | nil {cursor : Cursor} (h : cursor.rest = []) : StatementPath cursor [] cursor
  | newline {cursor : Cursor} {token : Token} {rest : List Token} (h : cursor.rest = token :: rest)
    (hk : token.kind = .newline) : StatementPath cursor [] (cursor.past token rest)
  | indentation {cursor : Cursor} {token : Token} {rest : List Token}
    (h : cursor.rest = token :: rest) (hk : token.kind = .indent ∨ token.kind = .dedent) :
    StatementPath cursor [] cursor
  | uncalled {cursor behind next : Cursor} {token : Token} {rest : List Token} {callee : Callee}
    {calls : List Call} {hb : behind.rest.length ≤ (cursor.past token rest).rest.length}
    (h : cursor.rest = token :: rest) (hk : token.kind = .identifier)
    (hq : cursor.named token rest = ⟨callee, behind, hb⟩) (hn : callee.isCalled = false)
    (hp : StatementPath behind calls next) : StatementPath cursor calls next
  | called {cursor behind close next : Cursor} {token : Token} {rest : List Token}
    {callee : Callee} {inner : Arguments} {calls : List Call}
    {hb : behind.rest.length ≤ (cursor.past token rest).rest.length}
    (h : cursor.rest = token :: rest) (hk : token.kind = .identifier)
    (hq : cursor.named token rest = ⟨callee, behind, hb⟩) (hn : callee.isCalled = true)
    (hi : ArgumentsPath 1 behind inner close)
    (hp : StatementPath (close.reportUnclosed (callOf token callee inner cursor.final))
      calls next) :
    StatementPath cursor (callOf token callee inner cursor.final :: calls) next
  | skip {cursor next : Cursor} {token : Token} {rest : List Token} {calls : List Call}
    (h : cursor.rest = token :: rest) (hl : token.kind ∉ [.newline, .indent, .dedent])
    (hk : token.kind ≠ .identifier) (hp : StatementPath (cursor.past token rest) calls next) :
    StatementPath cursor calls next

inductive BlockPath : Bool → List Decorator → Cursor → Contents → Cursor → Prop
  | nil {outermost : Bool} {pending : List Decorator} {cursor : Cursor} (h : cursor.rest = []) :
    BlockPath outermost pending cursor ⟨[], []⟩ cursor
  | close {pending : List Decorator} {cursor : Cursor} {token : Token} {rest : List Token}
    (h : cursor.rest = token :: rest) (hk : token.kind = .dedent) :
    BlockPath false pending cursor ⟨[], []⟩ (cursor.past token rest)
  | pass {outermost : Bool} {pending : List Decorator} {cursor next : Cursor} {token : Token}
    {rest : List Token} {contents : Contents} (h : cursor.rest = token :: rest)
    (hk : token.kind = .dedent ∨ token.kind = .newline)
    (ho : token.kind = .dedent → outermost = true)
    (hp : BlockPath outermost pending (cursor.past token rest) contents next) :
    BlockPath outermost pending cursor contents next
  | indent {outermost : Bool} {pending : List Decorator} {cursor close next : Cursor}
    {token : Token} {rest : List Token} {inner others : Contents} (h : cursor.rest = token :: rest)
    (hk : token.kind = .indent) (hi : BlockPath false [] (cursor.past token rest) inner close)
    (hp : BlockPath outermost pending close others next) :
    BlockPath outermost pending cursor
      ⟨inner.calls ++ others.calls, inner.definitions ++ others.definitions⟩ next
  | decorator {outermost : Bool} {pending : List Decorator} {cursor behind next : Cursor}
    {token : Token} {rest : List Token} {decorator : Decorator} {contents : Contents}
    (h : cursor.rest = token :: rest) (hk : token.kind = .at)
    (hq : cursor.decorator token rest = (decorator, behind))
    (hp : BlockPath outermost (pending ++ [decorator]) behind contents next) :
    BlockPath outermost pending cursor contents next
  | missing {outermost : Bool} {pending : List Decorator} {cursor inside body next : Cursor}
    {keyword : Token} {definition : Definition} {others : Contents}
    (hk : cursor.pastAsync.pastKeyword? = some (keyword, inside))
    (hq : header pending keyword inside = ⟨definition, .missing, body⟩)
    (hp : BlockPath outermost [] body others next) :
    BlockPath outermost pending cursor
      ⟨others.calls, closeDefinition definition body :: others.definitions⟩ next
  | line {outermost : Bool} {pending : List Decorator} {cursor inside body close next : Cursor}
    {keyword : Token} {definition : Definition} {calls : List Call} {others : Contents}
    (hk : cursor.pastAsync.pastKeyword? = some (keyword, inside))
    (hq : header pending keyword inside = ⟨definition, .line, body⟩)
    (hi : StatementPath body calls close) (hp : BlockPath outermost [] close others next) :
    BlockPath outermost pending cursor
      ⟨others.calls, closeDefinition { definition with calls := calls } close ::
        others.definitions⟩ next
  | body {outermost : Bool} {pending : List Decorator} {cursor inside body close next : Cursor}
    {keyword : Token} {definition : Definition} {inner others : Contents}
    (hk : cursor.pastAsync.pastKeyword? = some (keyword, inside))
    (hq : header pending keyword inside = ⟨definition, .block, body⟩)
    (hi : BlockPath false [] body inner close) (hp : BlockPath outermost [] close others next) :
    BlockPath outermost pending cursor
      ⟨others.calls, closeDefinition { definition with
        calls := inner.calls, definitions := inner.definitions } close :: others.definitions⟩ next
  | statement {outermost : Bool} {pending : List Decorator} {cursor close next : Cursor}
    {token : Token} {rest : List Token} {calls : List Call} {others : Contents}
    (h : cursor.rest = token :: rest) (hl : token.kind ∉ [.newline, .indent, .dedent])
    (ha : token.kind ≠ .at) (hi : StatementPath (cursor.reportStray pending) calls close)
    (hp : BlockPath outermost [] close others next) :
    BlockPath outermost pending cursor ⟨calls ++ others.calls, others.definitions⟩ next

theorem argumentsPath (depth : Nat) (cursor : Cursor) :
    ArgumentsPath depth cursor (arguments depth cursor).value (arguments depth cursor).next := by
  fun_induction arguments depth cursor with
  | case1 depth cursor h => exact .nil h
  | case2 depth cursor token rest h _ hk callee behind hb hq hn inner close _ hi call others next _
      hx ihi ih =>
    rw [hi] at ihi
    rw [hx] at ih
    exact .called h hk hq hn ihi ih
  | case3 depth cursor token rest h _ hk callee behind hb hq hn list next _ hx ih =>
    rw [hx] at ih
    exact .uncalled h hk hq (by simpa using hn) ih
  | case4 depth cursor token rest h _ _ hc => exact .close h hc.1 hc.2
  | case5 depth cursor token rest h _ hk hc list next _ hx ih =>
    rw [hx] at ih
    exact .skip h hk (fun hcl => Nat.lt_of_not_le fun hd => hc ⟨hcl, hd⟩) ih

theorem statementPath (cursor : Cursor) :
    StatementPath cursor cursor.statement.value cursor.statement.next := by
  fun_induction statement cursor with
  | case1 cursor h => exact .nil h
  | case2 cursor token rest h _ hk => exact .newline h hk
  | case3 cursor token rest h _ _ hk => exact .indentation h hk
  | case4 cursor token rest h _ _ _ hk callee behind hb hq hn inner close _ hi call calls next _ hx
      ih =>
    have hp := argumentsPath 1 behind
    rw [hi] at hp
    rw [hx] at ih
    exact .called h hk hq hn hp ih
  | case5 cursor token rest h _ _ _ hk callee behind hb hq hn calls next _ hx ih =>
    rw [hx] at ih
    exact .uncalled h hk hq (by simpa using hn) ih
  | case6 cursor token rest h _ hl hd hk calls next _ hx ih =>
    rw [hx] at ih
    exact .skip h (by simp_all) hk ih

theorem blockPath (outermost : Bool) (pending : List Decorator) (cursor : Cursor) :
    BlockPath outermost pending cursor (block outermost pending cursor).value
      (block outermost pending cursor).next := by
  fun_induction block outermost pending cursor with
  | case1 outermost pending cursor h => exact .nil h
  | case2 outermost pending cursor token rest h _ hk =>
    obtain ⟨hk, ho⟩ := hk
    cases outermost with
    | true => cases ho
    | false => exact .close h hk
  | case3 outermost pending cursor token rest h _ ho hk others next _ hx ih =>
    rw [hx] at ih
    exact .pass h hk (fun hd => by simpa [hd] using ho) ih
  | case4 outermost pending cursor token rest h _ _ _ hk inner close _ hi others next _ hx ihi ih =>
    rw [hi] at ihi
    rw [hx] at ih
    exact .indent h hk ihi ih
  | case5 outermost pending cursor token rest h _ _ _ _ hk decorator behind hq _ others next
      _ hx ih =>
    rw [hx] at ih
    exact .decorator h hk hq ih
  | case6 outermost pending cursor token rest h _ _ _ _ _ keyword inside hk _ _ definition body hq
      others next _ hx _ _ ih =>
    rw [hx] at ih
    exact .missing hk hq ih
  | case7 outermost pending cursor token rest h _ _ _ _ _ keyword inside hk _ _ definition body hq
      calls close _ hi others next _ hx _ _ ih =>
    rw [hx] at ih
    have hs := statementPath body
    rw [hi] at hs
    exact .line hk hq hs ih
  | case8 outermost pending cursor token rest h _ _ _ _ _ keyword inside hk _ _ definition body hq
      inner close _ hi others next _ hx _ _ ihi ih =>
    rw [hi] at ihi
    rw [hx] at ih
    exact .body hk hq ihi ih
  | case9 outermost pending cursor token rest h _ _ hd hi ha _ calls close _ hs _ others next
      _ hx ih =>
    rw [hx] at ih
    have hp := statementPath (cursor.reportStray pending)
    rw [hs] at hp
    exact .statement h (by simp_all) ha hp ih

/-- No fault is taken back, so there were none before where there are none behind. -/
theorem faults_reportUnclosed {cursor : Cursor} {call : Call}
    (h : (cursor.reportUnclosed call).faults = []) : call.closed = true ∧ cursor.faults = [] := by
  unfold reportUnclosed at h
  dsimp only at h
  split at h
  · rename_i hc
    exact ⟨hc, h⟩
  · cases h

theorem faults_callee (start : Bytes) (cursor : Cursor) :
    (callee start cursor).2.faults = cursor.faults := by
  fun_induction callee start cursor with
  | case1 start cursor point name rest _ _ ih => exact ih
  | case2 => rfl
  | case3 => rfl

theorem past?_eq_some {cursor next : Cursor} {kind : TokenKind}
    (h : cursor.past? kind = some next) :
    ∃ token rest, cursor.rest = token :: rest ∧ token.kind = kind ∧
      next = cursor.past token rest := by
  unfold past? at h
  split at h
  · cases h
  · rename_i token rest hr
    split at h
    · rename_i hk
      cases h
      exact ⟨token, rest, hr, hk, rfl⟩
    · cases h

theorem past?_eq_none {cursor : Cursor} {kind : TokenKind} (h : cursor.past? kind = none) :
    ∀ token rest, cursor.rest = token :: rest → token.kind ≠ kind := by
  intro token rest hr hk
  rw [past?, hr] at h
  dsimp only at h
  rw [if_pos hk] at h
  cases h

theorem faults_past? {cursor next : Cursor} {kind : TokenKind} (h : cursor.past? kind = some next) :
    next.faults = cursor.faults := by
  obtain ⟨token, rest, -, -, rfl⟩ := past?_eq_some h
  rfl

theorem faults_named {cursor behind : Cursor} {token : Token} {rest : List Token} {callee : Callee}
    {hb : behind.rest.length ≤ (cursor.past token rest).rest.length}
    (hq : cursor.named token rest = ⟨callee, behind, hb⟩) : behind.faults = cursor.faults := by
  have hc := faults_callee token.text (cursor.past token rest)
  unfold named at hq
  dsimp only at hq
  split at hq
  · cases hq
    exact hc
  · rename_i inside hp
    cases hq
    exact (faults_past? hp).trans hc

theorem ArgumentsPath.faults {depth : Nat} {cursor next : Cursor} {list : Arguments}
    (h : ArgumentsPath depth cursor list next) (hn : next.faults = []) : cursor.faults = [] := by
  induction h with
  | nil => exact hn
  | uncalled _ _ hq _ _ ih => exact (faults_named hq).symm.trans (ih hn)
  | called _ _ hq _ _ _ ihi ih =>
    exact (faults_named hq).symm.trans (ihi (faults_reportUnclosed (ih hn)).2)
  | close => exact hn
  | skip _ _ _ _ ih => exact ih hn

theorem StatementPath.faults {cursor next : Cursor} {calls : List Call}
    (h : StatementPath cursor calls next) (hn : next.faults = []) : cursor.faults = [] := by
  induction h with
  | nil => exact hn
  | newline => exact hn
  | indentation => exact hn
  | uncalled _ _ hq _ _ ih => exact (faults_named hq).symm.trans (ih hn)
  | called _ _ hq _ hi _ ih =>
    exact (faults_named hq).symm.trans (hi.faults (faults_reportUnclosed (ih hn)).2)
  | skip _ _ _ _ ih => exact ih hn

theorem faults_pastLine (cursor : Cursor) : cursor.pastLine.faults = cursor.faults := by
  fun_induction pastLine cursor with
  | case1 => rfl
  | case2 => rfl
  | case3 cursor token rest _ _ ih => exact ih

theorem faults_toLineEnd (cursor : Cursor) : cursor.toLineEnd.faults = cursor.faults := by
  fun_induction toLineEnd cursor with
  | case1 => rfl
  | case2 => rfl
  | case3 cursor token rest _ _ ih => exact ih

theorem faults_pastBrackets {span : Span} {depth : Nat} {cursor : Cursor}
    (h : (pastBrackets span depth cursor).faults = []) : cursor.faults = [] := by
  fun_induction pastBrackets span depth cursor with
  | case1 => cases h
  | case2 => exact h
  | case3 depth cursor token rest _ inner _ ih => exact ih h

theorem faults_pastReturnType {cursor : Cursor} (h : cursor.pastReturnType.faults = []) :
    cursor.faults = [] := by
  fun_induction pastReturnType cursor with
  | case1 => exact h
  | case2 => exact h
  | case3 cursor token rest _ _ _ ih => exact faults_pastBrackets (ih h)
  | case4 cursor token rest _ _ _ ih => exact ih h

theorem faults_parameterList {cursor : Cursor} {definition : Definition}
    (h : (cursor.parameterList definition).2.faults = []) : cursor.faults = [] := by
  unfold parameterList at h
  split at h
  · exact faults_pastBrackets h
  · split at h
    · cases h
    · exact h

theorem faults_returnType {cursor : Cursor} {definition : Definition}
    (h : (cursor.returnType definition).2.faults = []) : cursor.faults = [] := by
  unfold returnType at h
  split at h
  · exact h
  · rename_i inside hi
    have hr : inside.pastReturnType.faults = [] := by
      dsimp only at h
      split at h <;> exact h
    exact (faults_past? hi).symm.trans (faults_pastReturnType hr)

theorem faults_opening {cursor : Cursor} {definition : Definition}
    (h : (cursor.opening definition).next.faults = []) : cursor.faults = [] := by
  unfold opening at h
  split at h
  · rw [faults_pastLine] at h
    cases h
  · rename_i inside hi
    dsimp only at h
    split at h
    · exact (faults_past? hi).symm.trans h
    · rename_i below hb
      split at h
      · rename_i block hk
        exact (faults_past? hi).symm.trans
          ((faults_past? hb).symm.trans ((faults_past? hk).symm.trans h))
      · cases h

theorem faults_header {pending : List Decorator} {keyword : Token} {cursor : Cursor}
    (h : (header pending keyword cursor).next.faults = []) : cursor.faults = [] := by
  unfold header at h
  dsimp only at h
  split at h
  · rw [faults_pastLine] at h
    cases h
  · rename_i named hn
    exact (faults_past? hn).symm.trans
      (faults_parameterList (faults_returnType (faults_opening h)))

theorem faults_pastAsync (cursor : Cursor) : cursor.pastAsync.faults = cursor.faults := by
  unfold pastAsync
  split
  · split <;> rfl
  · rfl

theorem faults_pastKeyword? {cursor inside : Cursor} {keyword : Token}
    (h : cursor.pastAsync.pastKeyword? = some (keyword, inside)) :
    inside.faults = cursor.faults := by
  refine Eq.trans ?_ (faults_pastAsync cursor)
  unfold pastKeyword? at h
  split at h
  · cases h
  · split at h
    · cases h
      rfl
    · cases h

theorem faults_decorator {cursor behind : Cursor} {mark : Token} {rest : List Token}
    {decorator : Decorator} (hq : cursor.decorator mark rest = (decorator, behind)) :
    behind.faults = cursor.faults := by
  unfold Cursor.decorator at hq
  cases hq
  cases h : ((cursor.past mark rest).toLineEnd).past? .newline with
  | none => exact faults_toLineEnd _
  | some next => exact (faults_past? h).trans (faults_toLineEnd _)

theorem faults_reportStray {cursor : Cursor} {pending : List Decorator}
    (h : (cursor.reportStray pending).faults = []) : pending = [] ∧ cursor.faults = [] := by
  unfold reportStray at h
  split at h
  · rename_i hp
    exact ⟨List.getLast?_eq_none_iff.1 hp, h⟩
  · cases h

theorem BlockPath.faults {outermost : Bool} {pending : List Decorator} {cursor next : Cursor}
    {contents : Contents} (h : BlockPath outermost pending cursor contents next)
    (hn : next.faults = []) : cursor.faults = [] := by
  have header_faults {pending : List Decorator} {keyword : Token} {cursor inside body : Cursor}
      {definition : Definition} {form : BodyForm}
      (hk : cursor.pastAsync.pastKeyword? = some (keyword, inside))
      (hq : header pending keyword inside = ⟨definition, form, body⟩) (hb : body.faults = []) :
      cursor.faults = [] := by
    rw [← faults_pastKeyword? hk]
    refine @faults_header pending keyword inside ?_
    rwa [hq]
  induction h with
  | nil => exact hn
  | close => exact hn
  | pass _ _ _ _ ih => exact ih hn
  | indent _ _ _ _ ihi ih => exact ihi (ih hn)
  | decorator _ _ hq _ ih => exact (faults_decorator hq).symm.trans (ih hn)
  | missing hk hq _ ih => exact header_faults hk hq (ih hn)
  | line hk hq hi _ ih => exact header_faults hk hq (hi.faults (ih hn))
  | body hk hq _ _ ihi ih => exact header_faults hk hq (ihi (ih hn))
  | statement _ _ _ hi _ ih => exact (faults_reportStray (hi.faults (ih hn))).2

theorem source_ofTokens? {source : Bytes} {cursor : Cursor} {tokens : List Token}
    (h : ofTokens? source tokens = some cursor) : cursor.source = source := by
  unfold ofTokens? at h
  split at h
  · cases h
    rfl
  · cases h

/-- A cursor starts in front of all tokens but the last one. -/
theorem ofTokens?_snoc (source : Bytes) {tokens : List Token} {final : Token}
    (ht : ∀ token ∈ tokens, token.kind ≠ .endOfFile) (hf : final.kind = .endOfFile) :
    ∃ cursor, ofTokens? source (tokens ++ [final]) = some cursor ∧ cursor.rest = tokens ∧
      (tokens ++ [final]).head? = some cursor.previous ∧ cursor.faults = [] ∧
      cursor.final = final := by
  have hp : ∀ token ∈ tokens, (token.kind != .endOfFile) = true := by simpa using ht
  have hd : (tokens ++ [final]).dropWhile (·.kind != .endOfFile) = [final] := by
    rw [List.dropWhile_append_of_pos hp]
    simp [hf]
  have hw : (tokens ++ [final]).takeWhile (·.kind != .endOfFile) = tokens := by
    rw [List.takeWhile_append_of_pos hp]
    simp [hf]
  unfold ofTokens?
  rw [hd, hw]
  cases tokens with
  | nil => exact ⟨_, rfl, rfl, rfl, rfl, rfl⟩
  | cons first others => exact ⟨_, rfl, rfl, rfl, rfl, rfl⟩

end ManifestScan.Cursor
