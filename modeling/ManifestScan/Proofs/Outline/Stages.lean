import ManifestScan.Outline.Parser

namespace ManifestScan

def Definition.unread (decorators : List Decorator) (keyword : Token) (name : Bytes) : Definition :=
  ⟨if keyword.kind = .classWord then .type else .function, name, decorators, none, none, none,
    (decorators.head?.map (·.extent)).getD ⟨keyword.offset, 0⟩,
    (decorators.head?.map (·.span)).getD keyword.span, [], []⟩

namespace Cursor

/-- What is to be read next, by the loop or the part of a header that reads it. -/
inductive Task where
  | block (outermost : Bool) (pending : List Decorator)
  | header (pending : List Decorator) (keyword : Token)
  | parameters (definition : Definition)
  | returns (definition : Definition)
  | opening (definition : Definition)
  | statement
  | arguments (depth : Nat)
  | callee (start : Bytes)
  | brackets (span : Span) (depth : Nat)
  | returnType
  | lineEnd
  | line

structure Stage where
  task : Task
  cursor : Cursor

/-- What one round of a task does: it is the last one, or the inner stages are read one by one and
then the next round follows. -/
inductive Round where
  | last (next : Cursor)
  | further (inner : List Stage) (next : Stage)

def Stage.after : Stage → Cursor
  | ⟨.block outermost pending, cursor⟩ => (block outermost pending cursor).next
  | ⟨.header pending keyword, cursor⟩ => (header pending keyword cursor).next
  | ⟨.parameters definition, cursor⟩ =>
    let listed := cursor.parameterList definition
    let typed := listed.2.returnType listed.1
    (typed.2.opening typed.1).next
  | ⟨.returns definition, cursor⟩ =>
    let typed := cursor.returnType definition
    (typed.2.opening typed.1).next
  | ⟨.opening definition, cursor⟩ => (cursor.opening definition).next
  | ⟨.statement, cursor⟩ => cursor.statement.next
  | ⟨.arguments depth, cursor⟩ => (arguments depth cursor).next
  | ⟨.callee start, cursor⟩ => (callee start cursor).2
  | ⟨.brackets span depth, cursor⟩ => pastBrackets span depth cursor
  | ⟨.returnType, cursor⟩ => cursor.pastReturnType
  | ⟨.lineEnd, cursor⟩ => cursor.toLineEnd
  | ⟨.line, cursor⟩ => cursor.pastLine

namespace Round

def after : Round → Cursor
  | .last next => next
  | .further _ next => next.after

def stages : Round → List Stage
  | .last _ => []
  | .further inner next => inner ++ [next]

/-- A definition is read from its heading on, with a body of the given form behind it, and the
block goes on. -/
def body (outermost : Bool) (heading : Stage) (form : BodyForm) (cursor : Cursor) : Round :=
  match form with
  | .missing => .further [heading] ⟨.block outermost [], cursor⟩
  | .line =>
    let inner : Stage := ⟨.statement, cursor⟩
    .further [heading, inner] ⟨.block outermost [], inner.after⟩
  | .block =>
    let inner : Stage := ⟨.block false [], cursor⟩
    .further [heading, inner] ⟨.block outermost [], inner.after⟩

def block (outermost : Bool) (pending : List Decorator) (cursor : Cursor) : Round :=
  match cursor.rest with
  | [] => .last cursor
  | token :: rest =>
    if token.kind = .dedent ∧ !outermost then .last (cursor.past token rest)
    else if token.kind = .dedent ∨ token.kind = .newline then
      .further [] ⟨.block outermost pending, cursor.past token rest⟩
    else if token.kind = .indent then
      let inner : Stage := ⟨.block false [], cursor.past token rest⟩
      .further [inner] ⟨.block outermost pending, inner.after⟩
    else if token.kind = .at then
      let read := cursor.decorator token rest
      .further [⟨.lineEnd, cursor.past token rest⟩] ⟨.block outermost (pending ++ [read.1]), read.2⟩
    else
      match cursor.pastAsync.pastKeyword? with
      | some (keyword, inside) =>
        let start := Cursor.header pending keyword inside
        body outermost ⟨.header pending keyword, inside⟩ start.form start.next
      | none =>
        let inner : Stage := ⟨.statement, cursor.reportStray pending⟩
        .further [inner] ⟨.block outermost [], inner.after⟩

def header (pending : List Decorator) (keyword : Token) (cursor : Cursor) : Round :=
  match cursor.past? .identifier with
  | none => .further [] ⟨.line, cursor.report (.missingName keyword.text) cursor.token.span⟩
  | some named =>
    .further [] ⟨.parameters (Definition.unread pending keyword cursor.token.text), named⟩

def parameters (definition : Definition) (cursor : Cursor) : Round :=
  let listed := cursor.parameterList definition
  .further
    (if cursor.token.kind = .leftParen then [⟨.brackets cursor.token.span 0, cursor⟩] else [])
    ⟨.returns listed.1, listed.2⟩

def returns (definition : Definition) (cursor : Cursor) : Round :=
  let typed := cursor.returnType definition
  .further ((cursor.past? .arrow).toList.map (⟨.returnType, ·⟩)) ⟨.opening typed.1, typed.2⟩

def opening (definition : Definition) (cursor : Cursor) : Round :=
  match cursor.past? .colon with
  | none => .further [] ⟨.line, cursor.report (.missingColon definition.name) cursor.token.span⟩
  | some inside =>
    match inside.past? .newline with
    | none => .last inside
    | some below =>
      .last ((below.past? .indent).getD
        (below.report (.missingBlock definition.name) below.token.span))

/-- The name that starts with `token` is read with its arguments, and the task goes on behind it. -/
def name (task : Task) (cursor : Cursor) (token : Token) (rest : List Token) (callee : Callee)
    (behind : Cursor) : Round :=
  let parts : Stage := ⟨.callee token.text, cursor.past token rest⟩
  if callee.isCalled then
    let inner := Cursor.arguments 1 behind
    .further [parts, ⟨.arguments 1, behind⟩]
      ⟨task, inner.next.reportUnclosed (callOf token callee inner.value cursor.final)⟩
  else .further [parts] ⟨task, behind⟩

def statement (cursor : Cursor) : Round :=
  match cursor.rest with
  | [] => .last cursor
  | token :: rest =>
    if token.kind = .newline then .last (cursor.past token rest)
    else if token.kind = .indent ∨ token.kind = .dedent then .last cursor
    else if token.kind = .identifier then
      let read := cursor.named token rest
      name .statement cursor token rest read.value read.next
    else .further [] ⟨.statement, cursor.past token rest⟩

def arguments (depth : Nat) (cursor : Cursor) : Round :=
  match cursor.rest with
  | [] => .last cursor
  | token :: rest =>
    if token.kind = .identifier then
      let read := cursor.named token rest
      name (.arguments depth) cursor token rest read.value read.next
    else if token.kind.isClosing ∧ depth ≤ 1 then .last (cursor.past token rest)
    else .further [] ⟨.arguments (token.kind.depthAfter depth), cursor.past token rest⟩

def callee (start : Bytes) (cursor : Cursor) : Round :=
  match cursor.rest with
  | point :: name :: rest =>
    if point.kind = .dot ∧ name.kind = .identifier then
      .further [] ⟨.callee (start ++ dot :: name.text),
        (cursor.past point (name :: rest)).past name rest⟩
    else .last cursor
  | _ => .last cursor

def brackets (span : Span) (depth : Nat) (cursor : Cursor) : Round :=
  match cursor.rest with
  | [] => .last (cursor.report .unbalancedBrackets span)
  | token :: rest =>
    match token.kind.depthAfter depth with
    | 0 => .last (cursor.past token rest)
    | inner + 1 => .further [] ⟨.brackets span (inner + 1), cursor.past token rest⟩

def returnType (cursor : Cursor) : Round :=
  match cursor.rest with
  | [] => .last cursor
  | token :: rest =>
    if token.kind = .colon ∨ token.kind = .newline then .last cursor
    else if token.kind.isOpening then
      let inner : Stage := ⟨.brackets token.span 0, cursor⟩
      .further [inner] ⟨.returnType, inner.after⟩
    else .further [] ⟨.returnType, cursor.past token rest⟩

def lineEnd (cursor : Cursor) : Round :=
  match cursor.rest with
  | [] => .last cursor
  | token :: rest =>
    if token.kind = .newline then .last cursor else .further [] ⟨.lineEnd, cursor.past token rest⟩

def line (cursor : Cursor) : Round :=
  match cursor.rest with
  | [] => .last cursor
  | token :: rest =>
    if token.kind = .newline then .last (cursor.past token rest)
    else .further [] ⟨.line, cursor.past token rest⟩

end Round

namespace Stage

def round : Stage → Round
  | ⟨.block outermost pending, cursor⟩ => .block outermost pending cursor
  | ⟨.header pending keyword, cursor⟩ => .header pending keyword cursor
  | ⟨.parameters definition, cursor⟩ => .parameters definition cursor
  | ⟨.returns definition, cursor⟩ => .returns definition cursor
  | ⟨.opening definition, cursor⟩ => .opening definition cursor
  | ⟨.statement, cursor⟩ => .statement cursor
  | ⟨.arguments depth, cursor⟩ => .arguments depth cursor
  | ⟨.callee start, cursor⟩ => .callee start cursor
  | ⟨.brackets span depth, cursor⟩ => .brackets span depth cursor
  | ⟨.returnType, cursor⟩ => .returnType cursor
  | ⟨.lineEnd, cursor⟩ => .lineEnd cursor
  | ⟨.line, cursor⟩ => .line cursor

theorem after_block (outermost : Bool) (pending : List Decorator) (cursor : Cursor) :
    (block outermost pending cursor).next = (Round.block outermost pending cursor).after := by
  fun_cases block outermost pending cursor with
  | case1 h => simp only [Round.block, h, Round.after]
  | case2 token rest h _ hc => simp only [Round.block, h, if_pos hc, Round.after]
  | case3 token rest h _ hc hl others next _ hx =>
    simp only [Round.block, h, if_neg hc, if_pos hl, Round.after, after, hx]
  | case4 token rest h _ hc hl hi inner close _ hn others next _ hx =>
    simp only [Round.block, h, if_neg hc, if_neg hl, if_pos hi, Round.after, after, hn, hx]
  | case5 token rest h _ hc hl hi ha decorator behind hq _ others next _ hx =>
    simp only [Round.block, h, if_neg hc, if_neg hl, if_neg hi, if_pos ha, Round.after,
      after, hq, hx]
  | case6 token rest h _ hc hl hi ha keyword inside hk _ _ definition body hq others next _ hx =>
    simp only [Round.block, h, if_neg hc, if_neg hl, if_neg hi, if_neg ha, hk, hq]
    simp only [Round.body, Round.after, after, hx]
  | case7 token rest h _ hc hl hi ha keyword inside hk _ _ definition body hq calls close _ hn
      others next _ hx =>
    simp only [Round.block, h, if_neg hc, if_neg hl, if_neg hi, if_neg ha, hk, hq]
    simp only [Round.body, Round.after, after, hn, hx]
  | case8 token rest h _ hc hl hi ha keyword inside hk _ _ definition body hq inner close _ hn
      others next _ hx =>
    simp only [Round.block, h, if_neg hc, if_neg hl, if_neg hi, if_neg ha, hk, hq]
    simp only [Round.body, Round.after, after, hn, hx]
  | case9 token rest h _ hc hl hi ha hk calls close _ hn _ others next _ hx =>
    simp only [Round.block, h, if_neg hc, if_neg hl, if_neg hi, if_neg ha, hk, Round.after, after,
      hn, hx]

theorem after_statement (cursor : Cursor) :
    cursor.statement.next = (Round.statement cursor).after := by
  fun_cases Cursor.statement cursor with
  | case1 h => simp only [Round.statement, h, Round.after]
  | case2 token rest h _ hl => simp only [Round.statement, h, if_pos hl, Round.after]
  | case3 token rest h _ hl hi => simp only [Round.statement, h, if_neg hl, if_pos hi, Round.after]
  | case4 token rest h _ hl hi hk callee behind hb hq hc inner close _ hn call calls next _ hx =>
    simp only [Round.statement, h, if_neg hl, if_neg hi, if_pos hk, hq]
    simp only [Round.name, if_pos hc, hn, Round.after]
    exact (congrArg Reading.next hx).symm
  | case5 token rest h _ hl hi hk callee behind hb hq hc calls next _ hx =>
    simp only [Round.statement, h, if_neg hl, if_neg hi, if_pos hk, hq]
    simp only [Round.name, if_neg hc, Round.after, after, hx]
  | case6 token rest h _ hl hi hk calls next _ hx =>
    simp only [Round.statement, h, if_neg hl, if_neg hi, if_neg hk, Round.after, after, hx]

theorem after_arguments (depth : Nat) (cursor : Cursor) :
    (Cursor.arguments depth cursor).next = (Round.arguments depth cursor).after := by
  fun_cases Cursor.arguments depth cursor with
  | case1 h => simp only [Round.arguments, h, Round.after]
  | case2 token rest h _ hk callee behind hb hq hc inner close _ hn call others next _ hx =>
    simp only [Round.arguments, h, if_pos hk, hq]
    simp only [Round.name, if_pos hc, hn, Round.after]
    exact (congrArg Reading.next hx).symm
  | case3 token rest h _ hk callee behind hb hq hc list next _ hx =>
    simp only [Round.arguments, h, if_pos hk, hq]
    simp only [Round.name, if_neg hc, Round.after, after, hx]
  | case4 token rest h _ hk hc => simp only [Round.arguments, h, if_neg hk, if_pos hc, Round.after]
  | case5 token rest h _ hk hc list next _ hx =>
    simp only [Round.arguments, h, if_neg hk, if_neg hc, Round.after, after, hx]

theorem after_header (pending : List Decorator) (keyword : Token) (cursor : Cursor) :
    (Cursor.header pending keyword cursor).next = (Round.header pending keyword cursor).after := by
  unfold Cursor.header Round.header
  cases cursor.past? .identifier <;> rfl

theorem after_opening (definition : Definition) (cursor : Cursor) :
    (cursor.opening definition).next = (Round.opening definition cursor).after := by
  unfold Cursor.opening Round.opening
  cases cursor.past? .colon with
  | none => rfl
  | some inside =>
    dsimp only
    cases inside.past? .newline with
    | none => rfl
    | some below =>
      dsimp only
      cases below.past? .indent <;> rfl

theorem after_callee (start : Bytes) (cursor : Cursor) :
    (Cursor.callee start cursor).2 = (Round.callee start cursor).after := by
  fun_cases Cursor.callee start cursor with
  | case1 point name rest h hk => simp only [Round.callee, h, if_pos hk, Round.after, after]
  | case2 point name rest h hk => simp only [Round.callee, h, if_neg hk, Round.after]
  | case3 hn =>
    unfold Round.callee
    split
    · rename_i h
      exact absurd h (hn _ _ _)
    · rfl

theorem after_brackets (span : Span) (depth : Nat) (cursor : Cursor) :
    pastBrackets span depth cursor = (Round.brackets span depth cursor).after := by
  fun_cases pastBrackets span depth cursor with
  | case1 h => simp only [Round.brackets, h, Round.after]
  | case2 token rest h hd => simp only [Round.brackets, h, hd, Round.after]
  | case3 token rest h inner hd => simp only [Round.brackets, h, hd, Round.after, after]

theorem after_returnType (cursor : Cursor) :
    cursor.pastReturnType = (Round.returnType cursor).after := by
  fun_cases pastReturnType cursor with
  | case1 h => simp only [Round.returnType, h, Round.after]
  | case2 token rest h hk => simp only [Round.returnType, h, if_pos hk, Round.after]
  | case3 token rest h hk ho =>
    simp only [Round.returnType, h, if_neg hk, if_pos ho, Round.after, after]
  | case4 token rest h hk ho =>
    simp only [Round.returnType, h, if_neg hk, if_neg ho, Round.after, after]

theorem after_lineEnd (cursor : Cursor) : cursor.toLineEnd = (Round.lineEnd cursor).after := by
  fun_cases toLineEnd cursor with
  | case1 h => simp only [Round.lineEnd, h, Round.after]
  | case2 token rest h hk => simp only [Round.lineEnd, h, if_pos hk, Round.after]
  | case3 token rest h hk => simp only [Round.lineEnd, h, if_neg hk, Round.after, after]

theorem after_line (cursor : Cursor) : cursor.pastLine = (Round.line cursor).after := by
  fun_cases pastLine cursor with
  | case1 h => simp only [Round.line, h, Round.after]
  | case2 token rest h hk => simp only [Round.line, h, if_pos hk, Round.after]
  | case3 token rest h hk => simp only [Round.line, h, if_neg hk, Round.after, after]

/-- The rounds of a task lead to where the task itself leads. -/
theorem after_round (stage : Stage) : stage.after = stage.round.after := by
  obtain ⟨task, cursor⟩ := stage
  cases task with
  | block outermost pending => exact after_block outermost pending cursor
  | header pending keyword => exact after_header pending keyword cursor
  | parameters definition => rfl
  | returns definition => rfl
  | opening definition => exact after_opening definition cursor
  | statement => exact after_statement cursor
  | arguments depth => exact after_arguments depth cursor
  | callee start => exact after_callee start cursor
  | brackets span depth => exact after_brackets span depth cursor
  | returnType => exact after_returnType cursor
  | lineEnd => exact after_lineEnd cursor
  | line => exact after_line cursor

end Stage

end Cursor

end ManifestScan
