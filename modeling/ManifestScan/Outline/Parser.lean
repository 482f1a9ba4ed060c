import ManifestScan.Outline.Cursor
import ManifestScan.Token.Lexer

namespace ManifestScan

namespace Cursor

/-- The dotted name that goes on from `callee`, and the cursor behind it. -/
def callee (start : Bytes) (cursor : Cursor) : Bytes × Cursor :=
  match _h : cursor.rest with
  | point :: name :: rest =>
    if point.kind = .dot ∧ name.kind = .identifier then
      callee (start ++ dot :: name.text) ((cursor.past point (name :: rest)).past name rest)
    else (start, cursor)
  | _ => (start, cursor)
termination_by cursor.rest.length
decreasing_by rw [_h]; exact Nat.lt_succ_of_lt (Nat.lt_succ_self _)

theorem length_callee_le (start : Bytes) (cursor : Cursor) :
    (callee start cursor).2.rest.length ≤ cursor.rest.length := by
  fun_induction callee start cursor with
  | case1 start cursor point name rest h _ ih =>
    rw [h]; exact Nat.le_succ_of_le (Nat.le_succ_of_le ih)
  | case2 => exact Nat.le_refl _
  | case3 => exact Nat.le_refl _

/-- What was read from `start` on, and the cursor behind it, which is never in front of `start`. -/
structure Reading (α : Type) (start : Cursor) where
  value : α
  next : Cursor
  next_le : next.rest.length ≤ start.rest.length

structure Callee where
  text : Bytes
  isCalled : Bool

/-- Reads the name that starts with `token`, with a dot in front where it belongs to another
expression, and the bracket behind it that opens an argument list. -/
def named (cursor : Cursor) (token : Token) (rest : List Token) :
    Reading Callee (cursor.past token rest) :=
  have hc := length_callee_le token.text (cursor.past token rest)
  let name := callee token.text (cursor.past token rest)
  match h : name.2.past? .leftParen with
  | none => ⟨⟨name.1, false⟩, name.2, hc⟩
  | some inside =>
    ⟨⟨if cursor.previous.kind = .dot then dot :: name.1 else name.1, true⟩, inside,
      Nat.le_trans (Nat.le_of_lt (length_past? h)) hc⟩

structure Arguments where
  calls : List Call
  close : Option Token

def callOf (first : Token) (callee : Callee) (arguments : Arguments) (final : Token) : Call :=
  let last := arguments.close.getD final
  ⟨callee.text, ⟨first.offset, last.stop⟩, ⟨first.span.start, last.span.stop⟩,
    arguments.close.isSome, arguments.calls⟩

def reportUnclosed (cursor : Cursor) (call : Call) : Cursor :=
  { cursor with
    faults :=
      if call.closed then cursor.faults
      else ⟨.unclosedCall call.callee, call.span⟩ :: cursor.faults }

theorem rest_reportUnclosed (cursor : Cursor) (call : Call) :
    (cursor.reportUnclosed call).rest = cursor.rest := rfl

/-- The outermost calls up to the closing bracket of the list that was opened `depth` levels up. -/
def arguments (depth : Nat) (cursor : Cursor) : Reading Arguments cursor :=
  match h : cursor.rest with
  | [] => ⟨⟨[], none⟩, cursor, Nat.le_refl _⟩
  | token :: rest =>
    have hp : (cursor.past token rest).rest.length < cursor.rest.length := by
      rw [h]; exact Nat.lt_succ_self _
    if token.kind = .identifier then
      match cursor.named token rest with
      | ⟨callee, behind, hb⟩ =>
        if callee.isCalled then
          match arguments 1 behind with
          | ⟨inner, close, hc⟩ =>
            let call := callOf token callee inner cursor.final
            match arguments depth (close.reportUnclosed call) with
            | ⟨others, next, hn⟩ =>
              ⟨⟨call :: others.calls, others.close⟩, next, by
                rw [rest_reportUnclosed] at hn; omega⟩
        else
          match arguments depth behind with
          | ⟨others, next, hn⟩ => ⟨others, next, by omega⟩
    else if token.kind.isClosing ∧ depth ≤ 1 then
      ⟨⟨[], some token⟩, cursor.past token rest, Nat.le_of_lt hp⟩
    else
      match arguments (token.kind.depthAfter depth) (cursor.past token rest) with
      | ⟨others, next, hn⟩ => ⟨others, next, by omega⟩
termination_by cursor.rest.length
decreasing_by
  · omega
  · rw [rest_reportUnclosed]; omega
  · omega
  · omega

/-- The outermost calls of a statement, up to and with its line end, or up to a change of
indentation. -/
def statement (cursor : Cursor) : Reading (List Call) cursor :=
  match h : cursor.rest with
  | [] => ⟨[], cursor, Nat.le_refl _⟩
  | token :: rest =>
    have hp : (cursor.past token rest).rest.length < cursor.rest.length := by
      rw [h]; exact Nat.lt_succ_self _
    if token.kind = .newline then ⟨[], cursor.past token rest, Nat.le_of_lt hp⟩
    else if token.kind = .indent ∨ token.kind = .dedent then ⟨[], cursor, Nat.le_refl _⟩
    else if token.kind = .identifier then
      match cursor.named token rest with
      | ⟨callee, behind, hb⟩ =>
        if callee.isCalled then
          match arguments 1 behind with
          | ⟨inner, close, hc⟩ =>
            let call := callOf token callee inner cursor.final
            match statement (close.reportUnclosed call) with
            | ⟨others, next, hn⟩ =>
              ⟨call :: others, next, by rw [rest_reportUnclosed] at hn; omega⟩
        else
          match statement behind with
          | ⟨others, next, hn⟩ => ⟨others, next, by omega⟩
    else
      match statement (cursor.past token rest) with
      | ⟨others, next, hn⟩ => ⟨others, next, by omega⟩
termination_by cursor.rest.length
decreasing_by
  · rw [rest_reportUnclosed]; omega
  · omega
  · omega

/-- A statement takes at least its first token. -/
theorem length_statement_lt {cursor : Cursor} {token : Token} {rest : List Token}
    (h : cursor.rest = token :: rest) (hi : token.kind ≠ .indent) (hd : token.kind ≠ .dedent) :
    cursor.statement.next.rest.length < cursor.rest.length := by
  have hp : (cursor.past token rest).rest.length < cursor.rest.length := by
    rw [h]; exact Nat.lt_succ_self _
  rw [statement]
  split
  · rename_i he; rw [h] at he; cases he
  · rename_i token' rest' he
    obtain ⟨rfl, rfl⟩ := List.cons.inj (h.symm.trans he)
    split
    · exact hp
    · split
      · rename_i hl; rcases hl with hl | hl <;> contradiction
      · split
        · split
          rename_i callee behind hb _
          split
          · split
            rename_i inner close hc _
            exact Nat.lt_of_le_of_lt
              (Nat.le_trans (statement (close.reportUnclosed _)).next_le (Nat.le_trans hc hb)) hp
          · exact Nat.lt_of_le_of_lt (Nat.le_trans (statement behind).next_le hb) hp
        · exact Nat.lt_of_le_of_lt (statement (cursor.past token rest)).next_le hp

/-- The decorator that starts with `at`, up to its line end, and the cursor behind that. -/
def decorator (cursor : Cursor) (mark : Token) (rest : List Token) : Decorator × Cursor :=
  let stop := (cursor.past mark rest).toLineEnd
  let extent : Extent := ⟨mark.offset, stop.previous.stop⟩
  (⟨extent.of cursor.source, extent, ⟨mark.span.start, stop.previous.span.stop⟩⟩,
    (stop.past? .newline).getD stop)

theorem length_getD_past?_le (cursor : Cursor) (kind : TokenKind) :
    ((cursor.past? kind).getD cursor).rest.length ≤ cursor.rest.length := by
  cases h : cursor.past? kind with
  | none => exact Nat.le_refl _
  | some next => exact Nat.le_of_lt (length_past? h)

theorem length_decorator_le (cursor : Cursor) (mark : Token) (rest : List Token) :
    (cursor.decorator mark rest).2.rest.length ≤ rest.length :=
  Nat.le_trans (length_getD_past?_le _ _) (length_toLineEnd_le (cursor.past mark rest))

inductive BodyForm where
  /-- The header is broken, or no block follows it. -/
  | missing
  | line
  | block
deriving DecidableEq, Repr

structure Header where
  definition : Definition
  form : BodyForm
  next : Cursor

def closeDefinition (definition : Definition) (cursor : Cursor) : Definition :=
  { definition with
    extent := ⟨definition.extent.start, cursor.significant.stop⟩
    span := ⟨definition.span.start, cursor.significant.span.stop⟩ }

def parameterList (cursor : Cursor) (definition : Definition) : Definition × Cursor :=
  if cursor.token.kind = .leftParen then
    let behind := pastBrackets cursor.token.span 0 cursor
    ({ definition with parameters := some ⟨cursor.token.offset, behind.previous.stop⟩ }, behind)
  else if definition.kind = .function then
    (definition, cursor.report (.missingParameters definition.name) cursor.token.span)
  else (definition, cursor)

def returnType (cursor : Cursor) (definition : Definition) : Definition × Cursor :=
  match cursor.past? .arrow with
  | none => (definition, cursor)
  | some inside =>
    let behind := inside.pastReturnType
    let extent : Extent := ⟨inside.token.offset, behind.previous.stop⟩
    if extent.start < extent.stop then
      ({ definition with returns := some (extent.of cursor.source) }, behind)
    else (definition, behind)

def opening (cursor : Cursor) (definition : Definition) : Header :=
  match cursor.past? .colon with
  | none =>
    ⟨definition, .missing,
      (cursor.report (.missingColon definition.name) cursor.token.span).pastLine⟩
  | some inside =>
    let definition := { definition with body := some inside.previous.stop }
    match inside.past? .newline with
    | none => ⟨definition, .line, inside⟩
    | some below =>
      match below.past? .indent with
      | some block => ⟨definition, .block, block⟩
      | none =>
        ⟨definition, .missing,
          below.report (.missingBlock definition.name) below.token.span⟩

/-- Reads a definition up to its body; the cursor stands behind `keyword`. -/
def header (decorators : List Decorator) (keyword : Token) (cursor : Cursor) : Header :=
  let kind := if keyword.kind = .classWord then CallableKind.type else .function
  let extent := (decorators.head?.map (·.extent)).getD ⟨keyword.offset, 0⟩
  let span := (decorators.head?.map (·.span)).getD keyword.span
  let definition : Definition := ⟨kind, [], decorators, none, none, none, extent, span, [], []⟩
  match cursor.past? .identifier with
  | none =>
    ⟨definition, .missing, (cursor.report (.missingName keyword.text) cursor.token.span).pastLine⟩
  | some named =>
    let (definition, behind) := named.parameterList { definition with name := cursor.token.text }
    let (definition, behind) := behind.returnType definition
    behind.opening definition

theorem length_parameterList_le (cursor : Cursor) (definition : Definition) :
    (cursor.parameterList definition).2.rest.length ≤ cursor.rest.length := by
  simp only [parameterList]
  repeat' split
  · exact length_pastBrackets_le _ _ _
  · exact Nat.le_refl _
  · exact Nat.le_refl _

theorem length_returnType_le (cursor : Cursor) (definition : Definition) :
    (cursor.returnType definition).2.rest.length ≤ cursor.rest.length := by
  simp only [returnType]
  split
  · exact Nat.le_refl _
  · rename_i inside h
    have := Nat.le_trans (length_pastReturnType_le inside) (Nat.le_of_lt (length_past? h))
    split <;> exact this

theorem length_opening_le (cursor : Cursor) (definition : Definition) :
    (cursor.opening definition).next.rest.length ≤ cursor.rest.length := by
  simp only [opening]
  split
  · exact length_pastLine_le _
  · rename_i inside hi
    have hi := Nat.le_of_lt (length_past? hi)
    split
    · exact hi
    · rename_i below hb
      have hb := Nat.le_trans (Nat.le_of_lt (length_past? hb)) hi
      split
      · rename_i block hk
        exact Nat.le_trans (Nat.le_of_lt (length_past? hk)) hb
      · exact hb

theorem length_header_le (decorators : List Decorator) (keyword : Token) (cursor : Cursor) :
    (header decorators keyword cursor).next.rest.length ≤ cursor.rest.length := by
  simp only [header]
  split
  · exact length_pastLine_le _
  · rename_i named hn
    refine Nat.le_trans (length_opening_le _ _) (Nat.le_trans (length_returnType_le _ _) ?_)
    exact Nat.le_trans (length_parameterList_le _ _) (Nat.le_of_lt (length_past? hn))

def pastAsync (cursor : Cursor) : Cursor :=
  match cursor.rest with
  | first :: second :: rest =>
    if first.kind = .asyncWord ∧ second.kind = .defWord then cursor.past first (second :: rest)
    else cursor
  | _ => cursor

theorem length_pastAsync_le (cursor : Cursor) :
    cursor.pastAsync.rest.length ≤ cursor.rest.length := by
  simp only [pastAsync]
  split
  · rename_i first second rest h
    split
    · rw [h]; exact Nat.le_succ _
    · exact Nat.le_refl _
  · exact Nat.le_refl _

def pastKeyword? (cursor : Cursor) : Option (Token × Cursor) :=
  match cursor.rest with
  | [] => none
  | token :: rest =>
    if token.kind = .defWord ∨ token.kind = .classWord then some (token, cursor.past token rest)
    else none

theorem length_pastKeyword? {cursor next : Cursor} {keyword : Token}
    (h : cursor.pastKeyword? = some (keyword, next)) :
    next.rest.length < cursor.rest.length := by
  simp only [pastKeyword?] at h
  split at h
  · cases h
  · rename_i token rest he
    split at h
    · cases h; rw [he]; exact Nat.lt_succ_self _
    · cases h

/-- Reports decorators that no definition follows, at the last of them. -/
def reportStray (cursor : Cursor) (pending : List Decorator) : Cursor :=
  match pending.getLast? with
  | none => cursor
  | some last => cursor.report .strayDecorator last.span

theorem rest_reportStray (cursor : Cursor) (pending : List Decorator) :
    (cursor.reportStray pending).rest = cursor.rest := by
  simp only [reportStray]
  split <;> rfl

structure Contents where
  calls : List Call
  definitions : List Definition

/-- Reads a block up to the token that closes it, with the decorators that no definition has
taken yet. The outermost block has no such token. A block that no definition opens belongs to the
block around it. -/
def block (outermost : Bool) (pending : List Decorator) (cursor : Cursor) :
    Reading Contents cursor :=
  match h : cursor.rest with
  | [] => ⟨⟨[], []⟩, cursor, Nat.le_refl _⟩
  | token :: rest =>
    have hp : (cursor.past token rest).rest.length < cursor.rest.length := by
      rw [h]; exact Nat.lt_succ_self _
    if token.kind = .dedent ∧ !outermost then
      ⟨⟨[], []⟩, cursor.past token rest, Nat.le_of_lt hp⟩
    else if hd : token.kind = .dedent ∨ token.kind = .newline then
      match block outermost pending (cursor.past token rest) with
      | ⟨others, next, hn⟩ => ⟨others, next, by omega⟩
    else if hi : token.kind = .indent then
      match block false [] (cursor.past token rest) with
      | ⟨inner, close, hc⟩ =>
        match block outermost pending close with
        | ⟨others, next, hn⟩ =>
          ⟨⟨inner.calls ++ others.calls, inner.definitions ++ others.definitions⟩, next, by omega⟩
    else if token.kind = .at then
      match hq : cursor.decorator token rest with
      | (decorator, behind) =>
        have hb : behind.rest.length ≤ (cursor.past token rest).rest.length := by
          have := length_decorator_le cursor token rest
          rwa [hq] at this
        match block outermost (pending ++ [decorator]) behind with
        | ⟨others, next, hn⟩ => ⟨others, next, by omega⟩
    else
      match hk : cursor.pastAsync.pastKeyword? with
      | some (keyword, inside) =>
        have ha := length_pastAsync_le cursor
        have hi := length_pastKeyword? hk
        match hq : header pending keyword inside with
        | ⟨definition, form, body⟩ =>
          have hb : body.rest.length ≤ inside.rest.length := by
            have := length_header_le pending keyword inside
            rwa [hq] at this
          match form with
          | .missing =>
            match block outermost [] body with
            | ⟨others, next, hn⟩ =>
              ⟨⟨others.calls, closeDefinition definition body :: others.definitions⟩, next,
                by omega⟩
          | .line =>
            match statement body with
            | ⟨calls, close, hc⟩ =>
              match block outermost [] close with
              | ⟨others, next, hn⟩ =>
                ⟨⟨others.calls,
                  closeDefinition { definition with calls := calls } close :: others.definitions⟩,
                  next, by omega⟩
          | .block =>
            match block false [] body with
            | ⟨inner, close, hc⟩ =>
              match block outermost [] close with
              | ⟨others, next, hn⟩ =>
                ⟨⟨others.calls,
                  closeDefinition { definition with
                    calls := inner.calls, definitions := inner.definitions } close ::
                    others.definitions⟩, next, by omega⟩
      | none =>
        match hs : statement (cursor.reportStray pending) with
        | ⟨calls, close, _⟩ =>
          have hc : close.rest.length < cursor.rest.length := by
            have := length_statement_lt ((rest_reportStray cursor pending).trans h) hi
              (fun he => hd (.inl he))
            rwa [hs, rest_reportStray] at this
          match block outermost [] close with
          | ⟨others, next, hn⟩ =>
            ⟨⟨calls ++ others.calls, others.definitions⟩, next, by omega⟩
termination_by cursor.rest.length
decreasing_by all_goals omega

end Cursor

structure ParsedOutline where
  outline : Outline
  faults : List Fault

def Outline.ofTokens (source : Bytes) (tokens : List Token) : ParsedOutline :=
  match Cursor.ofTokens? source tokens with
  | none => ⟨⟨[], []⟩, []⟩
  | some cursor =>
    let contents := cursor.block true []
    ⟨⟨contents.value.calls, contents.value.definitions⟩, contents.next.faults.reverse⟩

/-- A source read as far as it can be, with what is wrong with its tokens and with its outline. -/
structure Script where
  outline : Outline
  lexicalFaults : List Fault
  outlineFaults : List Fault

def Script.ofSource (source : Bytes) : Script :=
  let stream := tokenize source
  let parsed := Outline.ofTokens source stream.tokens
  ⟨parsed.outline, stream.faults, parsed.faults⟩

namespace Script

/-- The first fault, those of the tokens before those of the outline. -/
def firstFault? (script : Script) : Option Fault :=
  (script.lexicalFaults ++ script.outlineFaults).head?

end Script

end ManifestScan
