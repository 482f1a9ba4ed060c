import ManifestScan.Proofs.Outline.Passes
import ManifestScan.Proofs.Outline.Stages
import Mathlib.Data.List.Chain

namespace ManifestScan.Cursor

/-- How far a task may still lead. Where the cursor does not move, a task is followed by
a lower one. -/
def Task.rank : Task → Nat
  | .header _ _ => 4
  | .parameters _ => 3
  | .returns _ => 2
  | .opening _ | .block _ _ | .returnType => 1
  | .statement | .arguments _ | .callee _ | .brackets _ _ | .lineEnd | .line => 0

theorem Task.rank_le (task : Task) : task.rank ≤ 4 := by
  unfold rank
  split <;> decide

namespace Stage

def size (stage : Stage) : Nat := 5 * stage.cursor.rest.length + stage.task.rank

section

variable {task task' : Task} {cursor inside next : Cursor}

theorem size_lt (h : inside.rest.length < cursor.rest.length) (hr : inside.Reaches next) :
    size ⟨task', next⟩ < size ⟨task, cursor⟩ := by
  have := task'.rank_le
  have := hr.suffix.length_le
  unfold size
  dsimp only
  omega

theorem size_lt_of_rank (hr : cursor.Reaches next) (h : task'.rank < task.rank) :
    size ⟨task', next⟩ < size ⟨task, cursor⟩ := by
  have := hr.suffix.length_le
  unfold size
  dsimp only
  omega

end

theorem reaches_after (stage : Stage) : stage.cursor.Reaches stage.after := by
  obtain ⟨task, cursor⟩ := stage
  cases task with
  | block outermost pending => exact (blockPath outermost pending cursor).reaches
  | header pending keyword => exact reaches_header pending keyword cursor
  | parameters definition =>
    exact ((reaches_parameterList cursor definition).trans (reaches_returnType _ _)).trans
      (reaches_opening _ _)
  | returns definition => exact (reaches_returnType cursor definition).trans (reaches_opening _ _)
  | opening definition => exact reaches_opening cursor definition
  | statement => exact (statementPath cursor).reaches
  | arguments depth => exact (argumentsPath depth cursor).reaches
  | callee start => exact reaches_callee start cursor
  | brackets span depth => exact reaches_pastBrackets span depth cursor
  | returnType => exact reaches_pastReturnType cursor
  | lineEnd => exact reaches_toLineEnd cursor
  | line => exact reaches_pastLine cursor

/-- The cursor moves forward from where it is to the first of the stages, and from where each leads
to the next one; all are of less than a size. -/
def Forward (size : Nat) : Cursor → List Stage → Prop
  | _, [] => True
  | cursor, stage :: others =>
    cursor.Reaches stage.cursor ∧ stage.size < size ∧ Forward size stage.after others

end Stage

def Round.Forward (size : Nat) (cursor : Cursor) : Round → Prop
  | .last next => cursor.Reaches next
  | .further inner next => Stage.Forward size cursor (inner ++ [next])

namespace Stage

section

variable {cursor inside : Cursor} {token keyword : Token} {rest : List Token}
  {pending : List Decorator}

theorem length_past (h : cursor.rest = token :: rest) :
    (cursor.past token rest).rest.length < cursor.rest.length := by
  rw [h]
  exact Nat.lt_succ_self _

/-- One token is passed. -/
theorem forward_past (h : cursor.rest = token :: rest) (task task' : Task) :
    (Round.further [] ⟨task', cursor.past token rest⟩).Forward (size ⟨task, cursor⟩) cursor :=
  ⟨.past h, size_lt (length_past h) (.refl _), trivial⟩

theorem forward_body (hk : cursor.pastAsync.pastKeyword? = some (keyword, inside))
    (outermost : Bool) (form : BodyForm) :
    (Round.body outermost ⟨.header pending keyword, inside⟩ form
      (Cursor.header pending keyword inside).next).Forward
        (size ⟨.block outermost pending, cursor⟩) cursor := by
  have hinside := reaches_pastKeyword? hk
  have hlt := Nat.lt_of_lt_of_le (length_pastKeyword? hk) (length_pastAsync_le cursor)
  have hbody := reaches_header pending keyword inside
  cases form with
  | missing => exact ⟨hinside, size_lt hlt (.refl _), .refl _, size_lt hlt hbody, trivial⟩
  | line =>
    have hclose := hbody.trans (reaches_after ⟨.statement, _⟩)
    exact ⟨hinside, size_lt hlt (.refl _), .refl _, size_lt hlt hbody, .refl _, size_lt hlt hclose,
      trivial⟩
  | block =>
    have hclose := hbody.trans (reaches_after ⟨.block false [], _⟩)
    exact ⟨hinside, size_lt hlt (.refl _), .refl _, size_lt hlt hbody, .refl _, size_lt hlt hclose,
      trivial⟩

theorem forward_block (outermost : Bool) (pending : List Decorator) (cursor : Cursor) :
    (Round.block outermost pending cursor).Forward (size ⟨.block outermost pending, cursor⟩)
      cursor := by
  fun_cases Round.block outermost pending cursor with
  | case1 => exact Reaches.refl cursor
  | case2 token rest h => exact Reaches.past h
  | case3 token rest h => exact forward_past h _ _
  | case4 token rest h =>
    have hlt := length_past h
    have hclose := reaches_after ⟨.block false [], cursor.past token rest⟩
    exact ⟨.past h, size_lt hlt (.refl _), .refl _, size_lt hlt hclose, trivial⟩
  | case5 token rest h =>
    have hlt := length_past h
    have hbehind := reaches_getD_past? (cursor.past token rest).toLineEnd .newline
    exact ⟨.past h, size_lt hlt (.refl _), hbehind,
      size_lt hlt ((reaches_toLineEnd _).trans hbehind), trivial⟩
  | case6 token rest h _ _ _ _ keyword inside hk => exact forward_body hk outermost _
  | case7 token rest h hc hl hi ha hk =>
    have hstray := reaches_reportStray cursor pending
    have hlt := length_statement_lt ((rest_reportStray cursor pending).trans h) hi
      (fun he => hl (.inl he))
    rw [rest_reportStray] at hlt
    exact ⟨hstray, size_lt_of_rank hstray Nat.zero_lt_one, .refl _, size_lt hlt (.refl _), trivial⟩

theorem reaches_behind_callee (cursor : Cursor) (token : Token) (rest : List Token) :
    (Cursor.callee token.text (cursor.past token rest)).2.Reaches
      (cursor.named token rest).next := by
  unfold named
  dsimp only
  split
  · exact .refl _
  · rename_i hp
    exact reaches_past? hp

theorem forward_name (h : cursor.rest = token :: rest) (task : Task) :
    (Round.name task cursor token rest (cursor.named token rest).value
      (cursor.named token rest).next).Forward (size ⟨task, cursor⟩) cursor := by
  have hlt := length_past h
  have hname := reaches_behind_callee cursor token rest
  have hbehind := (reaches_callee token.text (cursor.past token rest)).trans hname
  unfold Round.name
  dsimp only
  split
  · have hclose := reaches_after ⟨.arguments 1, (cursor.named token rest).next⟩
    have hreport := reaches_reportUnclosed
      (Cursor.arguments 1 (cursor.named token rest).next).next
    exact ⟨.past h, size_lt hlt (.refl _), hname, size_lt hlt hbehind, hreport _,
      size_lt hlt ((hbehind.trans hclose).trans (hreport _)), trivial⟩
  · exact ⟨.past h, size_lt hlt (.refl _), hname, size_lt hlt hbehind, trivial⟩

end

theorem forward_parameters (definition : Definition) (cursor : Cursor) :
    (Round.parameters definition cursor).Forward
      (size ⟨.parameters definition, cursor⟩) cursor := by
  have hlist := reaches_parameterList cursor definition
  have hnext (listed : Definition) :
      size ⟨.returns listed, _⟩ < size ⟨.parameters definition, cursor⟩ :=
    size_lt_of_rank hlist (Nat.lt_succ_self 2)
  unfold Round.parameters
  dsimp only
  split
  · rename_i hk
    have hp : (cursor.parameterList definition).2 = pastBrackets cursor.token.span 0 cursor := by
      rw [parameterList, if_pos hk]
    refine ⟨.refl _, size_lt_of_rank (.refl _) (Nat.zero_lt_succ 2), ?_, hnext _, trivial⟩
    show (pastBrackets cursor.token.span 0 cursor).Reaches _
    rw [hp]
    exact .refl _
  · exact ⟨hlist, hnext _, trivial⟩

theorem forward_returns (definition : Definition) (cursor : Cursor) :
    (Round.returns definition cursor).Forward (size ⟨.returns definition, cursor⟩) cursor := by
  have htype := reaches_returnType cursor definition
  have hnext (typed : Definition) : size ⟨.opening typed, _⟩ < size ⟨.returns definition, cursor⟩ :=
    size_lt_of_rank htype (Nat.lt_succ_self 1)
  unfold Round.returns
  dsimp only
  cases hi : cursor.past? .arrow with
  | none => exact ⟨htype, hnext _, trivial⟩
  | some inside =>
    have hp : (cursor.returnType definition).2 = inside.pastReturnType := by
      unfold Cursor.returnType
      rw [hi]
      dsimp only
      split <;> rfl
    refine ⟨reaches_past? hi, size_lt (length_past? hi) (.refl _), ?_, hnext _, trivial⟩
    show inside.pastReturnType.Reaches _
    rw [hp]
    exact .refl _

theorem forward_header (pending : List Decorator) (keyword : Token) (cursor : Cursor) :
    (Round.header pending keyword cursor).Forward (size ⟨.header pending keyword, cursor⟩)
      cursor := by
  unfold Round.header
  split
  · have hreport := (Reaches.refl cursor).report (.missingName keyword.text) cursor.token.span
    exact ⟨hreport, size_lt_of_rank hreport (Nat.zero_lt_succ _), trivial⟩
  · rename_i named hn
    have hnamed := reaches_past? hn
    exact ⟨hnamed, size_lt_of_rank hnamed (Nat.lt_succ_self _), trivial⟩

theorem forward_opening (definition : Definition) (cursor : Cursor) :
    (Round.opening definition cursor).Forward (size ⟨.opening definition, cursor⟩) cursor := by
  fun_cases Round.opening definition cursor with
  | case1 =>
    have hreport := (Reaches.refl cursor).report (.missingColon definition.name) cursor.token.span
    exact ⟨hreport, size_lt_of_rank hreport Nat.zero_lt_one, trivial⟩
  | case2 inside hi => exact reaches_past? hi
  | case3 inside hi below hb =>
    have hbelow := (reaches_past? hi).trans (reaches_past? hb)
    show cursor.Reaches ((below.past? .indent).getD _)
    cases hk : below.past? .indent with
    | none => exact hbelow.report _ _
    | some block => exact hbelow.trans (reaches_past? hk)

theorem forward_statement (cursor : Cursor) :
    (Round.statement cursor).Forward (size ⟨.statement, cursor⟩) cursor := by
  fun_cases Round.statement cursor with
  | case1 => exact Reaches.refl cursor
  | case2 token rest h => exact Reaches.past h
  | case3 => exact Reaches.refl cursor
  | case4 token rest h => exact forward_name h _
  | case5 token rest h => exact forward_past h _ _

theorem forward_arguments (depth : Nat) (cursor : Cursor) :
    (Round.arguments depth cursor).Forward (size ⟨.arguments depth, cursor⟩) cursor := by
  fun_cases Round.arguments depth cursor with
  | case1 => exact Reaches.refl cursor
  | case2 token rest h => exact forward_name h _
  | case3 token rest h => exact Reaches.past h
  | case4 token rest h => exact forward_past h _ _

theorem forward_callee (start : Bytes) (cursor : Cursor) :
    (Round.callee start cursor).Forward (size ⟨.callee start, cursor⟩) cursor := by
  fun_cases Round.callee start cursor with
  | case1 point name rest h =>
    have hpast : (cursor.past point (name :: rest)).Reaches
      ((cursor.past point (name :: rest)).past name rest) := .past rfl
    exact ⟨(Reaches.past h).trans hpast, size_lt (length_past h) hpast, trivial⟩
  | case2 => exact Reaches.refl cursor
  | case3 => exact Reaches.refl cursor

theorem forward_brackets (span : Span) (depth : Nat) (cursor : Cursor) :
    (Round.brackets span depth cursor).Forward (size ⟨.brackets span depth, cursor⟩) cursor := by
  fun_cases Round.brackets span depth cursor with
  | case1 => exact (Reaches.refl cursor).report _ _
  | case2 token rest h => exact Reaches.past h
  | case3 token rest h => exact forward_past h _ _

theorem forward_returnType (cursor : Cursor) :
    (Round.returnType cursor).Forward (size ⟨.returnType, cursor⟩) cursor := by
  fun_cases Round.returnType cursor with
  | case1 => exact Reaches.refl cursor
  | case2 => exact Reaches.refl cursor
  | case3 token rest h =>
    have hlt := @length_pastBrackets_lt token.span 0 cursor token rest h
    exact ⟨.refl _, size_lt_of_rank (.refl _) Nat.zero_lt_one, .refl _, size_lt hlt (.refl _),
      trivial⟩
  | case4 token rest h => exact forward_past h _ _

theorem forward_lineEnd (cursor : Cursor) :
    (Round.lineEnd cursor).Forward (size ⟨.lineEnd, cursor⟩) cursor := by
  fun_cases Round.lineEnd cursor with
  | case1 => exact Reaches.refl cursor
  | case2 => exact Reaches.refl cursor
  | case3 token rest h => exact forward_past h _ _

theorem forward_line (cursor : Cursor) :
    (Round.line cursor).Forward (size ⟨.line, cursor⟩) cursor := by
  fun_cases Round.line cursor with
  | case1 => exact Reaches.refl cursor
  | case2 token rest h => exact Reaches.past h
  | case3 token rest h => exact forward_past h _ _

/-- In every round of every task the cursor moves forward only, through smaller stages. -/
theorem forward_round (stage : Stage) : stage.round.Forward stage.size stage.cursor := by
  obtain ⟨task, cursor⟩ := stage
  cases task with
  | block outermost pending => exact forward_block outermost pending cursor
  | header pending keyword => exact forward_header pending keyword cursor
  | parameters definition => exact forward_parameters definition cursor
  | returns definition => exact forward_returns definition cursor
  | opening definition => exact forward_opening definition cursor
  | statement => exact forward_statement cursor
  | arguments depth => exact forward_arguments depth cursor
  | callee start => exact forward_callee start cursor
  | brackets span depth => exact forward_brackets span depth cursor
  | returnType => exact forward_returnType cursor
  | lineEnd => exact forward_lineEnd cursor
  | line => exact forward_line cursor

/-- In a round of one stage another one is read, or the next round starts there. -/
def Leads (stage next : Stage) : Prop := next ∈ stage.round.stages

theorem Forward.of_mem {size : Nat} {cursor : Cursor} {stages : List Stage}
    (h : Forward size cursor stages) :
    ∀ stage ∈ stages, cursor.Reaches stage.cursor ∧ stage.size < size := by
  induction stages generalizing cursor with
  | nil => exact List.forall_mem_nil _
  | cons stage stages ih =>
    obtain ⟨hr, hs, h⟩ := h
    refine List.forall_mem_cons.2 ⟨⟨hr, hs⟩, fun other hm => ?_⟩
    obtain ⟨hother, hsize⟩ := ih h other hm
    exact ⟨(hr.trans (reaches_after stage)).trans hother, hsize⟩

theorem Leads.forward {stage next : Stage} (h : stage.Leads next) :
    stage.cursor.Reaches next.cursor ∧ next.size < stage.size := by
  have hf := forward_round stage
  unfold Leads at h
  cases hr : stage.round with
  | last _ => rw [hr] at h; cases h
  | further inner last =>
    rw [hr] at h hf
    exact Forward.of_mem hf next h

/-- No chain of rounds in rounds, or of rounds behind rounds, is longer than the size of the stage
at which it starts. -/
theorem length_le_size {stage : Stage} {chain : List Stage}
    (h : List.IsChain Leads (stage :: chain)) : chain.length ≤ stage.size := by
  induction chain generalizing stage with
  | nil => exact Nat.zero_le _
  | cons next chain ih =>
    obtain ⟨hn, h⟩ := List.isChain_cons_cons.1 h
    exact Nat.succ_le_of_lt (Nat.lt_of_le_of_lt (ih h) hn.forward.2)

end Stage

end ManifestScan.Cursor
