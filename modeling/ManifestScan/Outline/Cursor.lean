import ManifestScan.Fault
import ManifestScan.Outline

namespace ManifestScan

structure Cursor where
  source : Bytes
  /-- The tokens up to the end of the source, without the token that marks it. -/
  rest : List Token
  /-- The token that marks the end. -/
  final : Token
  /-- The token last passed, or the first of all. -/
  previous : Token
  /-- The token with text last passed, or the first of all. -/
  significant : Token
  /-- Latest first. -/
  faults : List Fault

namespace Cursor

def ofTokens? (source : Bytes) (tokens : List Token) : Option Cursor :=
  match tokens, tokens.dropWhile (·.kind != .endOfFile) with
  | first :: _, final :: _ =>
    some ⟨source, tokens.takeWhile (·.kind != .endOfFile), final, first, first, []⟩
  | _, _ => none

def token (cursor : Cursor) : Token := cursor.rest.headD cursor.final

def past (cursor : Cursor) (token : Token) (rest : List Token) : Cursor :=
  { cursor with
    rest := rest
    previous := token
    significant := if token.kind.isLayout then cursor.significant else token }

def report (cursor : Cursor) (cause : FaultCause) (span : Span) : Cursor :=
  { cursor with faults := ⟨cause, span⟩ :: cursor.faults }

def past? (cursor : Cursor) (kind : TokenKind) : Option Cursor :=
  match cursor.rest with
  | [] => none
  | token :: rest => if token.kind = kind then some (cursor.past token rest) else none

/-- Moves past the rest of the line and its end. -/
def pastLine (cursor : Cursor) : Cursor :=
  match _h : cursor.rest with
  | [] => cursor
  | token :: rest =>
    if token.kind = .newline then cursor.past token rest else pastLine (cursor.past token rest)
termination_by cursor.rest.length
decreasing_by rw [_h]; exact Nat.lt_succ_self _

/-- Moves in front of the end of the line. -/
def toLineEnd (cursor : Cursor) : Cursor :=
  match _h : cursor.rest with
  | [] => cursor
  | token :: rest => if token.kind = .newline then cursor else toLineEnd (cursor.past token rest)
termination_by cursor.rest.length
decreasing_by rw [_h]; exact Nat.lt_succ_self _

/-- Moves past the brackets that open at `span`, of which `depth` are still open. -/
def pastBrackets (span : Span) (depth : Nat) (cursor : Cursor) : Cursor :=
  match _h : cursor.rest with
  | [] => cursor.report .unbalancedBrackets span
  | token :: rest =>
    match token.kind.depthAfter depth with
    | 0 => cursor.past token rest
    | inner + 1 => pastBrackets span (inner + 1) (cursor.past token rest)
termination_by cursor.rest.length
decreasing_by rw [_h]; exact Nat.lt_succ_self _

theorem length_past? {cursor next : Cursor} {kind : TokenKind}
    (h : cursor.past? kind = some next) : next.rest.length < cursor.rest.length := by
  simp only [past?] at h
  split at h
  · cases h
  · rename_i token rest he
    split at h
    · cases h; rw [he]; exact Nat.lt_succ_self _
    · cases h

theorem length_pastLine_le (cursor : Cursor) :
    cursor.pastLine.rest.length ≤ cursor.rest.length := by
  fun_induction pastLine cursor with
  | case1 => exact Nat.le_refl _
  | case2 cursor token rest h => rw [h]; exact Nat.le_succ _
  | case3 cursor token rest h _ ih => rw [h]; exact Nat.le_succ_of_le ih

theorem length_toLineEnd_le (cursor : Cursor) :
    cursor.toLineEnd.rest.length ≤ cursor.rest.length := by
  fun_induction toLineEnd cursor with
  | case1 => exact Nat.le_refl _
  | case2 => exact Nat.le_refl _
  | case3 cursor token rest h _ ih => rw [h]; exact Nat.le_succ_of_le ih

theorem length_pastBrackets_le (span : Span) (depth : Nat) (cursor : Cursor) :
    (pastBrackets span depth cursor).rest.length ≤ cursor.rest.length := by
  fun_induction pastBrackets span depth cursor with
  | case1 => exact Nat.le_refl _
  | case2 depth cursor token rest h => rw [h]; exact Nat.le_succ _
  | case3 depth cursor token rest h inner _ ih => rw [h]; exact Nat.le_succ_of_le ih

theorem length_pastBrackets_lt {span : Span} {depth : Nat} {cursor : Cursor} {token : Token}
    {rest : List Token} (h : cursor.rest = token :: rest) :
    (pastBrackets span depth cursor).rest.length < cursor.rest.length := by
  rw [pastBrackets]
  split
  · rename_i he; rw [h] at he; cases he
  · rename_i token' rest' he
    split
    · rw [he]; exact Nat.lt_succ_self _
    · rw [he]; exact Nat.lt_succ_of_le (length_pastBrackets_le _ _ _)

/-- Moves in front of the colon or line end behind a return annotation. -/
def pastReturnType (cursor : Cursor) : Cursor :=
  match _h : cursor.rest with
  | [] => cursor
  | token :: rest =>
    if token.kind = .colon ∨ token.kind = .newline then cursor
    else if token.kind.isOpening then pastReturnType (pastBrackets token.span 0 cursor)
    else pastReturnType (cursor.past token rest)
termination_by cursor.rest.length
decreasing_by
  · exact length_pastBrackets_lt _h
  · rw [_h]; exact Nat.lt_succ_self _

theorem length_pastReturnType_le (cursor : Cursor) :
    cursor.pastReturnType.rest.length ≤ cursor.rest.length := by
  fun_induction pastReturnType cursor with
  | case1 => exact Nat.le_refl _
  | case2 => exact Nat.le_refl _
  | case3 cursor token rest h _ _ ih => exact Nat.le_trans ih (length_pastBrackets_le _ _ _)
  | case4 cursor token rest h _ _ ih => rw [h]; exact Nat.le_succ_of_le ih

end Cursor

end ManifestScan
