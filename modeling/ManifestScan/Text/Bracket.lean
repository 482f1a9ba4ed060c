import ManifestScan.Text.Piece

namespace ManifestScan

def isOpening (b : UInt8) : Bool := b == leftParen || b == 0x5B || b == 0x7B

def isClosing (b : UInt8) : Bool := b == rightParen || b == 0x5D || b == 0x7D

/-- The depth after byte `b`. The three kinds of bracket are one, and a closing bracket at depth
zero counts for nothing. -/
def depthAfter (b : UInt8) (depth : Nat) : Nat :=
  if isOpening b then depth + 1 else if isClosing b then depth - 1 else depth

namespace Bracket

/-- Where the bracket closes that was opened `depth` levels up. -/
def closing? (depth offset : Nat) : List Piece → Option Nat
  | [] => none
  | .unclosed _ :: _ => none
  | .byte b :: rest =>
    if isClosing b ∧ depth = 1 then some offset
    else closing? (depthAfter b depth) (offset + 1) rest
  | piece :: rest => closing? depth (offset + piece.width) rest

end Bracket

def matching? (text : Bytes) (start : Nat) : Option Nat :=
  match text.drop start with
  | [] => none
  | b :: rest =>
    if isOpening b then Bracket.closing? 0 start (codePieces (b :: rest)) else none

namespace Bracket

def prepend (text : Bytes) : List Bytes → List Bytes
  | [] => [text]
  | field :: others => (text ++ field) :: others

def fieldsOf (separator : UInt8) (depth : Nat) : List Piece → List Bytes
  | [] => [[]]
  | .byte b :: rest =>
    if b = separator ∧ depth = 0 ∧ !isOpening b then [] :: fieldsOf separator 0 rest
    else prepend [b] (fieldsOf separator (depthAfter b depth) rest)
  | piece :: rest => prepend piece.text (fieldsOf separator depth rest)

def positionOf? (target : UInt8) (depth offset : Nat) : List Piece → Option Nat
  | [] => none
  | .unclosed _ :: _ => none
  | .byte b :: rest =>
    if b = target ∧ depth = 0 then some offset
    else positionOf? target (depthAfter b depth) (offset + 1) rest
  | piece :: rest => positionOf? target depth (offset + piece.width) rest

theorem positionOf?_lt {target : UInt8} {depth offset i : Nat} {source : List Piece}
    (h : positionOf? target depth offset source = some i) :
    i < offset + (source.flatMap Piece.text).length := by
  fun_induction positionOf? target depth offset source with
  | case1 => cases h
  | case2 => cases h
  | case3 => cases h; simp [Piece.text]
  | case4 depth offset b rest _ ih =>
    have := ih h
    simp only [List.flatMap_cons, List.length_append, Piece.text, List.length_singleton]
    omega
  | case5 depth offset piece rest _ _ ih =>
    have := ih h
    simp only [List.flatMap_cons, List.length_append]
    simp only [Piece.width] at this
    omega

end Bracket

def outerFields (separator : UInt8) (text : Bytes) : List Bytes :=
  Bracket.fieldsOf separator 0 (pieces text)

/-- The first `target` outside brackets and literals, if no literal before it lacks its end. -/
def outerPosition? (target : UInt8) (text : Bytes) : Option Nat :=
  Bracket.positionOf? target 0 0 (pieces text)

/-- Whether an equals sign after byte `b` belongs to a comparison or a named expression. -/
def joinsEquals (b : UInt8) : Bool :=
  b == equals || b == 0x21 || b == 0x3C || b == 0x3E || b == colon

theorem outerPosition?_lt {target : UInt8} {text : Bytes} {i : Nat}
    (h : outerPosition? target text = some i) : i < text.length := by
  have := Bracket.positionOf?_lt h
  rwa [pieces, Piece.flatMap_text_cut, Nat.zero_add] at this

/-- The first assignment in a text that stands after byte `before`. -/
def assignmentAfter? (before : Option UInt8) (text : Bytes) : Option Nat :=
  match h : outerPosition? equals text with
  | none => none
  | some i =>
    let previous := if i = 0 then before else text[i - 1]?
    if text[i + 1]? = some equals then
      (assignmentAfter? (some equals) (text.drop (i + 2))).map (· + (i + 2))
    else if previous.any joinsEquals then
      (assignmentAfter? (some equals) (text.drop (i + 1))).map (· + (i + 1))
    else some i
termination_by text.length
decreasing_by
  all_goals
    have := outerPosition?_lt h
    simp only [List.length_drop]
    omega

def assignment? (text : Bytes) : Option Nat := assignmentAfter? none text

def dropComments (text : Bytes) : Bytes :=
  (codePieces text).flatMap fun
    | .comment _ => []
    | piece => piece.text

end ManifestScan
