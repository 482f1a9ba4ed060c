import ManifestScan.Text.Piece

namespace ManifestScan

/-- Letters, digits and the underscore of ASCII. -/
def isNameByte (b : UInt8) : Bool := isLetter b || isDigit b || b == 0x5F

/-- A name: at least one name byte, the first of them no digit. -/
def isIdentifier (text : Bytes) : Bool :=
  match text with
  | [] => false
  | b :: _ => !isDigit b && text.all isNameByte

/-- At least two names joined by dots. -/
def isDottedName (text : Bytes) : Bool :=
  text.contains dot && (fields dot text).all isIdentifier

/-- A byte of a text outside its literals and comments. -/
structure Place where
  /-- The byte in front of it. -/
  previous : Option UInt8
  offset : Nat
  /-- The text from this byte on. -/
  rest : Bytes
deriving DecidableEq, Repr

namespace Place

def ofPieces (previous : Option UInt8) (offset : Nat) (rest : Bytes) : List Piece → List Place
  | [] => []
  | .unclosed _ :: _ => []
  | .byte b :: others =>
    ⟨previous, offset, rest⟩ :: ofPieces (some b) (offset + 1) (rest.drop 1) others
  | piece :: others =>
    ofPieces piece.text.getLast? (offset + piece.width) (rest.drop piece.width) others

def startsName (previous : Option UInt8) : Bool :=
  previous.all fun b => !isNameByte b && b != dot

/-- How far behind its own start a word that starts a name reaches up to `next`, with only spaces
between the two. -/
def reach? (previous : Option UInt8) (word : Bytes) (next : UInt8) (rest : Bytes) : Option Nat :=
  match afterWord? word rest with
  | none => none
  | some behind =>
    let spaces := behind.takeWhile isSpace
    if startsName previous ∧ !behind.head?.any isNameByte ∧
        behind[spaces.length]? = some next then
      some (word.length + spaces.length)
    else none

/-- The offset of `next`, when a word stands here as a name and only spaces are between the two. -/
def find? (place : Place) (word : Bytes) (next : UInt8) : Option Nat :=
  (reach? place.previous word next place.rest).map (place.offset + ·)

end Place

/-- The places from offset `start` on, up to the first literal that has no end. -/
def codePlaces (text : Bytes) (start : Nat) : List Place :=
  Place.ofPieces (if start = 0 then none else text[start - 1]?) start (text.drop start)
    (codePieces (text.drop start))

end ManifestScan
