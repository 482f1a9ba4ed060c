import ManifestScan.Text.Escape

namespace ManifestScan.Default

def isFigures (text : Bytes) : Bool := !text.isEmpty && text.all isDigit

def isExponentPart (text : Bytes) : Bool :=
  match text with
  | [] => true
  | e :: rest =>
    (e == 0x65 || e == 0x45) && isFigures (match rest with
      | [] => []
      | s :: digits => if s = 0x2B ∨ s = 0x2D then digits else rest)

/-- Nothing, or a fraction, and an exponent that may follow either. -/
def isFractionPart (text : Bytes) : Bool :=
  match text with
  | b :: rest =>
    if b = dot then
      !(rest.takeWhile isDigit).isEmpty && isExponentPart (rest.dropWhile isDigit)
    else isExponentPart text
  | [] => true

def isNumber (text : Bytes) : Bool :=
  let unsigned := if text.head? = some 0x2D then text.tail else text
  let whole := unsigned.takeWhile isDigit
  !whole.isEmpty && !(1 < whole.length && whole.head? == some 0x30) &&
    isFractionPart (unsigned.dropWhile isDigit)

/-- The text of a default expression as a document: literals and numbers keep their meaning, and
any other expression becomes a string. -/
def serialize (expression : Bytes) : Bytes :=
  let value := trim expression
  if value = ascii "None" then ascii "null"
  else if value = ascii "True" then ascii "true"
  else if value = ascii "False" then ascii "false"
  else if Literal.isQuoted value then Escape.quote (Literal.unquote value)
  else if isNumber value then value
  else Escape.quote value

end ManifestScan.Default
