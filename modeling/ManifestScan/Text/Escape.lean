import ManifestScan.Text.Literal

namespace ManifestScan

namespace Literal

def isQuoted (text : Bytes) : Bool :=
  match text with
  | [] => false
  | quote :: _ => isQuote quote && after? text == some []

/-- What an escape of byte `b` stands for: an unknown one stands for itself. -/
def escaped (b : UInt8) : Bytes :=
  if b = backslash ∨ b = doubleQuote ∨ b = singleQuote then [b]
  else if b = 0x6E then [lineFeed]
  else if b = 0x74 then [tab]
  else if b = 0x72 then [carriageReturn]
  else if b = lineFeed then []
  else [backslash, b]

def unescape : Bytes → Bytes
  | [] => []
  | [b] => [b]
  | b :: c :: rest =>
    if b = backslash then escaped c ++ unescape rest else b :: unescape (c :: rest)

def quoteWidth (text : Bytes) : Nat :=
  match text with
  | quote :: rest => if 6 ≤ text.length ∧ startsWith [quote, quote] rest then 3 else 1
  | [] => 1

/-- The text that a string literal denotes; any other text denotes itself. -/
def unquote (text : Bytes) : Bytes :=
  if isQuoted text then
    let width := quoteWidth text
    unescape ((text.drop width).take (text.length - 2 * width))
  else text

end Literal

namespace Escape

def hexDigit (n : UInt8) : UInt8 := if n < 10 then 0x30 + n else 0x61 + (n - 10)

/-- How a byte is written inside a string: quotes, backslashes and control bytes are escaped. -/
def ofByte (b : UInt8) : Bytes :=
  if b = backslash then [backslash, backslash]
  else if b = doubleQuote then [backslash, doubleQuote]
  else if b = 0x08 then [backslash, 0x62]
  else if b = formFeed then [backslash, 0x66]
  else if b = lineFeed then [backslash, 0x6E]
  else if b = carriageReturn then [backslash, 0x72]
  else if b = tab then [backslash, 0x74]
  else if b < 0x20 then ascii "\\u00" ++ [hexDigit (b / 16), hexDigit (b % 16)]
  else [b]

def ofText (text : Bytes) : Bytes := text.flatMap ofByte

def quote (text : Bytes) : Bytes := doubleQuote :: ofText text ++ [doubleQuote]

end Escape

end ManifestScan
