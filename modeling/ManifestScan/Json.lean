import ManifestScan.Text.Escape

namespace ManifestScan

inductive Json where
  | null
  | boolean (value : Bool)
  | number (value : Int)
  | string (value : Bytes)
  /-- The text of a document, taken as it is. -/
  | verbatim (text : Bytes)
  | array (elements : List Json)
  | object (members : List (Bytes × Json))

namespace Json

/-- How a byte is written inside a string value: only the bytes that could end it are escaped, and
every other byte, a control byte too, stands for itself. Keys are escaped in full instead. -/
def guard (b : UInt8) : Bytes := if b = backslash ∨ b = doubleQuote then [backslash, b] else [b]

def quote (text : Bytes) : Bytes := doubleQuote :: text.flatMap guard ++ [doubleQuote]

def newLine (depth : Nat) : Bytes := lineFeed :: List.replicate (2 * depth) space

mutual

/-- The text of a value whose lines stand at depth `depth`; each element and each member has a
line of its own. -/
def render (depth : Nat) : Json → Bytes
  | .null => ascii "null"
  | .boolean value => ascii (if value then "true" else "false")
  | .number value => signedDecimal value
  | .string value => quote value
  | .verbatim text => text
  | .array [] => ascii "[]"
  | .array (element :: others) =>
    ascii "[" ++ newLine (depth + 1) ++ render (depth + 1) element ++
      renderElements depth others ++ newLine depth ++ ascii "]"
  | .object [] => ascii "\x7b\x7d"
  | .object (member :: others) =>
    ascii "\x7b" ++ newLine (depth + 1) ++ renderMember (depth + 1) member ++
      renderMembers depth others ++ newLine depth ++ ascii "\x7d"

def renderElements (depth : Nat) : List Json → Bytes
  | [] => []
  | element :: others =>
    ascii "," ++ newLine (depth + 1) ++ render (depth + 1) element ++ renderElements depth others

def renderMember (depth : Nat) : Bytes × Json → Bytes
  | (key, value) => Escape.quote key ++ ascii ": " ++ render depth value

def renderMembers (depth : Nat) : List (Bytes × Json) → Bytes
  | [] => []
  | member :: others =>
    ascii "," ++ newLine (depth + 1) ++ renderMember (depth + 1) member ++
      renderMembers depth others

end

/-- The text of a whole document, which ends its last line. -/
def document (value : Json) : Bytes := render 0 value ++ [lineFeed]

end Json

end ManifestScan
