import ManifestScan.Text.Basic

namespace ManifestScan

/-- Lines and columns count from one, columns in bytes. -/
structure Location where
  line : Nat
  column : Nat
deriving DecidableEq, Repr

namespace Location

def start : Location := ⟨1, 1⟩

def advance (location : Location) (b : UInt8) : Location :=
  if b = lineFeed then ⟨location.line + 1, 1⟩ else ⟨location.line, location.column + 1⟩

def after (location : Location) (text : Bytes) : Location := text.foldl advance location

end Location

structure Span where
  start : Location
  stop : Location
deriving DecidableEq, Repr

inductive TokenKind where
  | endOfFile | newline | indent | dedent
  | identifier | number | string
  | defWord | classWord | asyncWord | fromWord | importWord | asWord | returnWord | lambdaWord
  | leftParen | rightParen | leftBracket | rightBracket | leftBrace | rightBrace
  | comma | colon | semicolon | dot | at | arrow | equals | asterisk | doubleAsterisk | operator
deriving DecidableEq, Repr

namespace TokenKind

def name : TokenKind → String
  | .endOfFile => "endOfFile"
  | .newline => "newline"
  | .indent => "indent"
  | .dedent => "dedent"
  | .identifier => "identifier"
  | .number => "numberLiteral"
  | .string => "stringLiteral"
  | .defWord => "def"
  | .classWord => "class"
  | .asyncWord => "async"
  | .fromWord => "from"
  | .importWord => "import"
  | .asWord => "as"
  | .returnWord => "return"
  | .lambdaWord => "lambda"
  | .leftParen => "("
  | .rightParen => ")"
  | .leftBracket => "["
  | .rightBracket => "]"
  | .leftBrace => "\x7b"
  | .rightBrace => "\x7d"
  | .comma => ","
  | .colon => ":"
  | .semicolon => ";"
  | .dot => "."
  | .at => "@"
  | .arrow => "->"
  | .equals => "="
  | .asterisk => "*"
  | .doubleAsterisk => "**"
  | .operator => "operator"

def keywords : List (Bytes × TokenKind) :=
  [(ascii "def", .defWord), (ascii "class", .classWord), (ascii "async", .asyncWord),
    (ascii "from", .fromWord), (ascii "import", .importWord), (ascii "as", .asWord),
    (ascii "return", .returnWord), (ascii "lambda", .lambdaWord)]

def ofWord (word : Bytes) : TokenKind := (keywords.lookup word).getD .identifier

/-- The brackets, and the marks that are one byte long whatever follows. -/
def marks : List (UInt8 × TokenKind) :=
  [(0x28, .leftParen), (0x29, .rightParen), (0x5B, .leftBracket), (0x5D, .rightBracket),
    (0x7B, .leftBrace), (0x7D, .rightBrace), (0x2C, .comma), (0x3B, .semicolon), (0x2E, .dot)]

def isOpening : TokenKind → Bool
  | .leftParen | .leftBracket | .leftBrace => true
  | _ => false

def isClosing : TokenKind → Bool
  | .rightParen | .rightBracket | .rightBrace => true
  | _ => false

/-- The depth behind a token; a closing bracket at depth zero counts for nothing. -/
def depthAfter (kind : TokenKind) (depth : Nat) : Nat :=
  if kind.isOpening then depth + 1 else if kind.isClosing then depth - 1 else depth

/-- Layout tokens stand for line ends and changes of indentation and hold no text. -/
def isLayout : TokenKind → Bool
  | .newline | .indent | .dedent | .endOfFile => true
  | _ => false

end TokenKind

structure Token where
  kind : TokenKind
  text : Bytes
  offset : Nat
  span : Span
deriving DecidableEq, Repr

namespace Token

def length (token : Token) : Nat := token.text.length

def stop (token : Token) : Nat := token.offset + token.length

end Token

end ManifestScan
