import ManifestScan.Text.Literal
import ManifestScan.Token

namespace ManifestScan

inductive LexemeKind where
  /-- Blanks, comments and joined line ends. -/
  | filler
  | lineBreak
  | token (kind : TokenKind)
  /-- A string literal without an end. -/
  | unclosed
  /-- A byte that starts no token. -/
  | unknown
deriving DecidableEq, Repr

structure Lexeme where
  kind : LexemeKind
  text : Bytes
deriving DecidableEq, Repr

namespace Lexeme

def isFiller (b : UInt8) : Bool := isSpace b || b == carriageReturn || b == formFeed

/-- Letters, the underscore and every byte from 0x80 on. -/
def startsWord (b : UInt8) : Bool := isLetter b || b == 0x5F || 0x80 ≤ b

def isWordByte (b : UInt8) : Bool := startsWord b || isDigit b

def isStringMark (word : Bytes) : Bool :=
  ["r", "b", "u", "f", "rb", "br", "rf", "fr"].any (ascii · == word.map toLower)

structure Body where
  text : Bytes
  closed : Bool

def Body.prepend (front : Bytes) (body : Body) : Body := ⟨front ++ body.text, body.closed⟩

def plainBody (quote : UInt8) : Bytes → Body
  | [] => ⟨[], false⟩
  | b :: rest =>
    if b = backslash then
      match rest with
      | [] => ⟨[b], false⟩
      | c :: escaped => (plainBody quote escaped).prepend [b, c]
    else if b = lineFeed then ⟨[], false⟩
    else if b = quote then ⟨[b], true⟩
    else (plainBody quote rest).prepend [b]

def tripleBody (quote : UInt8) : Bytes → Body
  | [] => ⟨[], false⟩
  | b :: rest =>
    if b = backslash then
      match rest with
      | [] => ⟨[b], false⟩
      | c :: escaped => (tripleBody quote escaped).prepend [b, c]
    else if b = quote ∧ startsWith [quote, quote] rest then ⟨[b, quote, quote], true⟩
    else (tripleBody quote rest).prepend [b]

def literalBody (quote : UInt8) (rest : Bytes) : Body :=
  match afterWord? [quote, quote] rest with
  | some body => (tripleBody quote body).prepend [quote, quote, quote]
  | none => (plainBody quote rest).prepend [quote]

def ofLiteral (mark : Bytes) (quote : UInt8) (rest : Bytes) : Lexeme :=
  let body := (literalBody quote rest).prepend mark
  ⟨if body.closed then .token .string else .unclosed, body.text⟩

def isFigure (b : UInt8) : Bool := isDigit b || b == 0x5F

def isRadix (b : UInt8) : Bool := [0x78, 0x58, 0x6F, 0x4F, 0x62, 0x42].contains b

def isExponent (b : UInt8) : Bool := b == 0x65 || b == 0x45

def isSign (b : UInt8) : Bool := b == 0x2B || b == 0x2D

def isImaginary (b : UInt8) : Bool := b == 0x6A || b == 0x4A

def fraction : Bytes → Bytes
  | [] => []
  | b :: rest => if b = dot then b :: rest.takeWhile isFigure else []

/-- An exponent is there only with a digit behind its letter and sign. -/
def exponent : Bytes → Bytes
  | e :: d :: rest =>
    if isExponent e ∧ isDigit d then e :: (d :: rest).takeWhile isFigure
    else if isExponent e ∧ isSign d ∧ rest.head?.any isDigit then
      e :: d :: rest.takeWhile isFigure
    else []
  | _ => []

def decimalNumber (text : Bytes) : Bytes :=
  let whole := text.takeWhile isFigure
  let point := fraction (text.drop whole.length)
  let power := exponent (text.drop (whole ++ point).length)
  let unit := ((text.drop (whole ++ point ++ power).length).take 1).takeWhile isImaginary
  whole ++ point ++ power ++ unit

def number (text : Bytes) : Bytes :=
  match text with
  | zero :: radix :: rest =>
    if zero = 0x30 ∧ isRadix radix then
      zero :: radix :: rest.takeWhile fun b => isLetter b || isFigure b
    else decimalNumber text
  | _ => decimalNumber text

/-- A mark of `kind`, or an operator where an equals sign follows. -/
def unlessAssigned (kind : TokenKind) (mark rest : Bytes) : Lexeme :=
  if rest.head? = some equals then ⟨.token .operator, mark ++ [equals]⟩ else ⟨.token kind, mark⟩

/-- The bytes that start an operator; the first three may stand twice. -/
def operators : Bytes := ascii "<>/+%!&|^~-"

def punctuation (b : UInt8) (rest : Bytes) : Lexeme :=
  if let some kind := TokenKind.marks.lookup b then ⟨.token kind, [b]⟩
  else if b = 0x40 then unlessAssigned .at [b] rest
  else if b = colon then unlessAssigned .colon [b] rest
  else if b = equals then unlessAssigned .equals [b] rest
  else if b = 0x2A then
    if rest.head? = some b then unlessAssigned .doubleAsterisk [b, b] (rest.drop 1)
    else unlessAssigned .asterisk [b] rest
  else if b = 0x2D ∧ rest.head? = some 0x3E then ⟨.token .arrow, [b, 0x3E]⟩
  else if operators.contains b then
    if (operators.take 3).contains b ∧ rest.head? = some b then
      unlessAssigned .operator [b, b] (rest.drop 1)
    else unlessAssigned .operator [b] rest
  else ⟨.unknown, [b]⟩

def read (b : UInt8) (rest : Bytes) : Lexeme :=
  if isFiller b then ⟨.filler, [b]⟩
  else if b = backslash ∧ rest.head? = some lineFeed then ⟨.filler, [b, lineFeed]⟩
  else if b = backslash ∧ startsWith [carriageReturn, lineFeed] rest then
    ⟨.filler, [b, carriageReturn, lineFeed]⟩
  else if b = lineFeed then ⟨.lineBreak, [b]⟩
  else if b = hash then ⟨.filler, b :: rest.takeWhile (· != lineFeed)⟩
  else if startsWord b then
    let word := b :: rest.takeWhile isWordByte
    match rest.dropWhile isWordByte with
    | quote :: after =>
      if Literal.isQuote quote ∧ isStringMark word then ofLiteral word quote after
      else ⟨.token (TokenKind.ofWord word), word⟩
    | [] => ⟨.token (TokenKind.ofWord word), word⟩
  else if isDigit b ∨ (b = dot ∧ rest.head?.any isDigit) then ⟨.token .number, number (b :: rest)⟩
  else if Literal.isQuote b then ofLiteral [] b rest
  else punctuation b rest

theorem Body.text_prepend (front : Bytes) (body : Body) :
    (body.prepend front).text = front ++ body.text := rfl

theorem ofLiteral_text_ne_nil (mark : Bytes) (quote : UInt8) (rest : Bytes) :
    (ofLiteral mark quote rest).text ≠ [] := by
  simp only [ofLiteral, literalBody]
  split <;> simp [Body.text_prepend]

theorem number_ne_nil {b : UInt8} {rest : Bytes} (h : isDigit b ∨ b = dot) :
    number (b :: rest) ≠ [] := by
  have hd : decimalNumber (b :: rest) ≠ [] := by
    rcases h with h | rfl
    · simp [decimalNumber, isFigure, h]
    · have hw : (dot :: rest).takeWhile isFigure = [] := rfl
      simp [decimalNumber, hw, fraction]
  simp only [number]
  split
  · split
    · simp
    · exact hd
  · exact hd

theorem unlessAssigned_text_ne_nil {mark : Bytes} (kind : TokenKind) (rest : Bytes)
    (h : mark ≠ []) : (unlessAssigned kind mark rest).text ≠ [] := by
  simp only [unlessAssigned]
  split <;> simp [h]

theorem punctuation_text_ne_nil (b : UInt8) (rest : Bytes) : (punctuation b rest).text ≠ [] := by
  simp only [punctuation]
  repeat' split
  all_goals first
    | exact List.cons_ne_nil _ _
    | exact unlessAssigned_text_ne_nil _ _ (List.cons_ne_nil _ _)

/-- Every lexeme takes at least one byte. -/
theorem read_text_ne_nil (b : UInt8) (rest : Bytes) : (read b rest).text ≠ [] := by
  simp only [read]
  repeat' split
  all_goals first
    | exact List.cons_ne_nil _ _
    | exact ofLiteral_text_ne_nil _ _ _
    | exact punctuation_text_ne_nil _ _
    | rename_i h; exact number_ne_nil (h.imp_right And.left)

end Lexeme

end ManifestScan
