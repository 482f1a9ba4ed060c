namespace ManifestScan

/-- Sources, names and messages are byte strings, so offsets and widths count bytes. -/
abbrev Bytes := List UInt8

/-- There are few bytes, so what holds of all of them can be computed. -/
instance decidableForallByte (p : UInt8 → Prop) [DecidablePred p] : Decidable (∀ b, p b) :=
  decidable_of_iff (∀ i : Fin 256, p (UInt8.ofFin i))
    ⟨fun h b => h b.toFin, fun h i => h (UInt8.ofFin i)⟩

def ascii (text : String) : Bytes := text.toList.map Char.toUInt8

abbrev tab : UInt8 := 0x09
abbrev lineFeed : UInt8 := 0x0A
abbrev formFeed : UInt8 := 0x0C
abbrev carriageReturn : UInt8 := 0x0D
abbrev space : UInt8 := 0x20
abbrev doubleQuote : UInt8 := 0x22
abbrev hash : UInt8 := 0x23
abbrev singleQuote : UInt8 := 0x27
abbrev leftParen : UInt8 := 0x28
abbrev rightParen : UInt8 := 0x29
abbrev comma : UInt8 := 0x2C
abbrev dot : UInt8 := 0x2E
abbrev slash : UInt8 := 0x2F
abbrev colon : UInt8 := 0x3A
abbrev equals : UInt8 := 0x3D
abbrev backslash : UInt8 := 0x5C

def isDigit (b : UInt8) : Bool := 0x30 ≤ b && b ≤ 0x39

def isUpper (b : UInt8) : Bool := 0x41 ≤ b && b ≤ 0x5A

def isLower (b : UInt8) : Bool := 0x61 ≤ b && b ≤ 0x7A

/-- ASCII letters only; bytes from 0x80 on are no letters. -/
def isLetter (b : UInt8) : Bool := isUpper b || isLower b

/-- Space, tab, line feed, vertical tab, form feed and carriage return. -/
def isBlank (b : UInt8) : Bool := b == space || (0x09 ≤ b && b ≤ 0x0D)

/-- The blanks that keep two words on one line. -/
def isSpace (b : UInt8) : Bool := b == space || b == tab

def toUpper (b : UInt8) : UInt8 := if isLower b then b - 0x20 else b

def toLower (b : UInt8) : UInt8 := if isUpper b then b + 0x20 else b

def trimLeft (text : Bytes) : Bytes := text.dropWhile isBlank

def trimRight (text : Bytes) : Bytes := (text.reverse.dropWhile isBlank).reverse

def trim (text : Bytes) : Bytes := trimRight (trimLeft text)

/-- What follows `word` when the text starts with it. -/
def afterWord? : Bytes → Bytes → Option Bytes
  | [], text => some text
  | _ :: _, [] => none
  | w :: word, b :: text => if b = w then afterWord? word text else none

theorem eq_append_of_afterWord? {word text rest : Bytes} (h : afterWord? word text = some rest) :
    text = word ++ rest := by
  fun_induction afterWord? word text with
  | case1 => simpa using h
  | case2 => cases h
  | case3 w word text ih => rw [ih h, List.cons_append]
  | case4 => cases h

def startsWith (word text : Bytes) : Bool := (afterWord? word text).isSome

def endsWith (word text : Bytes) : Bool := startsWith word.reverse text.reverse

def occursIn (word : Bytes) : Bytes → Bool
  | [] => word.isEmpty
  | b :: rest => startsWith word (b :: rest) || occursIn word rest

/-- The fields that each `separator` ends, and the field after the last one. -/
def fields (separator : UInt8) : Bytes → List Bytes
  | [] => [[]]
  | b :: rest =>
    if b = separator then [] :: fields separator rest
    else match fields separator rest with
      | [] => [[b]]
      | field :: others => (b :: field) :: others

def lines (text : Bytes) : List Bytes := fields lineFeed text

def beforeZero (text : Bytes) : Bytes := text.takeWhile (· != 0)

def splitFirst? (separator : UInt8) (text : Bytes) : Option (Bytes × Bytes) :=
  match text.span (· != separator) with
  | (before, _ :: rest) => some (before, rest)
  | (_, []) => none

def splitLast? (separator : UInt8) (text : Bytes) : Option (Bytes × Bytes) :=
  (splitFirst? separator text.reverse).map fun (rest, before) => (before.reverse, rest.reverse)

def joinWith (separator : Bytes) : List Bytes → Bytes
  | [] => []
  | [field] => field
  | field :: others => field ++ separator ++ joinWith separator others

/-- The next word of a line, from its first byte that is no space, and the text after it. -/
def firstWord (text : Bytes) : Bytes × Bytes :=
  (text.dropWhile isSpace).span (!isSpace ·)

def named (text : Bytes) : Bytes := singleQuote :: text ++ [singleQuote]

/-- Byte order: a text comes before its extensions. -/
def comesBefore : Bytes → Bytes → Bool
  | [], _ => true
  | _ :: _, [] => false
  | a :: s, b :: t => a < b || (a == b && comesBefore s t)

def decimal (n : Nat) : Bytes :=
  if n < 10 then [0x30 + n.toUInt8] else decimal (n / 10) ++ [0x30 + (n % 10).toUInt8]

/-- The decimal digits of a number, after a minus sign when it is negative. -/
def signedDecimal (n : Int) : Bytes :=
  if n < 0 then 0x2D :: decimal n.natAbs else decimal n.natAbs

end ManifestScan
