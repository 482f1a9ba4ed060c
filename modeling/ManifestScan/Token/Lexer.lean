import ManifestScan.Fault
import ManifestScan.Text.Block
import ManifestScan.Token.Lexeme

namespace ManifestScan

structure Lexer where
  rest : Bytes
  offset : Nat
  location : Location
  /-- The next byte starts a line, so its indentation counts. -/
  atLineStart : Bool
  /-- How many brackets are open. -/
  nesting : Nat
  /-- The columns of the open blocks, innermost first, without the outermost block's zero. -/
  indents : List Nat
  /-- Latest first. -/
  tokens : List Token
  /-- Latest first. -/
  faults : List Fault

namespace Lexer

def start (source : Bytes) : Lexer := ⟨source, 0, Location.start, true, 0, [], [], []⟩

def column (lexer : Lexer) : Nat := lexer.indents.headD 0

def skip (lexer : Lexer) (text : Bytes) : Lexer :=
  { lexer with
    rest := lexer.rest.drop text.length
    offset := lexer.offset + text.length
    location := lexer.location.after text }

def report (lexer : Lexer) (cause : FaultCause) (text : Bytes) : Lexer :=
  { lexer with
    faults := ⟨cause, lexer.location, lexer.location.after text⟩ :: lexer.faults }

def addToken (lexer : Lexer) (kind : TokenKind) (text : Bytes) : Lexer :=
  { lexer with
    tokens := ⟨kind, text, lexer.offset, lexer.location, lexer.location.after text⟩ ::
      lexer.tokens }

def addLayout (lexer : Lexer) (kind : TokenKind) : Lexer := lexer.addToken kind []

/-- A line ends only behind a token with text. -/
def endLine (lexer : Lexer) : Lexer :=
  match lexer.tokens with
  | [] => lexer
  | last :: _ => if last.kind.isLayout then lexer else lexer.addLayout .newline

def closeBlocks (column : Nat) (lexer : Lexer) : List Nat → Lexer
  | [] => { lexer with indents := [] }
  | indent :: outer =>
    if column < indent then closeBlocks column (lexer.addLayout .dedent) outer
    else { lexer with indents := indent :: outer }

/-- Opens or closes blocks for a line whose content starts in the given column. -/
def settle (lexer : Lexer) (column : Nat) : Lexer :=
  let lexer := { lexer with atLineStart := false }
  if lexer.column < column then
    { lexer.addLayout .indent with indents := column :: lexer.indents }
  else
    let lexer := closeBlocks column lexer lexer.indents
    if lexer.column = column then lexer else lexer.report .unmatchedUnindent []

/-- Blanks of an indentation; a form feed starts the line anew. -/
def isIndentByte (b : UInt8) : Bool := isSpace b || b == formFeed

def indentColumn (blanks : Bytes) : Nat :=
  blanks.foldl (fun column b => if b = formFeed then 0 else columnAfter b column) 0

/-- Reads the start of a line. A line of blanks and comments changes no indentation. -/
def readIndentation (lexer : Lexer) : Lexer :=
  let blanks := lexer.rest.takeWhile isIndentByte
  let lexer := lexer.skip blanks
  match lexer.rest with
  | [] => lexer
  | b :: rest =>
    if b = carriageReturn ∧ rest.head? = some lineFeed then lexer.skip [b, lineFeed]
    else if b = lineFeed then lexer.skip [b]
    else if b = hash then lexer.skip (b :: rest.takeWhile (· != lineFeed))
    else lexer.settle (indentColumn blanks)

def take (lexer : Lexer) (lexeme : Lexeme) : Lexer :=
  match lexeme.kind with
  | .filler => lexer.skip lexeme.text
  | .lineBreak =>
    let lexer := lexer.skip lexeme.text
    if lexer.nesting = 0 then { lexer.endLine with atLineStart := true } else lexer
  | .token kind =>
    let lexer := (lexer.addToken kind lexeme.text).skip lexeme.text
    { lexer with nesting := kind.depthAfter lexer.nesting }
  | .unclosed =>
    ((lexer.report .unclosedLiteral lexeme.text).addToken .string lexeme.text).skip lexeme.text
  | .unknown => (lexer.report .unknownByte lexeme.text).skip lexeme.text

def step (lexer : Lexer) (b : UInt8) (rest : Bytes) : Lexer :=
  if lexer.atLineStart ∧ lexer.nesting = 0 then lexer.readIndentation
  else lexer.take (Lexeme.read b rest)

/-- Each step takes a byte or leaves the start of a line. -/
def work (lexer : Lexer) : Nat := 2 * lexer.rest.length + lexer.atLineStart.toNat

theorem rest_skip (lexer : Lexer) (text : Bytes) :
    (lexer.skip text).rest = lexer.rest.drop text.length := rfl

theorem work_skip (lexer : Lexer) (text : Bytes) :
    (lexer.skip text).work =
      2 * (lexer.rest.length - text.length) + lexer.atLineStart.toNat := by
  simp [work, skip]

theorem work_le (lexer : Lexer) : lexer.work ≤ 2 * lexer.rest.length + 1 := by
  have := Bool.toNat_le lexer.atLineStart
  simp only [work]
  omega

theorem rest_closeBlocks (column : Nat) (lexer : Lexer) (indents : List Nat) :
    (closeBlocks column lexer indents).rest = lexer.rest := by
  fun_induction closeBlocks column lexer indents with
  | case1 => rfl
  | case2 lexer indent outer _ ih => exact ih
  | case3 => rfl

theorem atLineStart_closeBlocks (column : Nat) (lexer : Lexer) (indents : List Nat) :
    (closeBlocks column lexer indents).atLineStart = lexer.atLineStart := by
  fun_induction closeBlocks column lexer indents with
  | case1 => rfl
  | case2 lexer indent outer _ ih => exact ih
  | case3 => rfl

theorem work_settle (lexer : Lexer) (column : Nat) :
    (lexer.settle column).work = 2 * lexer.rest.length := by
  simp only [settle]
  split
  · rfl
  · split <;> simp [work, report, rest_closeBlocks, atLineStart_closeBlocks]

theorem work_readIndentation_lt {lexer : Lexer} {b : UInt8} {rest : Bytes}
    (h : lexer.rest = b :: rest) (hs : lexer.atLineStart = true) :
    lexer.readIndentation.work < lexer.work := by
  have hw : lexer.work = 2 * lexer.rest.length + 1 := by simp [work, hs]
  have hr := congrArg List.length h
  simp only [List.length_cons] at hr
  simp only [readIndentation]
  split
  · rename_i he
    have := work_le (lexer.skip (lexer.rest.takeWhile isIndentByte))
    rw [he, List.length_nil] at this
    omega
  · rename_i c after he
    have hc := congrArg List.length he
    rw [rest_skip, List.length_drop, List.length_cons] at hc
    have hskip : ∀ text : Bytes, 0 < text.length →
        ((lexer.skip (lexer.rest.takeWhile isIndentByte)).skip text).work < lexer.work := by
      intro text ht
      have := Bool.toNat_le (lexer.skip (lexer.rest.takeWhile isIndentByte)).atLineStart
      rw [work_skip, rest_skip, List.length_drop]
      omega
    repeat' split
    · exact hskip _ (Nat.succ_pos _)
    · exact hskip _ (Nat.succ_pos _)
    · exact hskip _ (Nat.succ_pos _)
    · rw [work_settle, rest_skip, List.length_drop]
      omega

theorem rest_endLine (lexer : Lexer) : lexer.endLine.rest = lexer.rest := by
  simp only [endLine]
  split
  · rfl
  · split <;> rfl

theorem rest_take (lexer : Lexer) (lexeme : Lexeme) :
    (lexer.take lexeme).rest = lexer.rest.drop lexeme.text.length := by
  simp only [take]
  repeat' split
  all_goals first | rfl | exact rest_endLine _

theorem work_take_lt {lexer : Lexer} {b : UInt8} {rest : Bytes} {lexeme : Lexeme}
    (h : lexer.rest = b :: rest) (ht : lexeme.text ≠ []) :
    (lexer.take lexeme).work < lexer.work := by
  have hl : 0 < lexeme.text.length := List.length_pos_iff.2 ht
  have hr := congrArg List.length h
  simp only [List.length_cons] at hr
  have hw := work_le (lexer.take lexeme)
  rw [rest_take, List.length_drop] at hw
  simp only [work] at *
  omega

theorem work_step_lt {lexer : Lexer} {b : UInt8} {rest : Bytes} (h : lexer.rest = b :: rest) :
    (lexer.step b rest).work < lexer.work := by
  simp only [step]
  split
  · rename_i hs; exact work_readIndentation_lt h hs.1
  · exact work_take_lt h (Lexeme.read_text_ne_nil b rest)

def run (lexer : Lexer) : Lexer :=
  match _h : lexer.rest with
  | [] => lexer
  | b :: rest => run (lexer.step b rest)
termination_by lexer.work
decreasing_by exact work_step_lt _h

/-- Ends the last line, closes every block and marks the end. -/
def finish (lexer : Lexer) : Lexer :=
  let lexer := lexer.endLine
  (closeBlocks 0 lexer lexer.indents).addLayout .endOfFile

end Lexer

structure TokenStream where
  tokens : List Token
  faults : List Fault

def tokenize (source : Bytes) : TokenStream :=
  let lexer := (Lexer.run (Lexer.start source)).finish
  ⟨lexer.tokens.reverse, lexer.faults.reverse⟩

end ManifestScan
