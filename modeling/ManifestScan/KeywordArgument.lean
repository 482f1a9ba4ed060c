import ManifestScan.Problem
import ManifestScan.Text.Bracket
import ManifestScan.Text.Name

namespace ManifestScan

/-- An argument `key=value`, with the range from behind the separator before it to the
separator after it. -/
structure KeywordArgument where
  key : Bytes
  value : Bytes
  start : Nat
  stop : Nat
deriving DecidableEq, Repr

/-- The arguments of a call text up to its first fault. -/
structure ArgumentList where
  arguments : List KeywordArgument
  /-- The offset behind the opening parenthesis, or zero when there is none. -/
  start : Nat
  /-- The offset of the closing parenthesis, or zero when it is not reached. -/
  stop : Nat
  failure : Option Failure
deriving DecidableEq, Repr

namespace ArgumentList

structure Depths where
  parens : Nat
  brackets : Nat
  braces : Nat
deriving DecidableEq, Repr

namespace Depths

def zero : Depths := ⟨0, 0, 0⟩

def after (depths : Depths) (b : UInt8) : Depths :=
  if b = leftParen then { depths with parens := depths.parens + 1 }
  else if b = rightParen then { depths with parens := depths.parens - 1 }
  else if b = 0x5B then { depths with brackets := depths.brackets + 1 }
  else if b = 0x5D then { depths with brackets := depths.brackets - 1 }
  else if b = 0x7B then { depths with braces := depths.braces + 1 }
  else if b = 0x7D then { depths with braces := depths.braces - 1 }
  else depths

end Depths

structure Pending where
  key : Bytes
  /-- The text behind the equals sign, once that is read. -/
  value : Option Bytes
  start : Nat
deriving DecidableEq, Repr

namespace Pending

def opened (start : Nat) : Pending := ⟨[], none, start⟩

def append (pending : Pending) (text : Bytes) : Pending :=
  match pending.value with
  | none => { pending with key := pending.key ++ text }
  | some value => { pending with value := some (value ++ text) }

/-- A key keeps only what follows its last colon. -/
def keyOf (key : Bytes) : Bytes :=
  match splitLast? colon (trim key) with
  | none => trim key
  | some (_, name) => trim name

/-- The argument that ends at offset `stop`. Only the last one may be empty. -/
def finish (pending : Pending) (stop : Nat) (isLast : Bool) :
    Except Failure (List KeywordArgument) :=
  match pending.value with
  | none =>
    let text := trim pending.key
    if pending.key.isEmpty then if isLast then .ok [] else .error .emptyArgument
    else if startsWith (ascii "**") text then .error (.keywordSplat text)
    else .error (.positionalArgument text)
  | some value =>
    let key := keyOf pending.key
    if isIdentifier key then .ok [⟨key, trim value, pending.start, stop⟩]
    else .error (.invalidKeyword key)

def skips (pending : Pending) (b : UInt8) : Bool :=
  pending.value.isNone && pending.key.isEmpty &&
    (isSpace b || b == lineFeed || b == carriageReturn)

end Pending

/-- Reads the arguments from offset `offset` on; `done` holds those before. -/
def read (start : Nat) (depths : Depths) (pending : Pending) (offset : Nat)
    (done : List KeywordArgument) : List Piece → ArgumentList
  | [] => ⟨done, start, 0, some .unclosedArguments⟩
  | .unclosed _ :: _ => ⟨done, start, 0, some .unclosedLiteral⟩
  | .literal text :: rest =>
    read start depths (pending.append text) (offset + text.length) done rest
  | .comment text :: rest => read start depths pending (offset + text.length) done rest
  | .byte b :: rest =>
    if pending.skips b then read start depths pending (offset + 1) done rest
    else if b = equals ∧ pending.value.isNone ∧ depths = .zero then
      read start depths { pending with value := some [] } (offset + 1) done rest
    else if b = comma ∧ depths = .zero then
      match pending.finish offset false with
      | .error failure => ⟨done, start, 0, some failure⟩
      | .ok arguments =>
        read start depths (.opened (offset + 1)) (offset + 1) (done ++ arguments) rest
    else if b = rightParen ∧ depths.parens = 0 then
      if depths = .zero then
        match pending.finish offset true with
        | .error failure => ⟨done, start, offset, some failure⟩
        | .ok arguments => ⟨done ++ arguments, start, offset, none⟩
      else ⟨done, start, 0, some .unbalancedArguments⟩
    else read start (depths.after b) (pending.append [b]) (offset + 1) done rest

/-- The keyword arguments of a call, behind its first parenthesis. -/
def ofCall (text : Bytes) : ArgumentList :=
  match splitFirst? leftParen text with
  | none => ⟨[], 0, 0, some .noArguments⟩
  | some (callee, rest) =>
    let start := callee.length + 1
    read start .zero (.opened start) start [] (codePieces rest)

end ArgumentList

end ManifestScan
