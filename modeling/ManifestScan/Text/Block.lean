import ManifestScan.Text.Basic

namespace ManifestScan

structure Extent where
  start : Nat
  stop : Nat
deriving DecidableEq, Repr

def slice (text : Bytes) (start stop : Nat) : Bytes := (text.drop start).take (stop - start)

def Extent.of (range : Extent) (text : Bytes) : Bytes := slice text range.start range.stop

/-- A line without content: blank, or a comment from its first byte that is not blank. -/
def isIdleLine (line : Bytes) : Bool :=
  match trim line with
  | [] => true
  | b :: _ => b == hash

/-- The column after byte `b` of an indentation; a tab goes to the next multiple of eight. -/
def columnAfter (b : UInt8) (column : Nat) : Nat :=
  if b = tab then (column / 8 + 1) * 8 else column + 1

/-- The column of the first byte of a line that is no space and no tab. -/
def indentation (line : Bytes) : Nat :=
  (line.takeWhile isSpace).foldl (fun column b => columnAfter b column) 0

namespace Block

/-- The end of the last line of a block whose lines start at offset `start`. The first line with
content sets the indentation, and the block ends before a line that has less. -/
def stopOf (width : Option Nat) (start stop : Nat) : List Bytes → Nat
  | [] => stop
  | line :: rest =>
    let next := start + line.length + 1
    if isIdleLine line then stopOf width next stop rest
    else
      let column := indentation line
      match width with
      | none =>
        if column = 0 then stop else stopOf (some column) next (start + line.length) rest
      | some least =>
        if column < least then stop else stopOf width next (start + line.length) rest

end Block

/-- The body that the colon at offset `opening` opens: the rest of its line when that has content,
else the indented lines below. A line break in the place of the colon takes all that follows it for
the rest of its line. -/
def blockBody (source : Bytes) (opening : Nat) : Extent :=
  match source.drop opening with
  | [] => ⟨source.length, source.length⟩
  | b :: rest =>
    let header := if b = lineFeed then [] else rest.takeWhile (· != lineFeed)
    let headerStop := if b = lineFeed then opening else opening + 1 + header.length
    if !isIdleLine (if b = lineFeed then rest else header) then ⟨opening + 1, headerStop⟩
    else if headerStop < source.length then
      let start := headerStop + 1
      ⟨start, Block.stopOf none start start (lines (source.drop start))⟩
    else ⟨source.length, source.length⟩

end ManifestScan
