import ManifestScan.Text.Name

namespace ManifestScan

/-- An entry `name = module:function` of an entry-point index. -/
structure EntryPoint where
  name : Bytes
  module : Bytes
  function : Option Bytes
deriving DecidableEq, Repr

namespace EntryPoint

/-- Reads an entry; what follows the first blank or bracket of the value counts for nothing. -/
def ofLine? (line : Bytes) : Option EntryPoint :=
  match splitFirst? equals line with
  | none => none
  | some (name, value) =>
    let value := (trim value).takeWhile fun b => !(isSpace b || b == 0x5B)
    let value := trim value
    let (module, function) := match splitFirst? colon value with
      | none => (value, [])
      | some (module, function) => (trim module, trim function)
    if isDottedName module ∨ isIdentifier module then
      some ⟨trim name, module, if function.isEmpty then none else some function⟩
    else none

def sectionOf? (line : Bytes) : Option Bytes :=
  if 2 ≤ line.length ∧ line.getLast? = some 0x5D then some (trim line.tail.dropLast) else none

/-- Lines without an entry or a header: blank ones and comments. -/
def isIdle (line : Bytes) : Bool :=
  line.isEmpty || line.head? == some hash || line.head? == some 0x3B

/-- The first entry of a section, which the lines before have opened or not. -/
def first? (group : Bytes) (isOpen : Bool) : List Bytes → Option EntryPoint
  | [] => none
  | line :: rest =>
    if isIdle (trim line) then first? group isOpen rest
    else if (trim line).head? = some 0x5B then
      if isOpen then none else first? group (sectionOf? (trim line) == some group) rest
    else if isOpen then (ofLine? (trim line)).or (first? group true rest)
    else first? group false rest

def find? (index group : Bytes) : Option EntryPoint := first? group false (lines index)

end EntryPoint

end ManifestScan
