import ManifestScan.Plugin
import ManifestScan.Signature.Default
import ManifestScan.Text.Bracket
import ManifestScan.Text.Name

namespace ManifestScan

namespace Parameter

/-- Reads `name`, `name: hint` or either with `= default`. -/
def ofText? (text : Bytes) : Option Parameter :=
  let split := assignment? text
  let head := match split with
    | some i => trim (text.take i)
    | none => text
  let default := split.map fun i => Default.serialize (text.drop (i + 1))
  let (name, hint) := match outerPosition? colon head with
    | some i => (trim (head.take i), trim (head.drop (i + 1)))
    | none => (head, [])
  if isIdentifier name then
    some ⟨name, if hint.isEmpty then none else some hint, default, split.isNone⟩
  else none

/-- Adds a parameter behind the others unless its name is taken. -/
def addTo (parameters : List Parameter) (parameter : Parameter) : List Parameter :=
  if parameters.any (·.name == parameter.name) then parameters else parameters ++ [parameter]

/-- Markers such as `/`, `*` and `*args` are no parameters of their own. -/
def isMarker (text : Bytes) : Bool := text == [slash] || text.head? == some 0x2A

/-- The parameters between the parentheses of a function. The first one is left out when it stands
for the object or the class. -/
def listOf (text : Bytes) : List Parameter :=
  let entries := ((outerFields comma (dropComments text)).map trim).filter (!·.isEmpty)
  let read (entry : Bytes) : Option Parameter := if isMarker entry then none else ofText? entry
  let first := (entries.head?.bind read).filter fun p =>
    p.name != ascii "self" && p.name != ascii "cls"
  (first.toList ++ (entries.drop 1).filterMap read).foldl addTo []

/-- The end of the first statement: a line break outside brackets and literals. -/
def statementLength (depth : Nat) : List Piece → Nat
  | [] => 0
  | .byte b :: rest =>
    if b = lineFeed ∧ depth = 0 then 0 else 1 + statementLength (depthAfter b depth) rest
  | piece :: rest => piece.width + statementLength depth rest

def reservedFields : List Bytes :=
  [ascii "else", ascii "try", ascii "finally", ascii "model_config"]

def fieldOf? (statement : Bytes) : Option Parameter :=
  let text := trim (dropComments (trim statement))
  match outerPosition? colon text with
  | none => none
  | some i =>
    let name := trim (text.take i)
    if isIdentifier name ∧ !reservedFields.contains name ∧
        !startsWith (ascii "ClassVar") (trim (text.drop (i + 1))) then ofText? text
    else none

end Parameter

end ManifestScan
