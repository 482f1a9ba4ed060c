import ManifestScan.ImportTable
import ManifestScan.Plugin
import ManifestScan.Text.Escape

namespace ManifestScan

/-- The expressions that stand for a string. -/
def Value.enumerations : List (Bytes × Bytes) :=
  [(ascii "IOType.STDOUT", ascii "stdout"), (ascii "IOType.STDIN", ascii "stdin"),
    (ascii "IOType.BOTH", ascii "both")]

def Value.ofEnumeration? (expression : Bytes) : Option Bytes := enumerations.lookup expression

inductive Classification where
  | classified (value : Value)
  /-- The steps that the decorators of a class register. -/
  | decorated (className : Bytes)
  | unsupported (failure : Failure)
deriving DecidableEq, Repr

namespace Classification

def leadingName (text : Bytes) : Bytes :=
  let name := text.takeWhile isNameByte
  if isIdentifier name then
    match _h : text.dropWhile isNameByte with
    | [] => name
    | b :: rest =>
      if b = dot then
        let more := leadingName rest
        if more.isEmpty then name else name ++ dot :: more
      else name
  else []
termination_by text.length
decreasing_by
  have := (List.dropWhile_suffix (l := text) isNameByte).length_le
  rw [_h, List.length_cons] at this
  omega

def stepsAttribute : Bytes := ascii ".steps"

def reference (binding : Binding) : Callable :=
  ⟨binding.module, binding.name, .ofName binding.name, none, []⟩

/-- Reads an attribute access: only enumeration values and step collections have a meaning. -/
def ofAttribute (name value : Bytes) : Classification :=
  if name.length < value.length then .unsupported (.attributeAccess value)
  else
    match Value.ofEnumeration? value with
    | some text => .classified (.string text)
    | none =>
      if stepsAttribute.length < value.length ∧ endsWith stepsAttribute value then
        .decorated (value.take (value.length - stepsAttribute.length))
      else .unsupported (.attributeAccess value)

/-- The value of a trimmed expression that is not empty. -/
def ofExpression (table : ImportTable) (value : Bytes) : Classification :=
  if value = ascii "None" then .classified .null
  else if value = ascii "True" then .classified (.boolean true)
  else if value = ascii "False" then .classified (.boolean false)
  else if Literal.isQuoted value then .classified (.string (Literal.unquote value))
  else if (leadingName value).contains dot then ofAttribute (leadingName value) value
  else if value.head? = some 0x5B ∧ value.getLast? = some 0x5D then .classified .emptyArray
  else
    match table.find? value with
    | some binding =>
      if isIdentifier value then .classified (.callable (reference binding))
      else .classified (.expression value)
    | none => .classified (.expression value)

def ofText (table : ImportTable) (text : Bytes) : Classification :=
  let value := trim text
  if value.isEmpty then .classified .null else ofExpression table value

end Classification

end ManifestScan
