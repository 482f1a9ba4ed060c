import ManifestScan.Text.Block
import ManifestScan.Token

namespace ManifestScan

inductive CallableKind where
  | type
  | function
deriving DecidableEq, Repr

namespace CallableKind

def name : CallableKind → Bytes
  | .type => ascii "class"
  | .function => ascii "function"

def other : CallableKind → CallableKind
  | .type => .function
  | .function => .type

/-- What a name denotes by its first letter: a capital starts the name of a class. -/
def ofName (name : Bytes) : CallableKind := if name.head?.any isUpper then .type else .function

end CallableKind

/-- A call by name. It reaches from the first byte of the callee to behind the closing bracket, or
to the end of the source when nothing closes it. -/
structure Call where
  /-- The dotted name, behind a dot when the call is on the value of an expression. -/
  callee : Bytes
  extent : Extent
  span : Span
  closed : Bool
  /-- The outermost calls among the arguments. -/
  nested : List Call

structure Decorator where
  text : Bytes
  extent : Extent
  span : Span
deriving DecidableEq, Repr

structure Definition where
  kind : CallableKind
  name : Bytes
  decorators : List Decorator
  /-- From the opening to behind the closing bracket of the parameters or bases. -/
  parameters : Option Extent
  returns : Option Bytes
  /-- The offset behind the colon that opens the body. -/
  body : Option Nat
  extent : Extent
  span : Span
  calls : List Call
  definitions : List Definition

structure Outline where
  calls : List Call
  definitions : List Definition

end ManifestScan
