import ManifestScan.Problem

namespace ManifestScan

/-- Where a script registers its plugins: in the body of a function, and there, for a search by
text, in the list that is bound to a keyword. -/
structure Convention where
  function : Bytes
  list : Bytes
deriving DecidableEq, Repr

def Convention.default : Convention := ⟨ascii "register_plugin", ascii "plugins"⟩

/-- A registration call: its text from the callee to the closing parenthesis. -/
structure Registration where
  callee : Bytes
  offset : Nat
  text : Bytes
deriving DecidableEq, Repr

inductive Strategy where
  | automatic
  | tree
  | text
deriving DecidableEq, Repr

namespace Strategy

def name : Strategy → Bytes
  | .automatic => ascii "auto"
  | .tree => ascii "tree"
  | .text => ascii "text"

def ofName? (name : Bytes) : Option Strategy :=
  [automatic, tree, text].find? (·.name == name)

end Strategy

namespace Convention

/-- A search succeeds only with at least one registration. -/
def nonempty (convention : Convention) (found : List Registration) :
    Except Failure (List Registration) :=
  if found.isEmpty then .error (.noRegistrations convention.function) else .ok found

end Convention

/-- What a search leaves: calls in the order of the source, and an error beside them. -/
structure LocatedCalls where
  calls : List Registration
  error : Option Diagnostic
deriving DecidableEq, Repr

namespace LocatedCalls

def empty : LocatedCalls := ⟨[], none⟩

def push (located : LocatedCalls) (registration : Registration) : LocatedCalls :=
  { located with calls := located.calls ++ [registration] }

def clear (located : LocatedCalls) : LocatedCalls := { located with calls := [] }

def fail (located : LocatedCalls) (failure : Failure) : LocatedCalls :=
  { located with error := some failure.diagnostic }

/-- The end of a search that has met no error: no call at all is one. -/
def finish (convention : Convention) (located : LocatedCalls) : LocatedCalls :=
  if located.calls.isEmpty then located.fail (.noRegistrations convention.function) else located

end LocatedCalls

end ManifestScan
