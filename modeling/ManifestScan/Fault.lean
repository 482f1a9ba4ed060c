import ManifestScan.Token

namespace ManifestScan

inductive FaultCause where
  | unknownByte
  | unclosedLiteral
  | unmatchedUnindent
  | strayDecorator
  | missingName (keyword : Bytes)
  | missingParameters (name : Bytes)
  | missingColon (name : Bytes)
  | missingBlock (name : Bytes)
  | unclosedCall (callee : Bytes)
  | unbalancedBrackets
deriving DecidableEq, Repr

namespace FaultCause

def code : FaultCause → Bytes
  | .unknownByte => ascii "MEX-E2000"
  | .unclosedLiteral => ascii "MEX-E2001"
  | .unmatchedUnindent => ascii "MEX-E2002"
  | .strayDecorator => ascii "MEX-E2102"
  | .missingName _ => ascii "MEX-E2103"
  | .missingParameters _ => ascii "MEX-E2104"
  | .missingColon _ => ascii "MEX-E2105"
  | .missingBlock _ => ascii "MEX-E2106"
  | .unclosedCall _ => ascii "MEX-E2107"
  | .unbalancedBrackets => ascii "MEX-E2108"

def message : FaultCause → Bytes
  | .unknownByte => ascii "Unexpected character in source."
  | .unclosedLiteral => ascii "Unterminated string literal."
  | .unmatchedUnindent => ascii "Unindent does not match any outer indentation level."
  | .strayDecorator => ascii "Decorator must precede a function or class definition."
  | .missingName keyword => ascii "Expected a name after '" ++ keyword ++ ascii "'."
  | .missingParameters name => ascii "Expected '(' after function name '" ++ name ++ ascii "'."
  | .missingColon name => ascii "Expected ':' to open the body of '" ++ name ++ ascii "'."
  | .missingBlock name => ascii "Expected an indented block after '" ++ name ++ ascii "'."
  | .unclosedCall callee => ascii "Unterminated call to '" ++ callee ++ ascii "'."
  | .unbalancedBrackets => ascii "Unbalanced brackets."

end FaultCause

structure Fault where
  cause : FaultCause
  span : Span
deriving DecidableEq, Repr

namespace Fault

def code (fault : Fault) : Bytes := fault.cause.code

def message (fault : Fault) : Bytes := fault.cause.message

def line (fault : Fault) : Nat := fault.span.start.line

/-- The message with the name of the file in front, where there is one. -/
def messageIn (file : Bytes) (fault : Fault) : Bytes :=
  if file.isEmpty then fault.message else file ++ ascii ": " ++ fault.message

end Fault

end ManifestScan
