import ManifestScan.Fault

namespace ManifestScan

inductive ProblemKind where
  | notFound
  | invalidSyntax
  | unsupported
  | io
deriving DecidableEq, Repr

def ProblemKind.name : ProblemKind → Bytes
  | .notFound => ascii "NotFound"
  | .invalidSyntax => ascii "InvalidSyntax"
  | .unsupported => ascii "UnsupportedConstruct"
  | .io => ascii "Io"

inductive Expectation where
  | name
  | string
  | boolean
  | steps
deriving DecidableEq, Repr

def Expectation.text : Expectation → Bytes
  | .name => ascii "a non-empty string literal"
  | .string => ascii "a string"
  | .boolean => ascii "True or False"
  | .steps => ascii "a list or a decorated step collection"

inductive Failure where
  | noArguments
  | unclosedLiteral
  | unbalancedArguments
  | unclosedArguments
  | positionalArgument (text : Bytes)
  | keywordSplat (text : Bytes)
  | emptyArgument
  | invalidKeyword (key : Bytes)
  | attributeAccess (value : Bytes)
  | missingFunction (name : Bytes)
  | noRegistrations (function : Bytes)
  | unclosedSignature (function : Bytes)
  | missingColon (function : Bytes)
  | unclosedList (keyword function : Bytes)
  | unclosedRegistration (callee : Bytes)
  | unclosedRegistrationAt (callee : Bytes) (line : Nat)
  | brokenSource (fault : Fault)
  | missingEntryFile (directory : Bytes)
  /-- `present` tells whether there is such a file. -/
  | unreadableEntryFile (file : Bytes) (present : Bool)
  | wrongValue (key : Bytes) (expected : Expectation) (value : Bytes)
  | unknownConstructor (callee : Bytes)
  | repeatedKeyword (key : Bytes)
  | twoCallables
  | missingName
  | missingCallable (plugin : Bytes)
  | unknownSymbol (key value : Bytes)
  | unknownConfig (value : Bytes)
deriving DecidableEq, Repr

inductive Warning where
  | continuedImport (line : Nat)
  | openImportList (line : Nat)
  | unusableDirectory (path reason : Bytes)
  | unreadableFile (path : Bytes)
  | brokenModule (module : Bytes) (fault : Fault)
  | invalidPriority (value step : Bytes) (used : Int)
  | unreadableModule (path : Bytes)
  | unreadableIndex (path : Bytes)
  | missingEntryModule (module directory : Bytes)
  | skippedRegistration (ordinal : Nat) (callee : Bytes) (failure : Failure)
  | duplicateName (name : Bytes) (ordinal : Nat) (callee : Bytes)
deriving DecidableEq, Repr

inductive Problem where
  | failure (cause : Failure)
  | warning (cause : Warning)
deriving DecidableEq, Repr

namespace Failure

def code : Failure → Bytes
  | .noArguments => ascii "MEX-E2300"
  | .unclosedLiteral => ascii "MEX-E2301"
  | .unbalancedArguments | .unclosedArguments => ascii "MEX-E2302"
  | .positionalArgument _ => ascii "MEX-E2303"
  | .keywordSplat _ => ascii "MEX-E2304"
  | .emptyArgument => ascii "MEX-E2305"
  | .invalidKeyword _ => ascii "MEX-E2306"
  | .attributeAccess _ => ascii "MEX-E2400"
  | .missingFunction _ => ascii "MEX-E2500"
  | .noRegistrations _ => ascii "MEX-E2501"
  | .unclosedSignature _ | .missingColon _ | .unclosedList _ _ | .unclosedRegistration _
  | .unclosedRegistrationAt _ _ => ascii "MEX-E2502"
  | .brokenSource fault => fault.code
  | .missingEntryFile _ => ascii "MEX-E2800"
  | .unreadableEntryFile _ _ => ascii "MEX-E3000"
  | .wrongValue _ _ _ => ascii "MEX-E3102"
  | .unknownConstructor _ => ascii "MEX-E3103"
  | .repeatedKeyword _ | .twoCallables => ascii "MEX-E3104"
  | .missingName | .missingCallable _ => ascii "MEX-E3106"
  | .unknownSymbol _ _ | .unknownConfig _ => ascii "MEX-E3107"

def kind : Failure → ProblemKind
  | .keywordSplat _ | .attributeAccess _ | .unknownConstructor _ => .unsupported
  | .missingFunction _ | .noRegistrations _ | .missingEntryFile _ | .unreadableEntryFile _ false
  | .missingName | .missingCallable _ | .unknownSymbol _ _ | .unknownConfig _ => .notFound
  | .unreadableEntryFile _ true => .io
  | _ => .invalidSyntax

def message : Failure → Bytes
  | .noArguments => ascii "Call text has no opening parenthesis."
  | .unclosedLiteral => ascii "Unterminated string literal in call arguments."
  | .unbalancedArguments => ascii "Unbalanced brackets in call arguments."
  | .unclosedArguments => ascii "Call text has no closing parenthesis."
  | .positionalArgument text =>
    ascii "Positional argument " ++ named text ++
      ascii " is not supported; use keyword arguments."
  | .keywordSplat text =>
    ascii "Keyword splat " ++ named text ++ ascii " cannot be evaluated statically."
  | .emptyArgument => ascii "Empty argument between separators."
  | .invalidKeyword key => ascii "Invalid keyword " ++ named key ++ ascii "."
  | .attributeAccess value =>
    ascii "Attribute access " ++ named value ++ ascii " cannot be evaluated statically."
  | .missingFunction name => ascii "Registration function " ++ named name ++ ascii " not found."
  | .noRegistrations function => ascii "No registrations found in " ++ named function ++ ascii "."
  | .unclosedSignature function =>
    ascii "Unterminated signature of " ++ named function ++ ascii "."
  | .missingColon function =>
    ascii "Missing ':' after the signature of " ++ named function ++ ascii "."
  | .unclosedList keyword function =>
    ascii "Unterminated " ++ named keyword ++ ascii " list in " ++ named function ++ ascii "."
  | .unclosedRegistration callee =>
    ascii "Unterminated registration call " ++ named callee ++ ascii "."
  | .unclosedRegistrationAt callee line =>
    ascii "Unterminated registration call " ++ named callee ++ ascii " on line " ++
      decimal line ++ ascii "."
  | .brokenSource fault => fault.message ++ ascii " (line " ++ decimal fault.line ++ ascii ")"
  | .missingEntryFile directory =>
    ascii "plugins.py or plugin.py not found in " ++ named directory ++ ascii "."
  | .unreadableEntryFile file _ =>
    ascii "Unable to read entry file " ++ named file ++ ascii "."
  | .wrongValue key expected value =>
    ascii "Keyword " ++ named key ++ ascii " expects " ++ expected.text ++ ascii ", got " ++
      named value ++ ascii "."
  | .unknownConstructor callee =>
    ascii "Unknown registration constructor " ++ named callee ++ ascii "."
  | .repeatedKeyword key => ascii "Keyword " ++ named key ++ ascii " is repeated."
  | .twoCallables => ascii "Both 'obj' and 'entry' are given."
  | .missingName => ascii "Registration has no 'name' keyword."
  | .missingCallable plugin =>
    ascii "Plugin " ++ named plugin ++ ascii " has no 'obj' or 'entry' keyword."
  | .unknownSymbol key value =>
    ascii "Keyword " ++ named key ++ ascii " value " ++ named value ++
      ascii " does not name an imported symbol."
  | .unknownConfig value =>
    ascii "Config " ++ named value ++ ascii " does not name an imported symbol."

end Failure

def registration (ordinal : Nat) (callee : Bytes) : Bytes :=
  ascii "registration #" ++ decimal ordinal ++ ascii " (" ++ callee ++ ascii ")"

namespace Warning

def code : Warning → Bytes
  | .continuedImport _ | .openImportList _ => ascii "MEX-W2200"
  | .unusableDirectory _ _ => ascii "MEX-W2601"
  | .unreadableFile _ => ascii "MEX-W2602"
  | .brokenModule _ _ => ascii "MEX-W2603"
  | .invalidPriority _ _ _ => ascii "MEX-W2604"
  | .unreadableModule _ => ascii "MEX-W2700"
  | .unreadableIndex _ => ascii "MEX-W2801"
  | .missingEntryModule _ _ => ascii "MEX-W2802"
  | .skippedRegistration _ _ failure => failure.code
  | .duplicateName _ _ _ => ascii "MEX-W3101"

def kind : Warning → ProblemKind
  | .continuedImport _ | .openImportList _ => .unsupported
  | .unusableDirectory _ _ | .unreadableFile _ | .unreadableModule _ | .unreadableIndex _ => .io
  | .missingEntryModule _ _ => .notFound
  | .skippedRegistration _ _ failure => failure.kind
  | _ => .invalidSyntax

def skippedImport (line : Nat) (reason : String) : Bytes :=
  ascii "Skipped multi-line import on line " ++ decimal line ++ ascii " (" ++ ascii reason ++
    ascii ")."

def message : Warning → Bytes
  | .continuedImport line => skippedImport line "line continuation"
  | .openImportList line => skippedImport line "parenthesised import list"
  | .unusableDirectory path reason => path ++ ascii ": " ++ reason ++ ascii "."
  | .unreadableFile path => ascii "Skipped unreadable file " ++ named path ++ ascii "."
  | .brokenModule module fault =>
    ascii "Module " ++ named module ++ ascii " has " ++ fault.code ++ ascii " on line " ++
      decimal fault.line ++ ascii " (" ++ fault.message ++ ascii "); its steps may be incomplete."
  | .invalidPriority value step used =>
    ascii "Priority " ++ named value ++ ascii " of step " ++ named step ++
      ascii " is not an integer; using " ++ signedDecimal used ++ ascii "."
  | .unreadableModule path | .unreadableIndex path =>
    ascii "Unable to read " ++ named path ++ ascii "."
  | .missingEntryModule module directory =>
    ascii "Entry point module " ++ named module ++ ascii " has no file under " ++
      named directory ++ ascii "."
  | .skippedRegistration ordinal callee failure =>
    ascii "Skipped " ++ registration ordinal callee ++ ascii ": " ++ failure.message
  | .duplicateName name ordinal callee =>
    ascii "Duplicate plugin name " ++ named name ++ ascii " in " ++ registration ordinal callee ++
      ascii "; keeping the first registration."

end Warning

structure Diagnostic where
  code : Bytes
  kind : ProblemKind
  message : Bytes
  isWarning : Bool
deriving DecidableEq, Repr

namespace Diagnostic

def error (code : Bytes) (kind : ProblemKind) (message : Bytes) : Diagnostic :=
  ⟨code, kind, message, false⟩

def warning (code : Bytes) (kind : ProblemKind) (message : Bytes) : Diagnostic :=
  ⟨code, kind, message, true⟩

/-- An error that leaves out one registration and stops nothing else. -/
def demote (ordinal : Nat) (callee : Bytes) (diagnostic : Diagnostic) : Diagnostic :=
  { diagnostic with
    isWarning := true
    message := ascii "Skipped " ++ registration ordinal callee ++ ascii ": " ++ diagnostic.message }

end Diagnostic

def Failure.diagnostic (failure : Failure) : Diagnostic :=
  .error failure.code failure.kind failure.message

def Warning.diagnostic (warning : Warning) : Diagnostic :=
  .warning warning.code warning.kind warning.message

namespace Problem

def code : Problem → Bytes
  | .failure cause => cause.code
  | .warning cause => cause.code

def kind : Problem → ProblemKind
  | .failure cause => cause.kind
  | .warning cause => cause.kind

def message : Problem → Bytes
  | .failure cause => cause.message
  | .warning cause => cause.message

def isWarning : Problem → Bool
  | .failure _ => false
  | .warning _ => true

def diagnostic (problem : Problem) : Diagnostic :=
  ⟨problem.code, problem.kind, problem.message, problem.isWarning⟩

end Problem

end ManifestScan
