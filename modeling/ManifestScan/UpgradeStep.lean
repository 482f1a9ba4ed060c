import ManifestScan.Problem
import ManifestScan.Signature

namespace ManifestScan

namespace UpgradeKind

/-- Reads the last part of a dotted name or a quoted name, in any case of letters. -/
def ofText (text : Bytes) : UpgradeKind :=
  let part := ((splitLast? dot text).map (·.2)).getD text
  let name := (Literal.unquote (trim part)).map toUpper
  if name = ascii "FILE" then .file
  else if name = ascii "SYSTEM" then .system
  else .unknown

end UpgradeKind

namespace UpgradeStep

def numberOf (digits : Bytes) : Nat :=
  digits.foldl (fun n b => 10 * n + (b - 0x30).toNat) 0

/-- The least number that no signed word of 64 bits holds. -/
def wordBound : Int := 0x8000000000000000

/-- Reads decimal digits behind an optional minus sign, if a signed word of 64 bits
holds the number. -/
def priorityOf? (text : Bytes) : Option Int :=
  let negative := text.head? == some 0x2D
  let digits := if negative then text.tail else text
  let n : Int := numberOf digits
  if digits.isEmpty ∨ !digits.all isDigit then none
  else if negative then if n ≤ wordBound then some (-n) else none
  else if n < wordBound then some n else none

def plain (function : Bytes) : UpgradeStep :=
  ⟨function, ⟨[], function, .function, none, []⟩, ascii "unknown", .file, 100, none, none⟩

structure Draft where
  step : UpgradeStep
  warnings : List Warning

def Draft.set (draft : Draft) (key value : Bytes) : Draft :=
  let step := draft.step
  if key = ascii "target_version" then
    { draft with step := { step with target := Literal.unquote value } }
  else if key = ascii "upgrade_type" then
    { draft with step := { step with kind := .ofText value } }
  else if key = ascii "priority" then
    match priorityOf? value with
    | some priority => { draft with step := { step with priority := priority } }
    | none =>
      { draft with
        warnings := draft.warnings ++ [.invalidPriority value step.name step.priority] }
  else if key = ascii "min_version" then
    { draft with step := { step with minVersion := some (Literal.unquote value) } }
  else if key = ascii "max_version" then
    { draft with step := { step with maxVersion := some (Literal.unquote value) } }
  else draft

/-- Takes in one argument; what is no assignment counts for nothing. -/
def Draft.add (draft : Draft) (argument : Bytes) : Draft :=
  match assignment? argument with
  | none => draft
  | some i => draft.set (trim (argument.take i)) (trim (argument.drop (i + 1)))

def ofArguments (function text : Bytes) : Draft :=
  ((outerFields comma (dropComments text)).map trim).foldl Draft.add ⟨plain function, []⟩

def registration : Bytes := ascii ".register_step"

/-- The text in front of which a decorator of the class starts its arguments. -/
def mark (className : Bytes) : Bytes := 0x40 :: className ++ registration

def argumentsOf? (className decorator : Bytes) : Option Bytes :=
  match afterWord? (mark className) decorator with
  | none => none
  | some rest =>
    let rest := rest.dropWhile isSpace
    if rest.head? = some leftParen then
      (matching? rest 0).map fun close => slice rest 1 close
    else none

def ofDecorator? (source module className : Bytes) (function : Definition)
    (decorator : Decorator) : Option Draft :=
  (argumentsOf? className decorator.text).map fun arguments =>
    let draft := ofArguments function.name arguments
    let signature := Signature.ofFunction source function
    { draft with
      step := { draft.step with
        function := { draft.step.function with
          module := module
          parameters := signature.parameters
          returns := signature.returns } } }

end UpgradeStep

structure StepList where
  steps : List UpgradeStep
  warnings : List Warning

namespace StepList

def empty : StepList := ⟨[], []⟩

def append (first second : StepList) : StepList :=
  ⟨first.steps ++ second.steps, first.warnings ++ second.warnings⟩

def ofModule (source className module : Bytes) : StepList :=
  let script := Script.ofSource source
  let drafts := (Definition.decoratedIn script.outline.definitions).flatMap fun function =>
    function.decorators.filterMap (UpgradeStep.ofDecorator? source module className function)
  ⟨drafts.map (·.step),
    (script.firstFault?.map (Warning.brokenModule module)).toList ++
      drafts.flatMap (·.warnings)⟩

end StepList

end ManifestScan
