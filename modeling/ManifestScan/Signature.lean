import ManifestScan.Outline.Parser
import ManifestScan.Outline.Query
import ManifestScan.Signature.Parameter

namespace ManifestScan

structure Signature where
  parameters : List Parameter
  returns : Option Bytes
deriving DecidableEq, Repr

namespace Signature

def ofFunction (source : Bytes) (definition : Definition) : Signature :=
  let text := ((definition.parameters.map (·.of source)).getD [])
  if text.head? = some leftParen ∧ 1 < text.length ∧ text.getLast? = some rightParen then
    ⟨Parameter.listOf (slice text 1 (text.length - 1)), definition.returns⟩
  else ⟨[], definition.returns⟩

/-- The column of the first line with content. -/
def baseColumn (body : Bytes) : Nat := ((lines body).find? (!isIdleLine ·)).elim 0 indentation

def statements (column : Nat) (body : Bytes) : List Bytes :=
  if _h : body = [] then []
  else
    let line := body.takeWhile (· != lineFeed)
    if isIdleLine line || indentation line != column then
      statements column (body.drop (line.length + 1))
    else
      let width := Parameter.statementLength 0 (pieces body)
      body.take width :: statements column (body.drop (width + 1))
termination_by body.length
decreasing_by
  all_goals
    have := List.length_pos_iff.2 _h
    simp only [List.length_drop]
    omega

def fieldsOf (body : Bytes) : List Parameter :=
  ((statements (baseColumn body) body).filterMap Parameter.fieldOf?).foldl Parameter.addTo []

/-- The signature of a class: its `__init__`, or its typed fields. -/
def ofClass (source : Bytes) (definition : Definition) : Signature :=
  match definition.definitions.find? fun member =>
      member.kind == .function && member.name == ascii "__init__" with
  | some constructor => ⟨(ofFunction source constructor).parameters, none⟩
  | none =>
    match definition.body with
    | none => ⟨[], none⟩
    | some start => ⟨fieldsOf (slice source start definition.extent.stop), none⟩

/-- The signature of the first definition of that name, one of the given kind coming first. -/
def find? (source name : Bytes) (kind : CallableKind) : Option Signature :=
  let outline := (Script.ofSource source).outline
  let found := (outline.find? kind name).or (outline.find? kind.other name)
  found.map fun definition =>
    match definition.kind with
    | .type => ofClass source definition
    | .function => ofFunction source definition

end Signature

end ManifestScan
