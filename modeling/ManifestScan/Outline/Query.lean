import ManifestScan.Outline

namespace ManifestScan

mutual

/-- The first definition of that kind and name, a definition coming before those in its body. -/
def Definition.find? (kind : CallableKind) (name : Bytes) (definition : Definition) :
    Option Definition :=
  if definition.kind = kind ∧ definition.name = name then some definition
  else
    match definition with
    | ⟨_, _, _, _, _, _, _, _, _, members⟩ => Definition.findIn? kind name members

def Definition.findIn? (kind : CallableKind) (name : Bytes) : List Definition → Option Definition
  | [] => none
  | definition :: others =>
    match Definition.find? kind name definition with
    | some found => some found
    | none => Definition.findIn? kind name others

end

def Outline.find? (outline : Outline) (kind : CallableKind) (name : Bytes) : Option Definition :=
  Definition.findIn? kind name outline.definitions

mutual

/-- The outermost calls whose callee is one of `callees`. -/
def Call.matches (callees : List Bytes) (call : Call) : List Call :=
  if callees.contains call.callee then [call]
  else
    match call with
    | ⟨_, _, _, _, nested⟩ => Call.matchesIn callees nested

def Call.matchesIn (callees : List Bytes) : List Call → List Call
  | [] => []
  | call :: others => Call.matches callees call ++ Call.matchesIn callees others

end

mutual

/-- The functions with decorators, each before those in its body. -/
def Definition.decorated : Definition → List Definition
  | definition@⟨kind, _, decorators, _, _, _, _, _, _, members⟩ =>
    (if kind = .function ∧ !decorators.isEmpty then [definition] else []) ++
      Definition.decoratedIn members

def Definition.decoratedIn : List Definition → List Definition
  | [] => []
  | definition :: others => Definition.decorated definition ++ Definition.decoratedIn others

end

end ManifestScan
