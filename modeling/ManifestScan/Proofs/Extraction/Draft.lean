import ManifestScan.Manifest.Draft

namespace ManifestScan

namespace Value

def target? : Value → Option Callable
  | .callable target => some target
  | _ => none

def text? : Value → Option Bytes
  | .string text => some text
  | _ => none

def flag? : Value → Option Bool
  | .boolean flag => some flag
  | _ => none

/-- The steps of a value; an empty list is one of steps. -/
def steps? : Value → Option (List UpgradeStep)
  | .emptyArray => some []
  | .steps list => some list
  | _ => none

end Value

namespace Draft

/-- Whether a field takes a value. A null value is taken where the field may be left out. -/
def Field.accepts (field : Field) (value : Value) : Bool :=
  match field with
  | .name => value.text?.any (!·.isEmpty)
  | .callable => value.target?.isSome
  | .config => value == .null || value.target?.isSome
  | .callMethod | .ioType | .description => value == .null || value.text?.isSome
  | .requiresStore => value == .null || value.flag?.isSome
  | .upgradeSteps => value == .null || value.steps?.isSome
  | .versionStrategy | .versionReader => true

/-- The callable is set once; any other field can be set again. -/
def isFree (draft : Draft) (field : Field) : Bool :=
  match field with
  | .callable => draft.callable.isNone
  | _ => true

def update (draft : Draft) (value : Value) (field : Field) : Draft :=
  match field with
  | .name => { draft with name := value.text?.or draft.name }
  | .callable => { draft with callable := value.target?.or draft.callable }
  | .config => { draft with config := value.target?.or draft.config }
  | .callMethod => { draft with callMethod := value.text?.or draft.callMethod }
  | .ioType => { draft with ioType := value.text?.or draft.ioType }
  | .requiresStore => { draft with requiresStore := value.flag?.or draft.requiresStore }
  | .versionStrategy => { draft with versionStrategy := some value }
  | .versionReader => { draft with versionReader := some value }
  | .upgradeSteps => { draft with upgradeSteps := value.steps?.or draft.upgradeSteps }
  | .description => { draft with description := value.text?.or draft.description }

def put? (draft : Draft) (value : Value) (field : Field) : Option Draft :=
  if field.accepts value && draft.isFree field then some (draft.update value field) else none

variable {draft : Draft} {field other : Field}

/-- What becomes of a draft hangs on the field and the value alone. -/
theorem toOption_set (draft : Draft) (argument : KeywordArgument) (value : Value) (field : Field) :
    (draft.set argument value field).toOption = draft.put? value field := by
  cases field with
  | name =>
    cases value with
    | string text => cases text <;> rfl
    | _ => rfl
  | callable =>
    unfold set put? isFree
    cases hc : draft.callable with
    | some target => cases value <;> rfl
    | none =>
      cases value <;> rw [Field.accepts, update, hc] <;> rfl
  | _ => cases value <;> rfl

theorem eq_update_of_set {next : Draft} {argument : KeywordArgument} {value : Value}
    (h : draft.set argument value field = .ok next) : next = draft.update value field := by
  have hs := toOption_set draft argument value field
  rw [h] at hs
  exact Option.some.inj (Option.some_eq_ite_none_right.1 hs).2

/-- Another field stays free. -/
theorem isFree_update (h : field ≠ other) (draft : Draft) (value : Value) :
    (draft.update value field).isFree other = draft.isFree other := by
  cases other with
  | callable =>
    cases field with
    | callable => exact absurd rfl h
    | _ => rfl
  | _ => rfl

/-- Two fields are set in either order. -/
theorem update_comm (h : field ≠ other) (draft : Draft) (value value' : Value) :
    (draft.update value field).update value' other =
      (draft.update value' other).update value field := by
  cases field <;> cases other <;> first
    | rfl
    | exact absurd rfl h

theorem put?_comm (h : field ≠ other) (draft : Draft) (value value' : Value) :
    ((draft.put? value field).bind fun next => next.put? value' other) =
      (draft.put? value' other).bind fun next => next.put? value field := by
  have hf := isFree_update h draft value
  have ho := isFree_update h.symm draft value'
  unfold put?
  by_cases hv : (field.accepts value && draft.isFree field) = true
  · by_cases hv' : (other.accepts value' && draft.isFree other) = true
    · rw [if_pos hv, if_pos hv', Option.bind_some, Option.bind_some, hf, ho, if_pos hv', if_pos hv,
        update_comm h]
    · rw [if_pos hv, if_neg hv', Option.bind_some, Option.bind_none, hf, if_neg hv']
  · by_cases hv' : (other.accepts value' && draft.isFree other) = true
    · rw [if_neg hv, if_pos hv', Option.bind_some, Option.bind_none, ho, if_neg hv]
    · rw [if_neg hv, if_neg hv', Option.bind_none, Option.bind_none]

end Draft

end ManifestScan
