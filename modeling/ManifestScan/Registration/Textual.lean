import ManifestScan.Plugin
import ManifestScan.Registration
import ManifestScan.Text.Block
import ManifestScan.Text.Bracket
import ManifestScan.Text.Name

namespace ManifestScan

namespace Registration

/-- How far the parenthesis behind `def name` lies from the `d`. -/
def signatureReach? (name : Bytes) (previous : Option UInt8) (rest : Bytes) : Option Nat :=
  match afterWord? (ascii "def") rest with
  | none => none
  | some behind =>
    let spaces := behind.takeWhile isSpace
    if Place.startsName previous ∧ !spaces.isEmpty then
      (Place.reach? spaces.getLast? name leftParen (behind.drop spaces.length)).map
        (3 + spaces.length + ·)
    else none

/-- The offset of the parenthesis behind the first `def name` of a text, wherever that stands. -/
def signatureStart? (name : Bytes) (previous : Option UInt8) (offset : Nat) : Bytes → Option Nat
  | [] => none
  | b :: rest =>
    match signatureReach? name previous (b :: rest) with
    | some reach => some (offset + reach)
    | none => signatureStart? name (some b) (offset + 1) rest

/-- The offset of the bracket in `keyword = [`, if the list starts at this place. -/
def listAt? (keyword : Bytes) (place : Place) : Option Nat :=
  match Place.reach? place.previous keyword equals place.rest with
  | none => none
  | some reach =>
    let behind := place.rest.drop (reach + 1)
    let gap := behind.takeWhile fun b => isSpace b || b == lineFeed || b == carriageReturn
    if behind.head? ≠ some equals ∧ behind[gap.length]? = some 0x5B then
      some (place.offset + reach + 1 + gap.length)
    else none

def listStart? (keyword body : Bytes) : Option Nat :=
  (codePlaces body 0).findSome? (listAt? keyword)

/-- The first constructor that is called at this place, and the offset of its parenthesis. -/
def constructorAt? (place : Place) : Option (Bytes × Nat) :=
  PluginKind.callees.findSome? fun callee => (place.find? callee leftParen).map (callee, ·)

/-- The registrations at the given places of a body, which lies at offset `base` of its source.
Those inside the call before end at offset `resume`. -/
def carve (body : Bytes) (base stop resume : Nat) : List Place → Except Failure (List Registration)
  | [] => .ok []
  | place :: others =>
    if stop ≤ place.offset then .ok []
    else if place.offset < resume then carve body base stop resume others
    else
      match constructorAt? place with
      | none => carve body base stop resume others
      | some (callee, paren) =>
        match (matching? body paren).filter (· ≤ stop) with
        | none => .error (.unclosedRegistration callee)
        | some close =>
          (carve body base stop (close + 1) others).map
            (⟨callee, base + place.offset, slice body place.offset (close + 1)⟩ :: ·)

def ofBody (convention : Convention) (base : Nat) (body : Bytes) :
    Except Failure (List Registration) :=
  match listStart? convention.list body with
  | none => .error (.noRegistrations convention.function)
  | some start =>
    match matching? body start with
    | none => .error (.unclosedList convention.list convention.function)
    | some stop =>
      match carve body base stop 0 (codePlaces body (start + 1)) with
      | .error failure => .error failure
      | .ok found => convention.nonempty found

/-- Takes in the registrations at the given places of a body one by one, as `carve` finds them. -/
def carveInto (convention : Convention) (body : Bytes) (base stop resume : Nat)
    (located : LocatedCalls) : List Place → LocatedCalls
  | [] => located.finish convention
  | place :: others =>
    if stop ≤ place.offset then located.finish convention
    else if place.offset < resume then carveInto convention body base stop resume located others
    else
      match constructorAt? place with
      | none => carveInto convention body base stop resume located others
      | some (callee, paren) =>
        match (matching? body paren).filter (· ≤ stop) with
        | none => located.clear.fail (.unclosedRegistration callee)
        | some close =>
          carveInto convention body base stop (close + 1)
            (located.push ⟨callee, base + place.offset, slice body place.offset (close + 1)⟩) others

def locateInBody (convention : Convention) (base : Nat) (body : Bytes) : LocatedCalls :=
  match listStart? convention.list body with
  | none => LocatedCalls.empty.fail (.noRegistrations convention.function)
  | some start =>
    match matching? body start with
    | none => LocatedCalls.empty.fail (.unclosedList convention.list convention.function)
    | some stop => carveInto convention body base stop 0 .empty (codePlaces body (start + 1))

end Registration

/-- The registrations of a source by its text alone, which need not be well formed elsewhere. -/
def Convention.searchText (convention : Convention) (source : Bytes) :
    Except Failure (List Registration) :=
  match Registration.signatureStart? convention.function none 0 source with
  | none => .error (.missingFunction convention.function)
  | some start =>
    match matching? source start with
    | none => .error (.unclosedSignature convention.function)
    | some close =>
      match outerPosition? colon (source.drop (close + 1)) with
      | none => .error (.missingColon convention.function)
      | some i =>
        let body := blockBody source (close + 1 + i)
        Registration.ofBody convention body.start (body.of source)

/-- What the search leaves as it goes through the text; `searchText` gives its outcome. -/
def Convention.locateText (convention : Convention) (source : Bytes) : LocatedCalls :=
  match Registration.signatureStart? convention.function none 0 source with
  | none => LocatedCalls.empty.fail (.missingFunction convention.function)
  | some start =>
    match matching? source start with
    | none => LocatedCalls.empty.fail (.unclosedSignature convention.function)
    | some close =>
      match outerPosition? colon (source.drop (close + 1)) with
      | none => LocatedCalls.empty.fail (.missingColon convention.function)
      | some i =>
        let body := blockBody source (close + 1 + i)
        Registration.locateInBody convention body.start (body.of source)

end ManifestScan
