import ManifestScan.Text.Basic

namespace ManifestScan

/-- A path by its text. It is absolute when it starts with a slash, and names a directory when it
ends with one. -/
abbrev FilePath := Bytes

namespace FilePath

def isAbsolute (path : FilePath) : Bool := path.head? == some slash

def names (path : FilePath) : List Bytes := (fields slash path).filter (!·.isEmpty)

def fileName (path : FilePath) : Bytes := ((splitLast? slash path).map (·.2)).getD path

/-- The names, behind a slash for an absolute path, and an empty one where a slash ends it. -/
def parts (path : FilePath) : List Bytes :=
  (if isAbsolute path then [[slash]] else []) ++ names path ++
    (if (fileName path).isEmpty ∧ !(names path).isEmpty then [[]] else [])

def join (path other : FilePath) : FilePath :=
  if isAbsolute other ∨ path.isEmpty then other
  else if path.getLast? = some slash then path ++ other
  else path ++ slash :: other

def dropTrailing (path : FilePath) : FilePath :=
  (path.reverse.dropWhile (· == slash)).reverse

/-- The text in front of the last part and its slashes. A path without names is its own parent. -/
def parent (path : FilePath) : FilePath :=
  if (names path).isEmpty then path
  else
    match splitLast? slash path with
    | none => []
    | some (front, _) =>
      let front := dropTrailing front
      if front.isEmpty ∧ isAbsolute path then [slash] else front

/-- A file name without its extension, and the extension with its dot. A dot at the start of the
name starts no extension. -/
def splitExtension (name : Bytes) : Bytes × Bytes :=
  if name = [dot, dot] then (name, [])
  else
    match splitLast? dot name with
    | none => (name, [])
    | some (stem, rest) => if stem.isEmpty then (name, []) else (stem, dot :: rest)

def extension (path : FilePath) : Bytes := (splitExtension (fileName path)).2

def dropExtension (path : FilePath) : FilePath :=
  path.take (path.length - (extension path).length)

/-- A path on its way to its normal form: its names, last first, and whether a slash ends it. -/
structure Trail where
  names : List Bytes
  slashed : Bool
deriving DecidableEq, Repr

namespace Trail

def push (trail : Trail) (name : Bytes) : Trail := ⟨name :: trail.names, false⟩

/-- One level up. Above the root there is nothing, and above a relative path only `..`. -/
def up (rooted : Bool) (trail : Trail) : Trail :=
  match trail.names with
  | [] => if rooted then trail else trail.push [dot, dot]
  | last :: names =>
    if last = [dot, dot] then trail.push [dot, dot] else ⟨names, !names.isEmpty⟩

def add (rooted : Bool) (trail : Trail) (part : Bytes) : Trail :=
  if part = [dot, dot] then trail.up rooted
  else if part.isEmpty ∨ part = [dot] then ⟨trail.names, !trail.names.isEmpty⟩
  else trail.push part

def render (rooted : Bool) (trail : Trail) : FilePath :=
  let tail := if trail.slashed ∧ trail.names.head? ≠ some [dot, dot] then [slash] else []
  if trail.names.isEmpty then if rooted then [slash] else [dot]
  else (if rooted then [slash] else []) ++ joinWith [slash] trail.names.reverse ++ tail

end Trail

/-- The shortest spelling of a path that only its text decides: no empty part, no `.`, and `..`
only at the start. -/
def normal (path : FilePath) : FilePath :=
  if path.isEmpty then []
  else
    let rooted := isAbsolute path
    let body := if rooted then (parts path).drop 1 else parts path
    (body.foldl (Trail.add rooted) ⟨[], false⟩).render rooted

def joinAll (path : FilePath) (others : List FilePath) : FilePath := others.foldl join path

def dropCommon : List Bytes → List Bytes → List Bytes × List Bytes
  | a :: s, b :: t => if a = b then dropCommon s t else (a :: s, b :: t)
  | s, t => (s, t)

/-- How many levels lie below a base; each `..` takes one back. -/
def levels (parts : List Bytes) : Int :=
  parts.foldl (fun n part =>
    if part = [dot, dot] then n - 1 else if part.isEmpty ∨ part = [dot] then n else n + 1) 0

/-- The path seen from `base`, by their texts alone. Nothing when only one of them is absolute, or
when `base` leads above its own start. -/
def relativeTo (path base : FilePath) : FilePath :=
  if isAbsolute path ≠ isAbsolute base then []
  else
    let (above, below) := dropCommon (parts path) (parts base)
    if above.isEmpty ∧ below.isEmpty then [dot]
    else if levels below = 0 ∧ (above.isEmpty ∨ above.head? = some []) then [dot]
    else if levels below < 0 then []
    else joinAll (joinAll [] (List.replicate (levels below).toNat [dot, dot])) above

end FilePath

end ManifestScan
