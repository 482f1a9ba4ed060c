import ManifestScan.Text.Escape
import ManifestScan.UpgradeStep

namespace ManifestScan

/-- What the text of a document says. The members of an object keep their order. -/
inductive Document where
  | null
  | boolean (value : Bool)
  | number (value : Rat)
  | string (value : Bytes)
  | array (elements : List Document)
  | object (members : List (Bytes × Document))

namespace Document

def isGap (b : UInt8) : Bool := b == space || b == tab || b == lineFeed || b == carriageReturn

inductive Mark where
  | comma | colon | openArray | closeArray | openObject | closeObject
deriving DecidableEq

def Mark.ofByte? (b : UInt8) : Option Mark :=
  if b = ManifestScan.comma then some .comma
  else if b = ManifestScan.colon then some .colon
  else if b = 0x5B then some .openArray
  else if b = 0x5D then some .closeArray
  else if b = 0x7B then some .openObject
  else if b = 0x7D then some .closeObject
  else none

def isDelimiter (b : UInt8) : Bool := isGap b || (Mark.ofByte? b).isSome || b == doubleQuote

/-- A piece of a string: a byte, or a code unit that is written with four hexadecimal digits. -/
inductive Part where
  | byte (b : UInt8)
  | unit (n : Nat)

def hexValue? (b : UInt8) : Option Nat :=
  if isDigit b then some (b - 0x30).toNat
  else if 0x61 ≤ b ∧ b ≤ 0x66 then some (b - 0x57).toNat
  else if 0x41 ≤ b ∧ b ≤ 0x46 then some (b - 0x37).toNat
  else none

def unitOf? (digits : Bytes) : Option Nat :=
  digits.foldlM (fun n b => (hexValue? b).map (16 * n + ·)) 0

/-- The byte that a letter stands for behind a backslash. -/
def escaped? (b : UInt8) : Option UInt8 :=
  if b = backslash ∨ b = doubleQuote ∨ b = slash then some b
  else if b = 0x62 then some 0x08
  else if b = 0x66 then some formFeed
  else if b = 0x6E then some lineFeed
  else if b = 0x72 then some carriageReturn
  else if b = 0x74 then some tab
  else none

def withPart (part : Part) : List Part × Bytes → List Part × Bytes
  | (parts, rest) => (part :: parts, rest)

/-- The pieces up to the closing quote, and the text after it. No control byte may stand there. -/
def parts? : Bytes → Option (List Part × Bytes)
  | [] => none
  | b :: rest =>
    if b = doubleQuote then some ([], rest)
    else if b < 0x20 then none
    else if b = backslash then
      match rest with
      | [] => none
      | 0x75 :: d :: e :: f :: g :: rest =>
        (unitOf? [d, e, f, g]).bind fun n => (parts? rest).map (withPart (.unit n))
      | c :: rest => (escaped? c).bind fun b => (parts? rest).map (withPart (.byte b))
    else (parts? rest).map (withPart (.byte b))

def encode (n : Nat) : Bytes :=
  let last := fun n => (0x80 + n % 0x40).toUInt8
  if n < 0x80 then [n.toUInt8]
  else if n < 0x800 then [(0xC0 + n / 0x40).toUInt8, last n]
  else if n < 0x10000 then [(0xE0 + n / 0x1000).toUInt8, last (n / 0x40), last n]
  else [(0xF0 + n / 0x40000).toUInt8, last (n / 0x1000), last (n / 0x40), last n]

/-- The code point of two code units that stand for one. -/
def joined? (high low : Nat) : Option Nat :=
  if 0xD800 ≤ high ∧ high < 0xDC00 ∧ 0xDC00 ≤ low ∧ low < 0xE000 then
    some (0x10000 + 0x400 * (high - 0xD800) + (low - 0xDC00))
  else none

def bytesOf : List Part → Bytes
  | [] => []
  | .byte b :: parts => b :: bytesOf parts
  | .unit high :: .unit low :: parts =>
    match joined? high low with
    | some n => encode n ++ bytesOf parts
    | none => encode high ++ bytesOf (.unit low :: parts)
  | .unit n :: parts => encode n ++ bytesOf parts

def fraction? : Bytes → Option (Bytes × Bytes)
  | [] => some ([], [])
  | b :: rest =>
    if b ≠ dot then some ([], b :: rest)
    else if (rest.takeWhile isDigit).isEmpty then none
    else some (rest.takeWhile isDigit, rest.dropWhile isDigit)

def figures? (text : Bytes) : Option Nat :=
  if text.isEmpty || !text.all isDigit then none else some (UpgradeStep.numberOf text)

/-- The power of ten that ends a number, zero when there is none. -/
def exponent? : Bytes → Option Int
  | [] => some 0
  | e :: rest =>
    if e ≠ 0x65 ∧ e ≠ 0x45 then none
    else match rest with
      | 0x2D :: digits => (figures? digits).map fun n => -(n : Int)
      | 0x2B :: digits => (figures? digits).map fun n => (n : Int)
      | digits => (figures? digits).map fun n => (n : Int)

def unsigned? (text : Bytes) : Option Rat :=
  let whole := text.takeWhile isDigit
  if whole.isEmpty || (whole.head? == some 0x30 && 1 < whole.length) then none
  else
    (fraction? (text.dropWhile isDigit)).bind fun (fraction, rest) =>
      (exponent? rest).map fun exponent =>
        (UpgradeStep.numberOf (whole ++ fraction) : Rat) * 10 ^ (exponent - (fraction.length : Int))

def number? (text : Bytes) : Option Rat :=
  match text with
  | 0x2D :: rest => (unsigned? rest).map (- ·)
  | _ => unsigned? text

def bareValue? (text : Bytes) : Option Document :=
  if text = ascii "null" then some .null
  else if text = ascii "true" then some (.boolean true)
  else if text = ascii "false" then some (.boolean false)
  else (number? text).map .number

inductive Token where
  | mark (mark : Mark)
  | text (value : Bytes)
  | bare (value : Document)

def token? (b : UInt8) (rest : Bytes) : Option (Token × Bytes) :=
  match Mark.ofByte? b with
  | some mark => some (.mark mark, rest)
  | none =>
    if b = doubleQuote then (parts? rest).map fun (parts, rest) => (.text (bytesOf parts), rest)
    else
      (bareValue? (b :: rest.takeWhile (!isDelimiter ·))).map fun value =>
        (.bare value, rest.dropWhile (!isDelimiter ·))

/-- An array or an object that is not closed yet, with what it holds so far. -/
inductive Frame where
  | array (elements : List Document)
  | object (members : List (Bytes × Document)) (key : Bytes)

inductive State where
  | value (frames : List Frame)
  | key (members : List (Bytes × Document)) (frames : List Frame)
  | colon (members : List (Bytes × Document)) (key : Bytes) (frames : List Frame)
  | elements (elements : List Document) (frames : List Frame)
  | members (members : List (Bytes × Document)) (frames : List Frame)
  | done (value : Document)

def finish (value : Document) : List Frame → State
  | [] => .done value
  | .array elements :: frames => .elements (elements ++ [value]) frames
  | .object members key :: frames => .members (members ++ [(key, value)]) frames

/-- A bracket may close only in front of the first element or member, and behind one. -/
def step : State → Token → Option State
  | .value frames, .bare value => some (finish value frames)
  | .value frames, .text text => some (finish (.string text) frames)
  | .value frames, .mark .openArray => some (.value (.array [] :: frames))
  | .value frames, .mark .openObject => some (.key [] frames)
  | .value (.array [] :: frames), .mark .closeArray => some (finish (.array []) frames)
  | .key members frames, .text key => some (.colon members key frames)
  | .key [] frames, .mark .closeObject => some (finish (.object []) frames)
  | .colon members key frames, .mark .colon => some (.value (.object members key :: frames))
  | .elements elements frames, .mark .comma => some (.value (.array elements :: frames))
  | .elements elements frames, .mark .closeArray => some (finish (.array elements) frames)
  | .members members frames, .mark .comma => some (.key members frames)
  | .members members frames, .mark .closeObject => some (finish (.object members) frames)
  | _, _ => none

theorem length_parts? {text rest : Bytes} {parts : List Part}
    (h : parts? text = some (parts, rest)) :
    rest.length < text.length := by
  fun_induction parts? text generalizing parts rest with
  | case1 => cases h
  | case2 => simp_all
  | case3 => cases h
  | case4 => cases h
  | case5 d e f g text hq hc ih =>
    simp only [Option.bind_eq_some_iff, Option.map_eq_some_iff] at h
    obtain ⟨n, hn, ⟨found, last⟩, hf, hw⟩ := h
    cases hw
    have := ih hf
    simp only [List.length_cons]
    omega
  | case6 c text hu hq hc ih =>
    simp only [Option.bind_eq_some_iff, Option.map_eq_some_iff] at h
    obtain ⟨n, hn, ⟨found, last⟩, hf, hw⟩ := h
    cases hw
    have := ih hf
    simp only [List.length_cons]
    omega
  | case7 b text hq hc he ih =>
    simp only [Option.map_eq_some_iff] at h
    obtain ⟨⟨found, last⟩, hf, hw⟩ := h
    cases hw
    have := ih hf
    simp only [List.length_cons]
    omega

theorem length_token? {b : UInt8} {text rest : Bytes} {token : Token}
    (h : token? b text = some (token, rest)) : rest.length ≤ text.length := by
  unfold token? at h
  split at h
  · cases h
    exact Nat.le_refl _
  · split at h
    · simp only [Option.map_eq_some_iff] at h
      obtain ⟨⟨parts, last⟩, hp, hw⟩ := h
      cases hw
      exact Nat.le_of_lt (length_parts? hp)
    · simp only [Option.map_eq_some_iff] at h
      obtain ⟨value, hv, hw⟩ := h
      cases hw
      exact (List.dropWhile_suffix _).length_le

/-- What a reader that stands in a state makes of the text in front of it. -/
def run (state : State) : Bytes → Option Document
  | [] =>
    match state with
    | .done value => some value
    | _ => none
  | b :: rest =>
    if isGap b then run state rest
    else
      match _h : token? b rest with
      | none => none
      | some (token, others) => (step state token).bind fun state => run state others
termination_by text => text.length
decreasing_by
  · simp
  · have := length_token? _h
    simp only [List.length_cons]
    omega

def read? (text : Bytes) : Option Document := run (.value []) text

end Document

end ManifestScan
