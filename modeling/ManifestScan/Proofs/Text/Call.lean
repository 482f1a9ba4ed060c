import ManifestScan.Proofs.Text.Scan
import ManifestScan.Registration.Textual

namespace ManifestScan

/-- Two texts that differ before either ends. -/
def differs (word text : Bytes) : Bool := (word.zip text).any fun (a, b) => a != b

theorem afterWord?_of_differs {word text : Bytes} (h : differs word text = true) (rest : Bytes) :
    afterWord? word (text ++ rest) = none := by
  induction word generalizing text with
  | nil => cases h
  | cons w word ih =>
    cases text with
    | nil => cases h
    | cons b text =>
      rw [List.cons_append, afterWord?]
      split
      · rename_i hb
        apply ih
        simpa [differs, hb] using h
      · rfl

/-- No constructor starts with the name of another one. -/
theorem callees_apart : ∀ callee ∈ PluginKind.callees, ∀ other ∈ PluginKind.callees,
    other ≠ callee → differs other callee = true := by
  decide +kernel

namespace Place

theorem reach?_of_none {word rest : Bytes} (h : afterWord? word rest = none)
    (previous : Option UInt8) (next : UInt8) : reach? previous word next rest = none := by
  rw [reach?, h]

/-- A word right in front of the byte. -/
theorem reach?_self {previous : Option UInt8} (hp : startsName previous = true) (word : Bytes)
    {next : UInt8} (hn : isNameByte next = false) (hs : isSpace next = false) (rest : Bytes) :
    reach? previous word next (word ++ next :: rest) = some word.length := by
  rw [reach?, afterWord?_self]
  have ht : (next :: rest).takeWhile isSpace = [] := List.takeWhile_cons_of_neg (by simp [hs])
  dsimp only
  rw [ht, if_pos ⟨hp, by simp [hn], rfl⟩]
  rfl

end Place

namespace Registration

/-- A constructor is found where it is called. -/
theorem constructorAt?_call {callee : Bytes} (hc : callee ∈ PluginKind.callees)
    {previous : Option UInt8} (hp : Place.startsName previous = true) (offset : Nat)
    (rest : Bytes) :
    constructorAt? ⟨previous, offset, callee ++ leftParen :: rest⟩ =
      some (callee, offset + callee.length) := by
  have hfind : ∀ other ∈ PluginKind.callees,
      (Place.find? ⟨previous, offset, callee ++ leftParen :: rest⟩ other leftParen).map (other, ·) =
        if other = callee then some (callee, offset + callee.length) else none := by
    intro other ho
    unfold Place.find?
    dsimp only
    split
    · rename_i he
      rw [he, Place.reach?_self hp callee (by decide) (by decide)]
      rfl
    · rename_i hn
      rw [Place.reach?_of_none (afterWord?_of_differs (callees_apart callee hc other ho hn) _)]
      rfl
  unfold constructorAt?
  -- The table is searched in its order, and only the callee itself is found.
  generalize PluginKind.callees = callees at hc hfind
  induction callees with
  | nil => cases hc
  | cons other callees ih =>
    rw [List.findSome?_cons, hfind other (by simp)]
    by_cases he : other = callee
    · rw [if_pos he]
    · rw [if_neg he]
      have hm := (List.mem_cons.1 hc).resolve_left fun h => he h.symm
      exact ih hm fun more hmore => hfind more (by simp [hmore])

/-- No constructor starts with one of the bytes that part calls. -/
theorem constructorAt?_none {place : Place} {b : UInt8} (hb : isLetter b = false)
    (hr : place.rest.head? = some b) : constructorAt? place = none := by
  have hh : ∀ callee ∈ PluginKind.callees, callee.head?.any isLetter = true := by decide
  unfold constructorAt?
  rw [List.findSome?_eq_none_iff]
  intro callee hc
  have hl := hh callee hc
  unfold Place.find?
  rw [Place.reach?_of_none]
  · rfl
  · cases callee with
    | nil => cases hl
    | cons c callee =>
      cases hx : place.rest with
      | nil => rfl
      | cons d rest =>
        rw [hx] at hr
        cases hr
        rw [afterWord?, if_neg]
        rintro rfl
        simp [hb] at hl

/-- Places that cannot start a registration are passed. -/
theorem carve_append {body : Bytes} {base stop resume : Nat} {places : List Place}
    (h : ∀ place ∈ places, place.offset < stop ∧
      (place.offset < resume ∨ constructorAt? place = none)) (more : List Place) :
    carve body base stop resume (places ++ more) = carve body base stop resume more := by
  induction places with
  | nil => rfl
  | cons place places ih =>
    obtain ⟨hs, hr⟩ := h place (by simp)
    rw [List.cons_append, carve, if_neg (Nat.not_le.2 hs),
      ih fun other ho => h other (by simp [ho])]
    split
    · rfl
    · rename_i hn
      rw [hr.resolve_left hn]

theorem carve_stop {body : Bytes} {base stop resume : Nat} {place : Place} (h : stop ≤ place.offset)
    (more : List Place) : carve body base stop resume (place :: more) = .ok [] := by
  rw [carve, if_pos h]

end Registration

/-- The places of bytes start with those bytes. -/
theorem Place.head?_ofPieces_bytes {text : Bytes} (previous : Option UInt8) (offset : Nat)
    (rest : Bytes) : ∀ place ∈ ofPieces previous offset (text ++ rest) (text.map .byte),
      ∃ b ∈ text, place.rest.head? = some b := by
  intro place hm
  obtain ⟨b, hb, hr⟩ := head?_ofPieces (Piece.Cover.bytes text).text_eq _ _ _ place hm
  exact ⟨b, by simpa using hb, hr⟩

end ManifestScan
