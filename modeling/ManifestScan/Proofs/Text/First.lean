import Mathlib.Order.Bounds.Basic

namespace ManifestScan

/-- What a search for the least number with a property finds. -/
def IsFirst (p : Nat → Prop) : Option Nat → Prop
  | none => ∀ i, ¬p i
  | some i => IsLeast {i | p i} i

variable {p q : Nat → Prop} {found : Option Nat} {n i : Nat}

/-- The least number with a property moves with all the others. -/
theorem isLeast_shift (h : ∀ j, p j ↔ ∃ k, j = k + n ∧ q k) (hi : IsLeast {i | q i} i) :
    IsLeast {i | p i} (i + n) := by
  constructor
  · exact (h _).2 ⟨i, rfl, hi.1⟩
  · intro j hj
    obtain ⟨k, rfl, hk⟩ := (h j).1 hj
    exact Nat.add_le_add_right (hi.2 hk) n

namespace IsFirst

theorem zero (h : p 0) : IsFirst p (some 0) := ⟨h, fun i _ => Nat.zero_le i⟩

theorem eq_some_iff (h : IsFirst p found) : found = some i ↔ IsLeast {i | p i} i := by
  constructor
  · rintro rfl
    exact h
  · intro hi
    cases found with
    | none => exact absurd hi.1 (h i)
    | some j => exact congrArg some (IsLeast.unique h hi)

theorem eq_none_iff (h : IsFirst p found) : found = none ↔ ∀ i, ¬p i := by
  constructor
  · rintro rfl
    exact h
  · intro hn
    cases found with
    | none => rfl
    | some i => exact absurd h.1 (hn i)

/-- Where no number below `n` has the property, the search may start at `n`. -/
theorem shift (h : ∀ j, p j ↔ ∃ k, j = k + n ∧ q k) (hf : IsFirst q found) :
    IsFirst p (found.map (· + n)) := by
  cases found with
  | none =>
    intro j hj
    obtain ⟨k, -, hk⟩ := (h j).1 hj
    exact hf k hk
  | some i => exact isLeast_shift h hf

end IsFirst

end ManifestScan
