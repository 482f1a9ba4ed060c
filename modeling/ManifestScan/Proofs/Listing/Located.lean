import ManifestScan.Registration.Textual
import ManifestScan.Registration.Tree

namespace ManifestScan

namespace LocatedCalls

/-- What the outcome of a search looks like with the error beside the calls. -/
def of : Except Failure (List Registration) → LocatedCalls
  | .ok found => ⟨found, none⟩
  | .error failure => ⟨[], some failure.diagnostic⟩

theorem finish_eq (convention : Convention) (found : List Registration) :
    finish convention ⟨found, none⟩ = of (convention.nonempty found) := by
  cases found <;> rfl

variable {found : Except Failure (List Registration)}

theorem error_of_eq_none_iff : (of found).error = none ↔ ∃ calls, found = .ok calls := by
  cases found with
  | ok found => exact ⟨fun _ => ⟨found, rfl⟩, fun _ => rfl⟩
  | error failure => exact ⟨nofun, fun ⟨_, h⟩ => nomatch h⟩

end LocatedCalls

namespace Registration

open LocatedCalls

/-- A registration that is pushed stands in front of those found later. -/
theorem bind_push (front : List Registration) (registration : Registration)
    (later : Except Failure (List Registration))
    (next : List Registration → Except Failure (List Registration)) :
    (later.bind fun found => next (front ++ [registration] ++ found)) =
      (later.map (registration :: ·)).bind fun found => next (front ++ found) := by
  cases later with
  | error failure => rfl
  | ok found => exact congrArg next (List.append_assoc front [registration] found)

/-- The calls so far are lost with an error, and stand in front of all others without one. -/
theorem collect_eq (convention : Convention) (source : Bytes) (faults : List Fault)
    (front : List Registration) (calls : List Call) :
    collect convention source faults ⟨front, none⟩ calls =
      of ((calls.mapM (ofCall source)).bind fun found =>
        match faults with
        | fault :: _ => .error (.brokenSource fault)
        | [] => convention.nonempty (front ++ found)) := by
  induction calls generalizing front with
  | nil =>
    have hfront : front ++ [] = front := List.append_nil front
    cases faults with
    | nil =>
      rw [collect, finish_eq]
      exact congrArg (fun found => of (convention.nonempty found)) hfront.symm
    | cons fault faults => rfl
  | cons call calls ih =>
    rw [collect, List.mapM_cons, ofCall]
    split
    · rw [push, ih]
      cases faults with
      | nil => exact congrArg of (bind_push front _ (calls.mapM _) convention.nonempty)
      | cons fault faults =>
        exact congrArg of (bind_push front _ (calls.mapM _) fun _ => .error (.brokenSource fault))
    · rfl

theorem carveInto_eq (convention : Convention) (body : Bytes) (base stop resume : Nat)
    (front : List Registration) (places : List Place) :
    carveInto convention body base stop resume ⟨front, none⟩ places =
      of ((carve body base stop resume places).bind fun found =>
        convention.nonempty (front ++ found)) := by
  have hend (front : List Registration) :
      finish convention ⟨front, none⟩ = of (convention.nonempty (front ++ [])) := by
    rw [finish_eq, List.append_nil]
  induction places generalizing resume front with
  | nil => exact hend front
  | cons place others ih =>
    rw [carveInto, carve]
    split
    · exact hend front
    split
    · exact ih resume front
    split
    · exact ih resume front
    rename_i callee paren _
    split
    · rfl
    · rw [push, ih]
      exact congrArg of (bind_push front _ _ convention.nonempty)

end Registration

namespace Convention

open LocatedCalls

/-- The search of the outline loses every call to an error, and ends without one only with calls. -/
theorem locateTree_eq (convention : Convention) (source : Bytes) :
    convention.locateTree source = of (convention.searchTree source) := by
  unfold locateTree searchTree
  dsimp only
  split
  · rfl
  · rw [empty, Registration.collect_eq, Registration.ofFunction]
    cases (Call.matchesIn PluginKind.callees _).mapM (Registration.ofCall source) with
    | error failure => rfl
    | ok found => rfl
  · split <;> rfl

/-- So does the search of the text. -/
theorem locateText_eq (convention : Convention) (source : Bytes) :
    convention.locateText source = of (convention.searchText source) := by
  unfold locateText searchText
  split
  · rfl
  split
  · rfl
  split
  · rfl
  dsimp only
  rw [Registration.locateInBody, Registration.ofBody]
  split
  · rfl
  split
  · rfl
  rw [empty, Registration.carveInto_eq]
  cases Registration.carve _ _ _ _ _ with
  | error failure => rfl
  | ok found => rfl

end Convention

end ManifestScan
