import ManifestScan.Proofs.Document.Default
import ManifestScan.Proofs.Document.Tree

namespace ManifestScan.Document

/-- No object in the document has a key twice. -/
inductive Distinct : Document → Prop
  | scalar {document : Document} (h : document.isScalar = true) : Distinct document
  | array {elements : List Document} (h : ∀ element ∈ elements, Distinct element) :
    Distinct (.array elements)
  | object {members : List (Bytes × Document)} (hk : (members.map (·.1)).Nodup)
    (h : ∀ member ∈ members, Distinct member.2) : Distinct (.object members)

theorem distinct_map {α : Type} {list : List α} {tree : α → Document}
    (h : ∀ a ∈ list, (tree a).Distinct) : (Document.array (list.map tree)).Distinct := by
  refine .array fun element he => ?_
  obtain ⟨a, ha, rfl⟩ := List.mem_map.1 he
  exact h a ha

/-- Members whose keys are some of the given ones, in their order. -/
structure RecordDistinct (entries : List (String × Document)) (keys : List String) : Prop where
  keys : (entries.map (·.1)).Sublist keys
  values : ∀ entry ∈ entries, entry.2.Distinct

namespace RecordDistinct

variable {entries others : List (String × Document)} {keys more : List String} {value : Document}

theorem single (key : String) (h : value.Distinct) : RecordDistinct [(key, value)] [key] :=
  ⟨List.Sublist.refl _, List.forall_mem_singleton.2 h⟩

theorem append (h : RecordDistinct entries keys) (h' : RecordDistinct others more) :
    RecordDistinct (entries ++ others) (keys ++ more) := by
  refine ⟨?_, fun entry he => (List.mem_append.1 he).elim (h.values entry) (h'.values entry)⟩
  rw [List.map_append]
  exact h.keys.append h'.keys

theorem cons (key : String) (h : value.Distinct) (h' : RecordDistinct others more) :
    RecordDistinct ((key, value) :: others) (key :: more) :=
  append (single key h) h'

theorem optional {α : Type} (key : String) {value : Option α} {tree : α → Document}
    (h : ∀ a ∈ value, (tree a).Distinct) :
    RecordDistinct (member? key (value.map tree)) [key] := by
  cases value with
  | none => exact ⟨List.nil_sublist _, nofun⟩
  | some a => exact single key (h a rfl)

theorem distinct (h : RecordDistinct entries keys) (hk : (keys.map ascii).Nodup) :
    (Document.record entries).Distinct := by
  have hm : (entries.map fun entry => (ascii entry.1, entry.2)).map (·.1) =
      (entries.map (·.1)).map ascii := by
    rw [List.map_map, List.map_map]
    rfl
  refine .object ?_ fun member hm => ?_
  · rw [hm]
    exact hk.sublist (h.keys.map ascii)
  · obtain ⟨entry, he, rfl⟩ := List.mem_map.1 hm
    exact h.values entry he

end RecordDistinct

end ManifestScan.Document
