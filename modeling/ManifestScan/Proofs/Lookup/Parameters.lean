import ManifestScan.Proofs.Document.Default
import ManifestScan.UpgradeStep
import Mathlib.Data.List.Basic

namespace ManifestScan

structure Parameter.Writable (parameter : Parameter) : Prop where
  name : isIdentifier parameter.name = true
  required : parameter.required = parameter.default.isNone
  default : ∀ text ∈ parameter.default, ∃ document, Document.read? text = some document ∧
    document.isScalar = true

structure Parameter.AllWritable (parameters : List Parameter) : Prop where
  each : ∀ parameter ∈ parameters, parameter.Writable
  distinct : (parameters.map (·.name)).Nodup

namespace Parameter

theorem writable_ofText? {text : Bytes} {parameter : Parameter}
    (h : ofText? text = some parameter) :
    parameter.Writable := by
  simp only [ofText?, Option.ite_none_right_eq_some, Option.some.injEq] at h
  obtain ⟨hn, rfl⟩ := h
  refine ⟨hn, ?_, fun default hd => ?_⟩
  · cases assignment? text <;> rfl
  · obtain ⟨i, -, rfl⟩ := Option.map_eq_some_iff.1 hd
    exact Default.read?_serialize _

theorem allWritable_nil : AllWritable [] := ⟨nofun, List.nodup_nil⟩

/-- A name is taken once. -/
theorem AllWritable.addTo {parameters : List Parameter} {parameter : Parameter}
    (h : AllWritable parameters) (hp : parameter.Writable) :
    AllWritable (Parameter.addTo parameters parameter) := by
  unfold Parameter.addTo
  split
  · exact h
  · rename_i hn
    refine ⟨fun other ho => ?_, ?_⟩
    · rcases List.mem_append.1 ho with ho | ho
      · exact h.each other ho
      · rwa [List.mem_singleton.1 ho]
    · rw [List.map_append, List.map_singleton]
      refine List.nodup_append.2 ⟨h.distinct, by simp, ?_⟩
      intro name hm taken ht he
      obtain ⟨other, ho, rfl⟩ := List.mem_map.1 hm
      rw [List.mem_singleton.1 ht] at he
      exact hn (List.any_eq_true.2 ⟨other, ho, by simpa using he⟩)

theorem allWritable_foldl {parameters : List Parameter} (h : ∀ p ∈ parameters, p.Writable) :
    AllWritable (parameters.foldl Parameter.addTo []) := by
  refine List.foldlRecOn (motive := AllWritable) _ _ allWritable_nil ?_
  intro found hf parameter hp
  exact hf.addTo (h parameter hp)

theorem allWritable_listOf (text : Bytes) : AllWritable (listOf text) := by
  refine allWritable_foldl fun parameter hp => ?_
  have hread (entry : Bytes)
      (h : (if isMarker entry then none else ofText? entry) = some parameter) :
      parameter.Writable := by
    split at h
    · cases h
    · exact writable_ofText? h
  rcases List.mem_append.1 hp with hp | hp
  · obtain ⟨hf, -⟩ := Option.filter_eq_some_iff.1 (Option.mem_toList.1 hp)
    obtain ⟨entry, -, he⟩ := Option.bind_eq_some_iff.1 hf
    exact hread entry he
  · obtain ⟨entry, -, he⟩ := List.mem_filterMap.1 hp
    exact hread entry he

theorem writable_fieldOf? {statement : Bytes} {parameter : Parameter}
    (h : fieldOf? statement = some parameter) : parameter.Writable := by
  unfold fieldOf? at h
  dsimp only at h
  split at h
  · cases h
  · split at h
    · exact writable_ofText? h
    · cases h

end Parameter

namespace Signature

open Parameter (AllWritable)

theorem allWritable_ofFunction (source : Bytes) (definition : Definition) :
    AllWritable (ofFunction source definition).parameters := by
  unfold ofFunction
  dsimp only
  split
  · exact Parameter.allWritable_listOf _
  · exact Parameter.allWritable_nil

theorem allWritable_ofClass (source : Bytes) (definition : Definition) :
    AllWritable (ofClass source definition).parameters := by
  unfold ofClass
  split
  · exact allWritable_ofFunction source _
  · split
    · exact Parameter.allWritable_nil
    · refine Parameter.allWritable_foldl fun parameter hp => ?_
      obtain ⟨statement, -, hs⟩ := List.mem_filterMap.1 hp
      exact Parameter.writable_fieldOf? hs

/-- Whatever way a signature is read, its parameters can be written. -/
theorem allWritable_find? {source name : Bytes} {kind : CallableKind} {signature : Signature}
    (h : find? source name kind = some signature) : AllWritable signature.parameters := by
  obtain ⟨definition, -, rfl⟩ := Option.map_eq_some_iff.1 h
  split
  · exact allWritable_ofClass source definition
  · exact allWritable_ofFunction source definition

end Signature

theorem StepList.allWritable_ofModule {source className module : Bytes} :
    ∀ step ∈ (ofModule source className module).steps,
      Parameter.AllWritable step.function.parameters := by
  intro step hs
  obtain ⟨draft, hd, rfl⟩ := List.mem_map.1 hs
  obtain ⟨function, -, hd⟩ := List.mem_flatMap.1 hd
  obtain ⟨decorator, -, hd⟩ := List.mem_filterMap.1 hd
  obtain ⟨arguments, -, rfl⟩ := Option.map_eq_some_iff.1 hd
  exact Signature.allWritable_ofFunction source function

end ManifestScan
