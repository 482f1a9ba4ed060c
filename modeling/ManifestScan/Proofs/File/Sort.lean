import ManifestScan.File.Tree

namespace ManifestScan

/-- One text comes before another if it is the smaller one, byte by byte. -/
theorem lt_of_comesBefore {text other : Bytes} (h : comesBefore text other = true)
    (hn : text ≠ other) : text < other := by
  fun_induction comesBefore text other with
  | case1 other =>
    cases other with
    | nil => exact absurd rfl hn
    | cons b other => exact List.nil_lt_cons b other
  | case2 => cases h
  | case3 a text b other ih =>
    rw [Bool.or_eq_true, Bool.and_eq_true, decide_eq_true_eq, beq_iff_eq] at h
    rcases h with h | ⟨rfl, h⟩
    · exact List.cons_lt_cons_iff.2 (.inl h)
    · exact List.cons_lt_cons_iff.2 (.inr ⟨rfl, ih h fun he => hn (he ▸ rfl)⟩)

theorem lt_of_not_comesBefore {text other : Bytes} (h : comesBefore text other = false) :
    other < text := by
  fun_induction comesBefore text other with
  | case1 => cases h
  | case2 a text => exact List.nil_lt_cons a text
  | case3 a text b other ih =>
    rw [Bool.or_eq_false_iff, Bool.and_eq_false_iff, decide_eq_false_iff_not,
      beq_eq_false_iff_ne] at h
    by_cases he : a = b
    · exact List.cons_lt_cons_iff.2 (.inr ⟨he.symm, ih (h.2.resolve_left fun hn => hn he)⟩)
    · exact List.cons_lt_cons_iff.2 (.inl (UInt8.lt_of_le_of_ne (UInt8.not_lt.1 h.1) (Ne.symm he)))

namespace FileTree

theorem perm_insertByName {α : Type} (entry : Bytes × α) (entries : List (Bytes × α)) :
    (insertByName entry entries).Perm (entry :: entries) := by
  induction entries with
  | nil => exact .refl _
  | cons first rest ih =>
    unfold insertByName
    split
    · exact .refl _
    · exact (ih.cons first).trans (.swap entry first rest)

theorem perm_sortByName {α : Type} (entries : List (Bytes × α)) :
    (sortByName entries).Perm entries := by
  induction entries with
  | nil => exact .refl _
  | cons first rest ih => exact (perm_insertByName first _).trans (ih.cons first)

theorem mem_insertByName {α : Type} {entry other : Bytes × α} {entries : List (Bytes × α)} :
    other ∈ insertByName entry entries ↔ other = entry ∨ other ∈ entries := by
  rw [(perm_insertByName entry entries).mem_iff, List.mem_cons]

theorem mem_sortByName {α : Type} {entry : Bytes × α} {entries : List (Bytes × α)} :
    entry ∈ sortByName entries ↔ entry ∈ entries :=
  (perm_sortByName entries).mem_iff

/-- Sorting looks at the names alone. -/
theorem insertByName_map {α β : Type} (f : Bytes × α → β) (entry : Bytes × α)
    (entries : List (Bytes × α)) :
    insertByName (entry.1, f entry) (entries.map fun other => (other.1, f other)) =
      (insertByName entry entries).map fun other => (other.1, f other) := by
  induction entries with
  | nil => rfl
  | cons first rest ih =>
    rw [List.map_cons, insertByName, insertByName, apply_ite (List.map _), ih]
    rfl

theorem sortByName_map {α β : Type} (f : Bytes × α → β) (entries : List (Bytes × α)) :
    sortByName (entries.map fun entry => (entry.1, f entry)) =
      (sortByName entries).map fun entry => (entry.1, f entry) := by
  induction entries with
  | nil => rfl
  | cons first rest ih =>
    have hr := insertByName_map f first (sortByName rest)
    rw [← ih] at hr
    exact hr

theorem pairwise_insertByName {α : Type} {entry : Bytes × α} {entries : List (Bytes × α)}
    (h : entries.Pairwise fun a b => a.1 < b.1) (hn : ∀ other ∈ entries, entry.1 ≠ other.1) :
    (insertByName entry entries).Pairwise fun a b => a.1 < b.1 := by
  induction entries with
  | nil => exact List.pairwise_singleton _ _
  | cons first rest ih =>
    obtain ⟨hfirst, hrest⟩ := List.pairwise_cons.1 h
    obtain ⟨hne, hothers⟩ := List.forall_mem_cons.1 hn
    unfold insertByName
    split
    · rename_i hc
      have hlt := lt_of_comesBefore hc hne
      refine List.pairwise_cons.2 ⟨List.forall_mem_cons.2 ⟨hlt, fun other hm => ?_⟩, h⟩
      exact List.lt_trans hlt (hfirst other hm)
    · rename_i hc
      refine List.pairwise_cons.2 ⟨fun other hm => ?_, ih hrest hothers⟩
      rcases mem_insertByName.1 hm with rfl | hm
      · exact lt_of_not_comesBefore (Bool.not_eq_true _ ▸ hc)
      · exact hfirst other hm

/-- Entries with different names stand in the order of their names. -/
theorem pairwise_sortByName {α : Type} {entries : List (Bytes × α)}
    (h : (entries.map (·.1)).Nodup) : (sortByName entries).Pairwise fun a b => a.1 < b.1 := by
  induction entries with
  | nil => exact .nil
  | cons first rest ih =>
    rw [List.map_cons, List.nodup_cons] at h
    refine pairwise_insertByName (ih h.2) fun other hm he => h.1 ?_
    rw [he]
    exact List.mem_map_of_mem (mem_sortByName.1 hm)

end FileTree

end ManifestScan
