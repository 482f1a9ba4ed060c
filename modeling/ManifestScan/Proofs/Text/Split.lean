import ManifestScan.Text.Basic
import Mathlib.Data.List.TakeDrop
import Mathlib.Data.List.TakeWhile

namespace ManifestScan

section Entries

variable {α β : Type} [BEq α] [LawfulBEq α] {key other : α} {value : β} {entries : List (α × β)}

theorem mem_of_lookup (h : entries.lookup key = some value) : (key, value) ∈ entries := by
  obtain ⟨front, behind, he, -⟩ := List.lookup_eq_some_iff.1 h
  simp [he]

theorem lookup_of_mem {entry : α × β} (hd : (entries.map (·.1)).Nodup) (hm : entry ∈ entries) :
    entries.lookup entry.1 = some entry.2 := by
  obtain ⟨front, behind, rfl⟩ := List.append_of_mem hm
  refine List.lookup_eq_some_iff.2 ⟨front, behind, rfl, fun other ho => ?_⟩
  rw [List.map_append, List.map_cons, List.nodup_append] at hd
  rw [bne_iff_ne]
  exact (hd.2.2 _ (List.mem_map_of_mem ho) _ List.mem_cons_self).symm

theorem lookup_filter_ne (h : other ≠ key) (entries : List (α × β)) :
    (entries.filter (·.1 != key)).lookup other = entries.lookup other := by
  induction entries with
  | nil => rfl
  | cons entry entries ih =>
    by_cases he : entry.1 = key
    · have ho : (other == entry.1) = false := beq_eq_false_iff_ne.2 fun hx => h (hx.trans he)
      rw [List.filter_cons_of_neg (by simp [he]), ih, List.lookup_cons, ho]
    · rw [List.filter_cons_of_pos (by simp [he]), List.lookup_cons, List.lookup_cons, ih]

end Entries

variable {separator : UInt8} {text front behind : Bytes}

theorem splitFirst?_append (h : separator ∉ front) :
    splitFirst? separator (front ++ separator :: behind) = some (front, behind) := by
  have hf : ∀ b ∈ front, (b != separator) = true := by
    intro b hb
    have : b ≠ separator := fun he => h (he ▸ hb)
    simpa using this
  unfold splitFirst?
  rw [List.span_eq_takeWhile_dropWhile, List.takeWhile_append_of_pos hf,
    List.dropWhile_append_of_pos hf, List.takeWhile_cons_of_neg (by simp),
    List.dropWhile_cons_of_neg (by simp), List.append_nil]

theorem splitFirst?_of_notMem (h : separator ∉ text) : splitFirst? separator text = none := by
  have hd : text.dropWhile (· != separator) = [] := by
    rw [List.dropWhile_eq_nil_iff]
    intro b hb
    have : b ≠ separator := fun he => h (he ▸ hb)
    simpa using this
  unfold splitFirst?
  rw [List.span_eq_takeWhile_dropWhile, hd]

theorem splitLast?_append (h : separator ∉ behind) :
    splitLast? separator (front ++ separator :: behind) = some (front, behind) := by
  unfold splitLast?
  rw [List.reverse_append, List.reverse_cons, List.append_assoc, List.singleton_append,
    splitFirst?_append (by simpa using h)]
  simp

theorem splitLast?_of_notMem (h : separator ∉ text) : splitLast? separator text = none := by
  unfold splitLast?
  rw [splitFirst?_of_notMem (by simpa using h), Option.map_none]

/-- A byte that stands in a text stands there for a last time. -/
theorem exists_last (h : separator ∈ text) :
    ∃ front behind, text = front ++ separator :: behind ∧ separator ∉ behind := by
  obtain ⟨behind, front, he, hn⟩ := List.eq_append_cons_of_mem (List.mem_reverse.2 h)
  refine ⟨front.reverse, behind.reverse, ?_, by simpa using hn⟩
  rw [← List.reverse_reverse text, he]
  simp

theorem beforeZero_eq (h : 0 ∉ text) : beforeZero text = text :=
  List.takeWhile_eq_self_iff.2 fun b hm => by simpa using fun he : b = 0 => h (he ▸ hm)

end ManifestScan
