import ManifestScan.ImportTable
import ManifestScan.Proofs.Text.Split
import ManifestScan.Proofs.Text.Lines

namespace ManifestScan

theorem ImportTable.find?_insert (table : ImportTable) (name other : Bytes) (binding : Binding) :
    (table.insert name binding).find? other =
      if other = name then some binding else table.find? other := by
  unfold find? insert
  by_cases h : other = name
  · rw [if_pos h, h, List.lookup_cons_self]
  · rw [if_neg h, List.lookup_cons, beq_eq_false_iff_ne.2 h]
    exact lookup_filter_ne h table.entries

/-- Of bindings taken in one after the other the last one of each name counts. -/
theorem ImportTable.find?_foldl (entries : List (Bytes × Binding)) (table : ImportTable)
    (name : Bytes) :
    (entries.foldl (fun table entry => table.insert entry.1 entry.2) table).find? name =
      (entries.reverse.lookup name).or (table.find? name) := by
  induction entries generalizing table with
  | nil => rfl
  | cons entry entries ih =>
    have he : (table.insert entry.1 entry.2).find? name =
        ([entry].lookup name).or (table.find? name) := by
      rw [find?_insert, List.lookup_cons]
      by_cases h : name = entry.1
      · rw [if_pos h, beq_iff_eq.2 h, Option.some_or]
      · rw [if_neg h, beq_eq_false_iff_ne.2 h, List.lookup_nil, Option.none_or]
    rw [List.foldl_cons, ih, he, List.reverse_cons, List.lookup_append, Option.or_assoc]

def Import.bindings (package text : Bytes) : List (Bytes × Binding) :=
  (statement? text).elim [] fun statement =>
    ((names 1 statement).toOption.getD []).map fun entry =>
      (entry.1, ⟨moduleOf package statement.module, entry.2⟩)

namespace Imports

open Import

variable {package : Bytes}

theorem addLine_table (package : Bytes) (imports : Imports) (line : Nat) (text : Bytes) :
    (imports.addLine package line text).table =
      (bindings package text).foldl (fun table entry => table.insert entry.1 entry.2)
        imports.table := by
  unfold addLine bindings
  cases statement? text with
  | none => rfl
  | some statement =>
    -- The number of the line stands in warnings only.
    have hn : (names 1 statement).toOption = (names line statement).toOption := by
      unfold names
      split
      · rfl
      · split <;> rfl
    rw [Option.elim_some, hn, List.foldl_map]
    dsimp only
    cases names line statement <;> rfl

theorem addLines_table (package : Bytes) (imports : Imports) (line : Nat) (texts : List Bytes) :
    (addLines package imports line texts).table =
      (texts.flatMap (bindings package)).foldl (fun table entry => table.insert entry.1 entry.2)
        imports.table := by
  induction texts generalizing imports line with
  | nil => rfl
  | cons text texts ih =>
    rw [addLines, ih, addLine_table, List.flatMap_cons, List.foldl_append]

/-- The last binding of a name in the source counts. -/
theorem find?_ofSource_eq_lookup (package source name : Bytes) :
    (ofSource package source).table.find? name =
      ((lines source).flatMap (bindings package)).reverse.lookup name := by
  rw [ofSource, addLines_table, ImportTable.find?_foldl]
  exact Option.or_none

/-- Of two texts below each other the second counts where it binds a name. -/
theorem find?_ofSource_append (package first second name : Bytes) :
    (ofSource package (first ++ lineFeed :: second)).table.find? name =
      ((ofSource package second).table.find? name).or
        ((ofSource package first).table.find? name) := by
  rw [find?_ofSource_eq_lookup, lines, fields_append, List.flatMap_append, List.reverse_append,
    List.lookup_append, find?_ofSource_eq_lookup, find?_ofSource_eq_lookup]
  rfl

end Imports

end ManifestScan
