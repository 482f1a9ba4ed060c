import ManifestScan.Proofs.Extraction.Origin
import ManifestScan.Proofs.Text.Split
import Mathlib.Data.List.TakeDrop

namespace ManifestScan

namespace Import

/-- Climbing leaves nothing where the package starts with a dot and each of its dots takes
away one name. -/
theorem climb_eq_nil_iff {levels : Nat} {package : Bytes} :
    climb levels package = some [] ↔ (package = [] ∧ levels = 0) ∨
      (package.head? = some dot ∧ package.count dot = levels) := by
  induction levels generalizing package with
  | zero =>
    rw [climb, Option.some.injEq]
    refine ⟨fun h => .inl ⟨h, rfl⟩, ?_⟩
    rintro (⟨h, -⟩ | ⟨hh, hc⟩)
    · exact h
    · exact absurd (List.mem_of_mem_head? hh) (List.count_eq_zero.1 hc)
  | succ levels ih =>
    rw [climb]
    by_cases hm : dot ∈ package
    · obtain ⟨outer, name, rfl, hn⟩ := exists_last hm
      rw [splitLast?_append hn, List.count_append, List.count_cons_self, List.count_eq_zero.2 hn]
      dsimp only
      rw [ih]
      cases outer with
      | nil => simp
      | cons b outer => simp
    · rw [splitLast?_of_notMem hm]
      refine ⟨nofun, ?_⟩
      rintro (⟨-, h⟩ | ⟨hh, -⟩)
      · cases h
      · exact absurd (List.mem_of_mem_head? hh) hm

/-- The leading dots of a written path and what follows them. -/
theorem exists_dots (written : Bytes) : ∃ levels remainder,
    written = List.replicate levels dot ++ remainder ∧ remainder.head? ≠ some dot := by
  induction written with
  | nil => exact ⟨0, [], rfl, nofun⟩
  | cons b written ih =>
    by_cases hb : b = dot
    · obtain ⟨levels, remainder, rfl, hr⟩ := ih
      exact ⟨levels + 1, remainder, by rw [hb]; rfl, hr⟩
    · exact ⟨0, b :: written, rfl, by simpa using hb⟩

theorem dots_eq_iff {levels count : Nat} {remainder : Bytes} (hr : remainder.head? ≠ some dot) :
    List.replicate levels dot ++ remainder = List.replicate count dot ↔
      levels = count ∧ remainder = [] := by
  constructor
  · intro h
    obtain rfl : remainder = [] := by
      cases remainder with
      | nil => rfl
      | cons b remainder =>
        have hb : b ∈ List.replicate count dot := by simp [← h]
        rw [List.eq_of_mem_replicate hb] at hr
        exact absurd rfl hr
    exact ⟨by simpa using congrArg List.length h, rfl⟩
  · rintro ⟨rfl, rfl⟩
    exact List.append_nil _

theorem moduleOf_dots {levels : Nat} {remainder : Bytes} (hr : remainder.head? ≠ some dot)
    {package : Bytes} (hp : package ≠ []) :
    moduleOf package (List.replicate (levels + 1) dot ++ remainder) =
      match climb levels package with
      | none => List.replicate (levels + 1) dot ++ remainder
      | some base => if remainder.isEmpty then base else base ++ dot :: remainder := by
  have ht : (List.replicate (levels + 1) dot ++ remainder).takeWhile (· == dot) =
      List.replicate (levels + 1) dot := by
    rw [List.takeWhile_append_of_pos (by simp)]
    cases remainder with
    | nil => simp
    | cons b remainder =>
      rw [List.takeWhile_cons_of_neg (by simpa using hr), List.append_nil]
  have hd : (List.replicate (levels + 1) dot ++ remainder).drop (levels + 1) = remainder :=
    List.drop_left' List.length_replicate
  unfold moduleOf
  dsimp only
  rw [ht, List.length_replicate, hd, Nat.add_sub_cancel]
  exact if_neg (by simp [hp])

/-- A path that is written without leading dots, or outside all packages, stays as it is. -/
theorem moduleOf_eq_self {package written : Bytes} (h : written.head? ≠ some dot ∨ package = []) :
    moduleOf package written = written := by
  unfold moduleOf
  refine if_pos (h.imp (fun hd => ?_) fun hp => by simp [hp])
  cases written with
  | nil => rfl
  | cons b written =>
    rw [List.takeWhile_cons_of_neg (by simpa using hd)]
    rfl

/-- A module path is left empty by one kind of import alone: it has no name behind its dots, and one
dot more than the package, which starts with one. -/
theorem moduleOf_eq_nil_iff {package written : Bytes} (hw : written ≠ []) :
    moduleOf package written = [] ↔ package.head? = some dot ∧
      written = List.replicate (package.count dot + 1) dot := by
  obtain ⟨levels, remainder, rfl, hr⟩ := exists_dots written
  rw [dots_eq_iff hr]
  by_cases hp : package = []
  · rw [moduleOf_eq_self (.inr hp), hp]
    exact iff_of_false hw nofun
  cases levels with
  | zero =>
    rw [List.replicate_zero, List.nil_append] at hw ⊢
    rw [moduleOf_eq_self (.inl hr)]
    exact iff_of_false hw nofun
  | succ levels =>
    have hc := @climb_eq_nil_iff levels package
    rw [or_iff_right (by simp [hp])] at hc
    rw [moduleOf_dots hr hp, Nat.add_right_cancel_iff, eq_comm (a := levels), ← and_assoc, ← hc]
    cases climb levels package with
    | none => simp
    | some base =>
      by_cases he : remainder = []
      · simp [he]
      · simp [he]

/-- A statement names a module. -/
theorem statement?_module_ne_nil {line : Bytes} {statement : Statement}
    (h : statement? line = some statement) : statement.module ≠ [] := by
  have hword (text : Bytes) (hn : (firstWord text).1 = []) : (firstWord text).2 = [] := by
    unfold firstWord at hn ⊢
    rw [List.span_eq_takeWhile_dropWhile] at hn ⊢
    have hd := @List.head?_dropWhile_not _ isSpace text
    generalize text.dropWhile isSpace = rest at hn hd ⊢
    cases rest with
    | nil => rfl
    | cons b rest =>
      have hb : isSpace b = false := hd
      rw [List.takeWhile_cons_of_pos (by simp [hb])] at hn
      cases hn
  unfold statement? at h
  dsimp only at h
  split at h
  · cases h
  · rename_i rest _
    split at h
    · rename_i hk
      cases h
      intro hn
      have hr := hword rest hn
      rw [hr] at hk
      exact absurd hk.2.1 (by decide +kernel)
    · cases h

end Import

/-- A callable as an import statement of a source in the given package names it. Its module is empty
for no statement but the one that climbs from a package that starts with a dot. -/
structure Callable.ImportedFrom (package source : Bytes) (callable : Callable) : Prop where
  name : isIdentifier callable.name = true
  module : ∃ statement ∈ (lines source).filterMap Import.statement?,
    callable.module = Import.moduleOf package statement.module ∧
      (callable.module = [] ↔ package.head? = some dot ∧
        statement.module = List.replicate (package.count dot + 1) dot)

namespace Imports

theorem importedFrom_ofSource {package source : Bytes} :
    ∀ entry ∈ (ofSource package source).table.entries,
      (Classification.reference entry.2).ImportedFrom package source := by
  refine forall_ofSource fun text ht statement hs line names hn entry he => ⟨?_, statement, ?_, ?_⟩
  · exact (Import.names_isIdentifier hn entry he).2
  · exact List.mem_filterMap.2 ⟨text, ht, hs⟩
  · exact ⟨rfl, Import.moduleOf_eq_nil_iff (Import.statement?_module_ne_nil hs)⟩

end Imports

namespace Extractor

variable {extractor : Extractor} {tree : FileTree} {manifest : Manifest}

theorem importedFrom_extractSource {source package : Bytes}
    (hm : (extractor.extractSource tree source package).1.manifest? = some manifest) :
    ∀ plugin ∈ manifest.plugins, ∀ target ∈ plugin.targets, target.ImportedFrom package source := by
  have hg : (extractor.workspaceOf tree source package).Grants
      (·.ImportedFrom package source) fun _ => True := by
    refine ⟨fun name binding hf => ?_, fun _ _ _ _ _ hc _ => ⟨hc.name, hc.module⟩,
      fun _ _ _ _ _ => trivial⟩
    exact Imports.importedFrom_ofSource _ (ImportTable.mem_of_find? hf)
  exact fun plugin hp => (extractSource_holds hg hm plugin hp).targets

/-- Every callable that a plugin refers to was imported: its name is one, and its module is the path
of an import statement, which is empty in one case only. -/
theorem extract_modules (extractor : Extractor) (tree : FileTree) :
    (∀ source package manifest,
      (extractor.extractSource tree source package).1.manifest? = some manifest →
        ∀ plugin ∈ manifest.plugins, ∀ target ∈ plugin.targets,
          target.ImportedFrom package source) ∧
    ∀ manifest, (extractor.extract tree).1.manifest? = some manifest →
      ∃ path package source, (extractor.locate tree).file = .ok (path, package) ∧
        tree.read? path = some source ∧ ∀ plugin ∈ manifest.plugins, ∀ target ∈ plugin.targets,
          target.ImportedFrom package source := by
  refine ⟨fun source package manifest hm => importedFrom_extractSource hm, fun manifest hm => ?_⟩
  obtain ⟨path, package, source, hf, hs, hm⟩ := manifest?_extract hm
  exact ⟨path, package, source, hf, hs, importedFrom_extractSource hm⟩

def importingSource (module : Bytes) : Bytes :=
  ascii "from " ++ module ++ ascii " import A\ndef register_plugin():\n" ++
    ascii "    return Package(plugins=[ParserPlugin(name='x', obj=A)])\n"

def importingManifest (module : Bytes) : Manifest :=
  ⟨ascii "demo", [⟨ascii "x", .reader, ⟨module, ascii "A", .type, none, []⟩, none, none, none, none,
    none, none, none, none⟩]⟩

/-- Two leading dots climb out of a package of two names. -/
theorem extract_modules_climbing :
    ((ofRequest mixedRequest).extractSource (.empty (ascii "work")) (importingSource (ascii "..b"))
        (ascii "pkg.sub")).1.manifest? = some (importingManifest (ascii "pkg.b")) ∧
      ∀ plugin ∈ (importingManifest (ascii "pkg.b")).plugins, ∀ target ∈ plugin.targets,
        target.ImportedFrom (ascii "pkg.sub") (importingSource (ascii "..b")) := by
  have hm : ((ofRequest mixedRequest).extractSource (.empty (ascii "work"))
      (importingSource (ascii "..b")) (ascii "pkg.sub")).1.manifest? =
        some (importingManifest (ascii "pkg.b")) := by
    decide +kernel
  obtain ⟨h, -⟩ := extract_modules (ofRequest mixedRequest) (.empty (ascii "work"))
  exact ⟨hm, h _ _ _ hm⟩

/-- A package may start with a dot, as the directory of that name does. Climbing out of it
leaves nothing. -/
theorem extractSource_emptyModule :
    ((ofRequest mixedRequest).extractSource (.empty (ascii "work")) (importingSource (ascii ".."))
        (ascii ".a")).1.manifest? = some (importingManifest []) ∧
      ∃ plugin ∈ (importingManifest []).plugins, ∃ target ∈ plugin.targets, target.module = [] := by
  decide +kernel

end Extractor

end ManifestScan
