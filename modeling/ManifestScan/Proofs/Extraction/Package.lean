import ManifestScan.EntryFile
import ManifestScan.Proofs.Extraction.Bindings
import ManifestScan.Proofs.Extraction.Module
import ManifestScan.Proofs.Printing.Imports

namespace ManifestScan

def FilePath.ofNames (names : List Bytes) : FilePath := slash :: joinWith [slash] names

namespace EntryFile

/-- The directory of a script, which only the texts of the paths decide. -/
def directoryOf (tree : FileTree) (script : FilePath) : FilePath :=
  FilePath.parent (FilePath.normal ((tree.absolute? script).getD script))

def isPackage (tree : FileTree) (names : List Bytes) : Bool :=
  tree.isFile (FilePath.join (FilePath.ofNames names) SourceIndex.packageMarker)

/-- The directories around a script that are packages without a gap are the last ones, `inner`. -/
structure Enclosed (tree : FileTree) (script : FilePath) (outer inner : List Bytes) : Prop where
  names_eq : FilePath.names (directoryOf tree script) = outer ++ inner
  isPackage : ∀ front back, inner = front ++ back → front ≠ [] →
    EntryFile.isPackage tree (outer ++ front) = true
  maximal : outer ≠ [] → EntryFile.isPackage tree outer = false

variable {tree : FileTree} {script : FilePath} {outer inner : List Bytes}

theorem packages_reverse (names : List Bytes) (hn : names ≠ []) :
    packages tree names.reverse =
      if isPackage tree names then names.getLast hn :: packages tree names.dropLast.reverse
      else [] := by
  obtain ⟨name, others, hr⟩ := List.exists_cons_of_ne_nil (List.reverse_ne_nil_iff.2 hn)
  obtain rfl : names = others.reverse ++ [name] := by
    rw [← List.reverse_reverse names, hr, List.reverse_cons]
  rw [List.getLast_concat, List.dropLast_concat, List.reverse_reverse, hr, packages,
    List.reverse_cons]
  rfl

theorem packages_enclosed
    (hi : ∀ front back, inner = front ++ back → front ≠ [] → isPackage tree (outer ++ front) = true)
    (ho : outer ≠ [] → isPackage tree outer = false) :
    packages tree (outer ++ inner).reverse = inner.reverse := by
  induction inner using List.reverseRecOn with
  | nil =>
    rw [List.append_nil]
    by_cases hn : outer = []
    · rw [hn]
      rfl
    · rw [packages_reverse outer hn, ho hn]
      rfl
  | append_singleton front name ih =>
    have hn : outer ++ (front ++ [name]) ≠ [] := by simp
    have hlast : (outer ++ (front ++ [name])).getLast hn = name := by simp
    have hfront : (outer ++ (front ++ [name])).dropLast = outer ++ front := by
      rw [← List.append_assoc, List.dropLast_concat]
    rw [packages_reverse _ hn, hi _ [] (List.append_nil _).symm (by simp), if_pos rfl, hlast,
      hfront,
      ih fun before back he hb => hi before (back ++ [name]) (by rw [he, List.append_assoc]) hb,
      List.reverse_append]
    rfl

theorem packageOf_enclosed (h : Enclosed tree script outer inner) (hn : inner ≠ []) :
    packageOf tree script = joinWith [dot] inner := by
  have hp := packages_enclosed h.isPackage h.maximal
  rw [← h.names_eq] at hp
  unfold packageOf
  dsimp only
  rw [← directoryOf, hp, if_neg (by simpa using hn), List.reverse_reverse]

theorem Enclosed.ne_nil (h : Enclosed tree script outer inner) : ∀ name ∈ inner, name ≠ [] := by
  intro name hm
  have hn : name ∈ FilePath.names (directoryOf tree script) := by
    rw [h.names_eq]
    exact List.mem_append_right _ hm
  have := (List.mem_filter.1 hn).2
  simpa using this

end EntryFile

namespace Import

/-- Each level takes the last name away, as long as one is left. -/
theorem climb_joinWith {names : List Bytes} (hn : names ≠ []) (hd : ∀ name ∈ names, dot ∉ name)
    (levels : Nat) : climb levels (joinWith [dot] names) =
      if levels < names.length then some (joinWith [dot] (names.take (names.length - levels)))
      else none := by
  induction levels generalizing names with
  | zero => rw [climb, if_pos (List.length_pos_iff.2 hn), Nat.sub_zero, List.take_length]
  | succ levels ih =>
    obtain ⟨front, name, rfl⟩ := (List.eq_nil_or_concat' names).resolve_left hn
    have hname : dot ∉ name := hd name (by simp)
    rw [climb, List.length_append, List.length_singleton]
    by_cases hf : front = []
    · subst hf
      rw [List.nil_append, joinWith, splitLast?_of_notMem hname, if_neg (by simp)]
    · rw [joinWith_append _ hf (by simp), joinWith, List.singleton_append, splitLast?_append hname]
      dsimp only
      rw [ih hf fun other ho => hd other (List.mem_append_left _ ho), Nat.add_sub_add_right,
        List.take_append_of_le_length (Nat.sub_le _ _)]
      simp only [Nat.add_lt_add_iff_right]

/-- Nothing, or names joined by dots: what may stand behind the leading dots of an import. -/
def IsRemainder (text : Bytes) : Prop := text = [] ∨ isModulePath text = true

/-- Inside packages around each other, one leading dot stands for the innermost and each further one
for the next. More dots than packages leave the path as it is written. -/
theorem moduleOf_joinWith {names : List Bytes} (hn : names ≠ []) (hd : ∀ name ∈ names, dot ∉ name)
    (hne : ∀ name ∈ names, name ≠ []) {remainder : Bytes} (hr : IsRemainder remainder)
    {levels : Nat} (hl : 1 ≤ levels) :
    moduleOf (joinWith [dot] names) (List.replicate levels dot ++ remainder) =
      if levels ≤ names.length then
        joinWith [dot] (names.take (names.length - levels + 1)) ++
          if remainder = [] then [] else dot :: remainder
      else List.replicate levels dot ++ remainder := by
  obtain ⟨levels, rfl⟩ := Nat.exists_eq_add_of_le' hl
  have hdot : remainder.head? ≠ some dot := by
    rcases hr with rfl | hr
    · exact nofun
    · exact Catalog.head?_modulePath hr
  have hp : joinWith [dot] names ≠ [] := by
    obtain ⟨name, others, rfl⟩ := List.exists_cons_of_ne_nil hn
    have hname := hne name List.mem_cons_self
    intro he
    have hh := @head?_joinWith [dot] _ hname others
    rw [he] at hh
    exact hname (List.head?_eq_none_iff.1 hh.symm)
  rw [moduleOf_dots hdot hp, climb_joinWith hn hd]
  by_cases hlt : levels < names.length
  · rw [if_pos hlt, if_pos (Nat.succ_le_of_lt hlt),
      show names.length - (levels + 1) + 1 = names.length - levels by omega]
    by_cases hrn : remainder = []
    · simp [hrn]
    · rw [if_neg hrn]
      exact if_neg (by simpa using hrn)
  · rw [if_neg hlt, if_neg (by omega)]

def Binds (text name : Bytes) : Prop :=
  ∃ statement, statement? text = some statement ∧
    ∃ line found, names line statement = .ok found ∧ name ∈ found.map (·.1)

end Import

theorem Import.binds_of_mem_bindings {package text : Bytes} {entry : Bytes × Binding}
    (h : entry ∈ bindings package text) : Binds text entry.1 := by
  unfold bindings at h
  cases hs : statement? text with
  | none => rw [hs] at h; cases h
  | some statement =>
    rw [hs, Option.elim_some] at h
    obtain ⟨pair, hp, rfl⟩ := List.mem_map.1 h
    cases hn : names 1 statement with
    | error _ => rw [hn] at hp; cases hp
    | ok found =>
      rw [hn] at hp
      exact ⟨statement, hs, 1, found, hn, List.mem_map_of_mem hp⟩

namespace Imports

open Import

theorem addLines_append (package : Bytes) (imports : Imports) (line : Nat)
    (texts others : List Bytes) :
    addLines package imports line (texts ++ others) =
      addLines package (addLines package imports line texts) (line + texts.length) others := by
  induction texts generalizing imports line with
  | nil => rfl
  | cons text texts ih =>
    rw [List.cons_append, addLines, addLines, ih, List.length_cons, Nat.add_assoc,
      Nat.add_comm texts.length]

/-- Lines that import other names leave what a name stands for. -/
theorem find?_addLines {texts : List Bytes} {name : Bytes} (h : ∀ text ∈ texts, ¬Binds text name)
    (package : Bytes) (imports : Imports) (line : Nat) :
    (addLines package imports line texts).table.find? name = imports.table.find? name := by
  have hn : (texts.flatMap (bindings package)).reverse.lookup name = none := by
    refine List.lookup_eq_none_iff.2 fun entry he => ?_
    obtain ⟨text, ht, he⟩ := List.mem_flatMap.1 (List.mem_reverse.1 he)
    rw [bne_iff_ne]
    rintro rfl
    exact h text ht (binds_of_mem_bindings he)
  rw [addLines_table, ImportTable.find?_foldl, hn, Option.none_or]

/-- The last import of a name counts. -/
theorem find?_ofSource {package source name written : Bytes} {before after : List Bytes}
    (hs : lines source = before ++ Catalog.importLine (name, written) :: after)
    (ha : ∀ text ∈ after, ¬Binds text name) (hi : isIdentifier name = true) (hw : written ≠ [])
    (hb : ∀ b ∈ written, isNameByte b = true ∨ b = dot) :
    (ofSource package source).table.find? name = some ⟨moduleOf package written, name⟩ := by
  rw [ofSource, hs, addLines_append, addLines, find?_addLines ha,
    @Catalog.addLine_importLine (name, written) hi hw hb, ImportTable.find?_insert,
    if_pos rfl]

/-- The package of a script is the chain of packages around it, and an import from leading dots
climbs that chain: it names what lies so many levels above the script, or stays as it is written
when there are not so many. -/
theorem ofSource_relative {tree : FileTree} {script : FilePath} {outer inner : List Bytes}
    (h : EntryFile.Enclosed tree script outer inner) (hn : inner ≠ [])
    (hd : ∀ name ∈ inner, dot ∉ name) :
    EntryFile.packageOf tree script = joinWith [dot] inner ∧
      ∀ levels remainder name, 1 ≤ levels → IsRemainder remainder → isIdentifier name = true →
        let written := List.replicate levels dot ++ remainder
        ∀ source before after,
          lines source = before ++ Catalog.importLine (name, written) :: after →
          (∀ text ∈ after, ¬Binds text name) →
            (ofSource (EntryFile.packageOf tree script) source).table.find? name =
              some ⟨if levels ≤ inner.length then
                  joinWith [dot] (inner.take (inner.length - levels + 1)) ++
                    if remainder = [] then [] else dot :: remainder
                else written, name⟩ := by
  have hp := EntryFile.packageOf_enclosed h hn
  refine ⟨hp, fun levels remainder name hl hr hi => ?_⟩
  intro written source before after hs ha
  have hw : written ≠ [] := by
    obtain ⟨levels, rfl⟩ := Nat.exists_eq_add_of_le' hl
    exact List.cons_ne_nil _ _
  have hb : ∀ b ∈ written, isNameByte b = true ∨ b = dot := by
    intro b hb
    rcases List.mem_append.1 hb with hb | hb
    · exact .inr (List.eq_of_mem_replicate hb)
    · rcases hr with rfl | hr
      · cases hb
      · exact Catalog.mem_modulePath hr hb
  rw [find?_ofSource hs ha hi hw hb, hp, moduleOf_joinWith hn hd h.ne_nil hr hl]

/-- A package in a package, next to a directory that is none. -/
def nestedTree : FileTree :=
  ⟨.directory [(ascii "work", .directory [(ascii "pkg", .directory [
    (ascii "__init__.py", .file []), (ascii "data", .directory []),
    (ascii "sub", .directory [(ascii "__init__.py", .file [])])])])], ascii "/work", none⟩

theorem enclosed_nested : EntryFile.Enclosed nestedTree (ascii "./pkg/data/../sub/plugins.py")
    [ascii "work"] [ascii "pkg", ascii "sub"] := by
  refine ⟨by decide +kernel, fun front back he hf => ?_, fun _ => by decide +kernel⟩
  match front with
  | [_] =>
    cases he
    decide +kernel
  | [_, _] =>
    cases he
    decide +kernel

/-- The second import of the name climbs one package; a third dot would lead out of both. -/
theorem ofSource_relative_nested :
    let source := ascii "from .b import A\nfrom ..b.c import A\n"
    EntryFile.Enclosed nestedTree (ascii "./pkg/data/../sub/plugins.py") [ascii "work"]
        [ascii "pkg", ascii "sub"] ∧
      (∀ name ∈ [ascii "pkg", ascii "sub"], dot ∉ name) ∧
      lines source = [ascii "from .b import A"] ++
        Catalog.importLine (ascii "A", List.replicate 2 dot ++ ascii "b.c") :: [[]] ∧
      (ofSource (EntryFile.packageOf nestedTree (ascii "./pkg/data/../sub/plugins.py"))
        source).table.find? (ascii "A") = some ⟨ascii "pkg.b.c", ascii "A"⟩ := by
  intro source
  have hd : ∀ name ∈ [ascii "pkg", ascii "sub"], dot ∉ name := by decide
  have hl : lines source = [ascii "from .b import A"] ++
      Catalog.importLine (ascii "A", List.replicate 2 dot ++ ascii "b.c") :: [[]] := by
    decide +kernel
  have ha : ∀ text ∈ [([] : Bytes)], ¬Binds text (ascii "A") := by
    intro text ht
    rw [List.mem_singleton.1 ht]
    exact fun ⟨_, hs, _⟩ => nomatch hs
  obtain ⟨-, h⟩ := ofSource_relative enclosed_nested (by simp) hd
  have hm :=
    h 2 (ascii "b.c") (ascii "A") (by decide) (.inr (by decide +kernel)) (by decide +kernel)
    source _ _ hl ha
  exact ⟨enclosed_nested, hd, hl, hm⟩

end Imports

end ManifestScan
