import ManifestScan.Proofs.Listing.Text
import ManifestScan.Proofs.Printing.Imports

namespace ManifestScan

namespace Blueprint

variable {blueprint : Blueprint}

theorem callee_mem (blueprint : Blueprint) : blueprint.callee ∈ PluginKind.callees :=
  List.mem_map_of_mem (mem_of_lookup blueprint.callee_kind)

end Blueprint

namespace Setting

theorem lineFeed_notMem {setting : Setting} (h : setting.HasName) : lineFeed ∉ setting.text := by
  have hname : ∀ {name : Bytes}, isIdentifier name = true → lineFeed ∉ name :=
    fun hi => notMem_of_isIdentifier hi rfl
  have hequals : lineFeed ≠ equals := by decide
  unfold Setting.text
  rw [List.mem_append, List.mem_cons, not_or, not_or]
  refine ⟨hname setting.isIdentifier_key, hequals, ?_⟩
  rcases isPrinted_expression h with ⟨text, he⟩ | he
  · rw [he]
    exact Literal.lineFeed_notMem_quote text
  · exact hname he

end Setting

namespace Catalog

variable {catalog : Catalog} {blueprint : Blueprint}

theorem isSymbol_of_mem {symbol : Bytes} (h : symbol ∈ catalog.imports.map (·.1)) :
    isSymbol symbol = true := by
  obtain ⟨entry, hm, rfl⟩ := List.mem_map.1 h
  exact catalog.symbols entry hm

/-- The settings of a registration refer to imported names. -/
theorem symbol_mem {setting : Setting} (hb : blueprint ∈ catalog.blueprints)
    (hs : setting ∈ blueprint.settings) :
    ∀ symbol ∈ setting.symbol?, symbol ∈ catalog.imports.map (·.1) := by
  intro symbol hsymbol
  refine catalog.imported blueprint hb symbol ?_
  simp only [Blueprint.settings, List.mem_cons, List.mem_append, List.mem_map,
    Option.mem_toList] at hs ⊢
  rcases hs with rfl | rfl | ⟨_, -, rfl⟩ | ⟨_, -, rfl⟩ | ⟨_, -, rfl⟩ | ⟨_, -, rfl⟩ | ⟨_, hc, rfl⟩
  all_goals cases hsymbol
  · exact .inl rfl
  · exact .inr hc

theorem hasName (hb : blueprint ∈ catalog.blueprints) :
    ∀ setting ∈ blueprint.settings, setting.HasName := by
  intro setting hs symbol hsymbol
  exact isIdentifier_of_isSymbol (isSymbol_of_mem (symbol_mem hb hs symbol hsymbol))

def entries : List Blueprint → List Entry
  | [] => []
  | blueprint :: others =>
    ⟨lineFeed :: ascii "        ", blueprint.callee, blueprint.arguments⟩ ::
      others.map fun blueprint =>
        ⟨comma :: lineFeed :: ascii "        ", blueprint.callee, blueprint.arguments⟩

def listing (catalog : Catalog) : Listing where
  preamble := catalog.imports.flatMap fun entry => importLine entry ++ [lineFeed]
  function := ascii "register_plugin"
  entries := entries catalog.blueprints
  lastGap := comma :: lineFeed :: ascii "    "

def bodyLines (catalog : Catalog) : List Bytes :=
  Listing.opening :: (catalog.blueprints.map Blueprint.line ++ [ascii "    ])"])

theorem bodyLines_ne (catalog : Catalog) : catalog.bodyLines ≠ [] := List.cons_ne_nil _ _

theorem lines_eq (catalog : Catalog) :
    catalog.lines =
      catalog.imports.map importLine ++ (catalog.listing.header :: catalog.bodyLines) := by
  have hh : catalog.listing.header = ascii "def register_plugin():" := by
    show ascii "def " ++ ascii "register_plugin" ++ ascii "():" = _
    decide
  rw [hh]
  rfl

/-- Every call is a line of its own. -/
theorem flatMap_entries {blueprints : List Blueprint} (hn : blueprints ≠ []) :
    (entries blueprints).flatMap Entry.text ++ [comma, lineFeed] =
      lineFeed :: blueprints.flatMap fun blueprint => blueprint.line ++ [lineFeed] := by
  -- The comma and the line end that part two calls are written behind the first of them.
  have hothers : ∀ others : List Blueprint,
      (others.map fun blueprint => (⟨comma :: lineFeed :: ascii "        ", blueprint.callee,
          blueprint.arguments⟩ : Entry)).flatMap Entry.text ++ [comma, lineFeed] =
        [comma, lineFeed] ++
          others.flatMap fun blueprint => blueprint.line ++ [lineFeed] := by
    intro others
    induction others with
    | nil => rfl
    | cons blueprint others ih =>
      rw [List.map_cons, List.flatMap_cons, List.append_assoc, ih, List.flatMap_cons]
      simp [Entry.text, Entry.call, Blueprint.line, Blueprint.call]
  cases blueprints with
  | nil => exact absurd rfl hn
  | cons blueprint others =>
    rw [entries, List.flatMap_cons, List.append_assoc, hothers, List.flatMap_cons]
    simp [Entry.text, Entry.call, Blueprint.line, Blueprint.call]

theorem body_listing (catalog : Catalog) :
    catalog.listing.body = joinWith [lineFeed] catalog.bodyLines := by
  have hlast : ascii "    ])" = ascii "    " ++ ascii "])" := by decide
  have hflat :
      catalog.listing.body ++ [lineFeed] = catalog.bodyLines.flatMap (· ++ [lineFeed]) := by
    have he : catalog.listing.body ++ [lineFeed] = Listing.opening ++
        ((entries catalog.blueprints).flatMap Entry.text ++ [comma, lineFeed] ++
          (ascii "    " ++ ascii "])" ++ [lineFeed])) := by
      simp [Listing.body, listing]
    rw [he, flatMap_entries catalog.blueprints_ne, bodyLines, List.flatMap_cons,
      List.flatMap_append, List.flatMap_map, hlast]
    simp
  rw [flatMap_ends _ catalog.bodyLines_ne] at hflat
  exact List.append_cancel_right hflat

/-- The printed script is a listing behind lines of imports. -/
theorem source_listing (catalog : Catalog) : catalog.source = catalog.listing.source := by
  unfold source
  rw [lines_eq, List.flatMap_append, List.flatMap_map, List.flatMap_cons,
    flatMap_ends _ catalog.bodyLines_ne, ← body_listing]
  simp [Listing.source, listing]

theorem callee_cases : ∀ callee ∈ PluginKind.callees, lineFeed ∉ callee ∧ leftParen ∉ callee ∧
    callee.head?.any (fun b => !isBlank b && b != hash && b != 0x66) = true := by
  decide +kernel

/-- A registration line is its call behind eight blanks. -/
theorem exists_line (blueprint : Blueprint) :
    ∃ b more, blueprint.line = ascii "        " ++ b :: more ∧ isBlank b = false ∧ b ≠ hash ∧
      b ≠ 0x66 := by
  obtain ⟨-, -, hc⟩ := callee_cases _ blueprint.callee_mem
  cases he : blueprint.callee with
  | nil =>
    rw [he] at hc
    cases hc
  | cons b callee =>
    rw [he] at hc
    simp only [List.head?_cons, Option.any_some, Bool.and_eq_true, Bool.not_eq_true',
      bne_iff_ne] at hc
    refine ⟨b, callee ++ leftParen :: (blueprint.arguments ++ [rightParen]) ++ [comma], ?_, hc.1.1,
      hc.1.2, hc.2⟩
    rw [Blueprint.line, Blueprint.call, he]
    simp

theorem lineFeed_notMem_blueprint (hb : blueprint ∈ catalog.blueprints) :
    lineFeed ∉ blueprint.line := by
  have hi : lineFeed ∉ ascii "        " := by decide
  have hseparator : lineFeed ∉ [comma, space] := by decide
  have hp : lineFeed ≠ leftParen ∧ lineFeed ≠ rightParen ∧ lineFeed ≠ comma := by decide
  have ha : lineFeed ∉ blueprint.arguments := by
    refine notMem_joinWith hseparator fun text ht => ?_
    obtain ⟨setting, hs, rfl⟩ := List.mem_map.1 ht
    exact Setting.lineFeed_notMem (hasName hb setting hs)
  simp only [Blueprint.line, Blueprint.call, List.mem_append, List.mem_cons, List.not_mem_nil,
    or_false, not_or]
  exact ⟨⟨hi, (callee_cases _ blueprint.callee_mem).1, hp.1, ha, hp.2.1⟩, hp.2.2⟩

theorem lineFeed_notMem_bodyLines (catalog : Catalog) :
    ∀ line ∈ catalog.bodyLines, lineFeed ∉ line := by
  intro line hm
  simp only [bodyLines, List.mem_cons, List.mem_append, List.mem_map, List.not_mem_nil,
    or_false] at hm
  rcases hm with rfl | ⟨blueprint, hb, rfl⟩ | rfl
  · decide
  · exact lineFeed_notMem_blueprint hb
  · decide

theorem notMem_importLine {entry : Bytes × Bytes} (h : entry ∈ catalog.imports) {b : UInt8}
    (hb : isNameByte b = false ∧ b ≠ dot ∧ b ≠ space) : b ∉ importLine entry := by
  intro hm
  rcases mem_importLine (isIdentifier_of_isSymbol (catalog.symbols entry h))
    (fun _ => mem_modulePath (catalog.modules entry h)) hm with h | h | h
  · rw [hb.1] at h
    cases h
  · exact hb.2.1 h
  · exact hb.2.2 h

theorem lineFeed_notMem_lines (catalog : Catalog) : ∀ line ∈ catalog.lines, lineFeed ∉ line := by
  intro line hm
  rw [lines_eq, List.mem_append, List.mem_cons, List.mem_map] at hm
  rcases hm with ⟨entry, he, rfl⟩ | rfl | hm
  · exact notMem_importLine he (by decide)
  · show lineFeed ∉ ascii "def " ++ ascii "register_plugin" ++ ascii "():"
    decide
  · exact catalog.lineFeed_notMem_bodyLines line hm

theorem lines_source (catalog : Catalog) :
    ManifestScan.lines catalog.source = catalog.lines ++ [[]] := by
  have hn : catalog.lines ≠ [] := by
    rw [lines_eq]
    simp
  have hf : ManifestScan.lines (joinWith [lineFeed] catalog.lines) = catalog.lines :=
    fields_joinWith hn catalog.lineFeed_notMem_lines
  have ha : ManifestScan.lines (joinWith [lineFeed] catalog.lines ++ [lineFeed]) =
      ManifestScan.lines (joinWith [lineFeed] catalog.lines) ++ [[]] := fields_append _ _ []
  unfold source
  rw [flatMap_ends _ hn, ha, hf]

theorem lines_body (catalog : Catalog) :
    ManifestScan.lines catalog.listing.body = catalog.bodyLines := by
  rw [body_listing]
  exact fields_joinWith catalog.bodyLines_ne catalog.lineFeed_notMem_bodyLines

/-- The imports of a printed script, all of them taken in. -/
theorem ofSource_source (catalog : Catalog) (package : Bytes) :
    Imports.ofSource package catalog.source =
      ⟨catalog.imports.foldl (fun table entry => table.insert entry.1 ⟨entry.2, entry.1⟩) .empty,
        []⟩ := by
  -- No line below the imports starts like one.
  have hnone : ∀ line ∈ catalog.listing.header :: (catalog.bodyLines ++ [[]]),
      Import.statement? line = none := by
    intro line hm
    simp only [bodyLines, List.mem_cons, List.mem_append, List.mem_map, List.not_mem_nil,
      or_false] at hm
    rcases hm with rfl | (rfl | ⟨blueprint, -, rfl⟩ | rfl) | rfl
    · show Import.statement? (ascii "def " ++ ascii "register_plugin" ++ ascii "():") = none
      decide +kernel
    · decide +kernel
    · obtain ⟨b, more, he, hb, hh, hf⟩ := exists_line blueprint
      rw [he]
      exact Import.statement?_none (by decide +kernel) hb hh hf
    · decide +kernel
    · decide +kernel
  unfold Imports.ofSource
  rw [lines_source, lines_eq, List.append_assoc, List.cons_append,
    addLines_importLine catalog.symbols catalog.modules, addLines_none hnone]

/-- The table knows the module of every name that the catalog imports. -/
def Bound (catalog : Catalog) (table : ImportTable) : Prop :=
  ∀ symbol ∈ catalog.imports.map (·.1),
    table.find? symbol = some ⟨(catalog.imports.lookup symbol).getD [], symbol⟩

theorem bound_ofSource (catalog : Catalog) (package : Bytes) :
    catalog.Bound (Imports.ofSource package catalog.source).table := by
  intro symbol h
  rw [ofSource_source]
  cases hl : catalog.imports.lookup symbol with
  | none =>
    obtain ⟨entry, hm, rfl⟩ := List.mem_map.1 h
    have := List.lookup_eq_none_iff.1 hl entry hm
    simp at this
  | some module => exact ImportTable.find?_foldl_of_nodup catalog.symbols_nodup _ hl

end Catalog

end ManifestScan
