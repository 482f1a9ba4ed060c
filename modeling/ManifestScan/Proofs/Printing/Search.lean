import ManifestScan.Extraction.Extractor
import ManifestScan.Proofs.Printing.Script

namespace ManifestScan

open Lexeme

theorem Entry.lexed_of {entries : List Entry} (h : ∀ entry ∈ entries, ∀ rest, EndsArgument rest →
    ∃ lexemes, Lexes rest entry.arguments lexemes ∧ AllFlat lexemes) (last : Bytes) :
    Entry.Lexed last entries := by
  induction entries with
  | nil => trivial
  | cons entry others ih =>
    obtain ⟨lexemes, hl, hf⟩ := h entry List.mem_cons_self
      (rightParen :: (others.flatMap Entry.text ++ last)) (.inr rfl)
    refine ⟨⟨lexemes, hl, ?_⟩, ih fun other ho => h other (List.mem_cons_of_mem _ ho)⟩
    rw [hf.turnsOf_eq]
    rfl

theorem Entry.map_registrations (entries : List Entry) (offset : Nat) :
    (Entry.registrations offset entries).map (fun call => (call.callee, call.text)) =
      entries.map fun entry => (entry.callee, entry.call) := by
  induction entries generalizing offset with
  | nil => rfl
  | cons entry others ih => rw [Entry.registrations, List.map_cons, ih, List.map_cons]

namespace Catalog

variable {catalog : Catalog}

theorem mem_entries {blueprints : List Blueprint} {entry : Entry}
    (h : entry ∈ entries blueprints) :
    ∃ blueprint ∈ blueprints, entry.callee = blueprint.callee ∧
      entry.arguments = blueprint.arguments ∧ entry.gap.all isGapByte = true := by
  cases blueprints with
  | nil => cases h
  | cons blueprint others =>
    rcases List.mem_cons.1 h with rfl | h
    · exact ⟨blueprint, List.mem_cons_self, rfl, rfl, rfl⟩
    · obtain ⟨other, ho, rfl⟩ := List.mem_map.1 h
      exact ⟨other, List.mem_cons_of_mem _ ho, rfl, rfl, rfl⟩

/-- The printed registrations are found one by one. -/
theorem registrations_listing (catalog : Catalog) :
    catalog.listing.registrations.map (fun call => (call.callee, call.text)) =
      catalog.blueprints.map fun blueprint => (blueprint.callee, blueprint.call) := by
  have he : ∀ blueprints : List Blueprint,
      (entries blueprints).map (fun entry => (entry.callee, entry.call)) =
        blueprints.map fun blueprint => (blueprint.callee, blueprint.call) := by
    intro blueprints
    cases blueprints with
    | nil => rfl
    | cons blueprint others =>
      rw [entries, List.map_cons, List.map_map, List.map_cons]
      rfl
  unfold Listing.registrations
  rw [Entry.map_registrations]
  exact he catalog.blueprints

theorem exists_proper (catalog : Catalog) : ∃ front, catalog.listing.Proper front := by
  obtain ⟨front, hr, hp⟩ := exists_reads catalog.symbols catalog.modules
  have hne : entries catalog.blueprints ≠ [] := by
    cases hb : catalog.blueprints with
    | nil => exact absurd hb catalog.blueprints_ne
    | cons blueprint others => exact List.cons_ne_nil _ _
  have hfits : ∀ entry ∈ entries catalog.blueprints, entry.Fits := by
    intro entry hm
    obtain ⟨blueprint, -, hc, -, hg⟩ := mem_entries hm
    exact ⟨hc ▸ blueprint.callee_mem, hg⟩
  have hlexed : Entry.Lexed (catalog.listing.lastGap ++ (ascii "])" ++ [lineFeed]))
      (entries catalog.blueprints) := by
    refine Entry.lexed_of (fun entry hm rest hrest => ?_) _
    obtain ⟨blueprint, hb, -, ha, -⟩ := mem_entries hm
    rw [ha]
    exact Setting.lexes_join (hasName hb) hrest
  exact ⟨front, hr, hp, rfl, rfl, hne, hfits, hlexed, rfl⟩

theorem notMem_preamble (catalog : Catalog) : leftParen ∉ catalog.listing.preamble := by
  intro hm
  obtain ⟨entry, he, hm⟩ := List.mem_flatMap.1 hm
  rcases List.mem_append.1 hm with hm | hm
  · exact notMem_importLine he (by decide) hm
  · exact absurd (List.mem_singleton.1 hm) (by decide)

theorem getLast?_preamble (catalog : Catalog) :
    ∀ b, catalog.listing.preamble.getLast? = some b → b = lineFeed := by
  intro b hb
  by_cases hn : catalog.imports.map importLine = []
  · have hi := List.map_eq_nil_iff.1 hn
    have : catalog.listing.preamble = [] := by
      show (catalog.imports.flatMap fun entry => importLine entry ++ [lineFeed]) = []
      rw [hi]
      rfl
    rw [this] at hb
    cases hb
  · have : catalog.listing.preamble =
        joinWith [lineFeed] (catalog.imports.map importLine) ++ [lineFeed] := by
      rw [← flatMap_ends _ hn, List.flatMap_map]
      rfl
    rw [this, List.getLast?_append] at hb
    cases hb
    rfl

theorem indentation_line (blueprint : Blueprint) : 4 ≤ indentation blueprint.line := by
  obtain ⟨b, more, he, hb, -, -⟩ := exists_line blueprint
  have hspace : ∀ c, isSpace c = true → isBlank c = true := by decide +kernel
  have hs : isSpace b = false := by
    cases h : isSpace b with
    | false => rfl
    | true =>
      rw [hspace b h] at hb
      cases hb
  have ht : (ascii "        " ++ b :: more).takeWhile isSpace = ascii "        " := by
    rw [List.takeWhile_append_of_pos (by decide +kernel), List.takeWhile_cons_of_neg (by simp [hs]),
      List.append_nil]
  rw [he, indentation, ht]
  decide

/-- Every way of looking for the registrations of a printed script finds them all. -/
theorem registrations_source (catalog : Catalog) (strategy : Strategy) :
    (Extractor.registrations strategy .default catalog.source).1 =
      .ok catalog.listing.registrations := by
  obtain ⟨front, hproper⟩ := catalog.exists_proper
  have htree :
      Convention.searchTree .default catalog.source = .ok catalog.listing.registrations := by
    rw [source_listing]
    exact hproper.searchTree _
  have htext :
      Convention.searchText .default catalog.source = .ok catalog.listing.registrations := by
    rw [source_listing]
    refine hproper.searchText catalog.notMem_preamble catalog.getLast?_preamble ?_ ?_
    · intro line hm
      rw [lines_body, bodyLines, List.tail_cons, List.mem_append, List.mem_map,
        List.mem_singleton] at hm
      rcases hm with ⟨blueprint, -, rfl⟩ | rfl
      · exact .inr (indentation_line blueprint)
      · exact .inr (by decide)
    · intro last hl
      have : catalog.bodyLines = (Listing.opening :: catalog.blueprints.map Blueprint.line) ++
          [ascii "    ])"] := rfl
      rw [lines_body, this, List.getLast?_concat] at hl
      cases hl
      decide
  cases strategy with
  | text => exact htext
  | tree => exact htree
  | automatic =>
    unfold Extractor.registrations
    dsimp only
    rw [htree]

end Catalog

end ManifestScan
