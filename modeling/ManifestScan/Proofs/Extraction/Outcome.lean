import ManifestScan.Proofs.Extraction.Report
import ManifestScan.Proofs.Listing.Found
import Mathlib.Data.List.Basic

namespace ManifestScan

namespace Report

/-- There is a manifest, and nothing worse than warnings. -/
structure Succeeds (report : Report) : Prop where
  manifest : report.manifest.isSome = true
  warnings : ∀ diagnostic ∈ report.diagnostics, diagnostic.isWarning = true
  fatal : report.fatal? = none

/-- There is no manifest, and the error stands alone behind the warnings. -/
structure Fails (report : Report) (error : Diagnostic) : Prop where
  manifest : report.manifest = none
  diagnostics : ∃ earlier, report.diagnostics = earlier ++ [error] ∧
    ∀ diagnostic ∈ earlier, diagnostic.isWarning = true
  isError : error.isWarning = false
  fatal : report.fatal? = some error

variable {report : Report}

theorem Fails.not_succeeds {error : Diagnostic} (h : report.Fails error) : ¬report.Succeeds := by
  intro hs
  have := hs.manifest
  rw [h.manifest] at this
  cases this

theorem Fails.unique {error other : Diagnostic} (h : report.Fails error) (h' : report.Fails other) :
    error = other :=
  Option.some.inj (h.fatal.symm.trans h'.fatal)

theorem isWarning_of_mem_map {warnings : List Warning} :
    ∀ diagnostic ∈ warnings.map (·.diagnostic), diagnostic.isWarning = true := by
  intro diagnostic hm
  obtain ⟨warning, -, rfl⟩ := List.mem_map.1 hm
  rfl

/-- A report is decided by the calls that were located: it has a manifest exactly if there are calls
and no error, and fails with the error if there is one. -/
structure DecidedBy (report : Report) (located : LocatedCalls) : Prop where
  succeeds_iff : report.Succeeds ↔ located.error = none ∧ located.calls ≠ []
  fails_iff : ∀ error, report.Fails error ↔ located.error = some error
  manifest_eq_none : located.calls = [] → report.manifest = none

end Report

namespace Extraction

/-- An extraction ends as the search for calls did: it fails with its error, or has a manifest where
there are calls. -/
inductive Follows : Extraction → LocatedCalls → Prop
  | failed (failure : Failure) (warnings : List Warning) (notes : List Bytes) :
    Follows ⟨.error failure, warnings, notes⟩ (.of (.error failure))
  | found {calls : List Registration} (h : calls ≠ []) (manifest : Manifest)
    (warnings : List Warning) (notes : List Bytes) :
    Follows ⟨.ok manifest, warnings, notes⟩ (.of (.ok calls))

variable {extraction : Extraction} {located : LocatedCalls}

theorem Follows.after (h : extraction.Follows located) (warnings : List Warning)
    (notes : List Bytes) : (extraction.after warnings notes).Follows located := by
  cases h with
  | failed failure own remarks => exact .failed failure _ _
  | found h manifest own remarks => exact .found h manifest _ _

theorem fails_report (failure : Failure) (warnings : List Warning) (notes : List Bytes) :
    (Extraction.mk (.error failure) warnings notes).report.Fails failure.diagnostic := by
  rw [report_error]
  refine ⟨rfl, ⟨_, rfl, Report.isWarning_of_mem_map⟩, rfl, ?_⟩
  dsimp only [Report.fatal?]
  rw [List.reverse_append]
  rfl

theorem succeeds_report (manifest : Manifest) (warnings : List Warning) (notes : List Bytes) :
    (Extraction.mk (.ok manifest) warnings notes).report.Succeeds := by
  rw [report_ok]
  exact ⟨rfl, Report.isWarning_of_mem_map, rfl⟩

/-- Of the two shapes of a report the outcome tells which it has. -/
theorem succeeds_xor_fails (extraction : Extraction) :
    Xor extraction.report.Succeeds (∃ error, extraction.report.Fails error) := by
  obtain ⟨outcome, warnings, notes⟩ := extraction
  cases outcome with
  | ok manifest =>
    have hs := succeeds_report manifest warnings notes
    exact .inl ⟨hs, fun ⟨_, hf⟩ => hf.not_succeeds hs⟩
  | error failure =>
    have hf := fails_report failure warnings notes
    exact .inr ⟨⟨_, hf⟩, hf.not_succeeds⟩

theorem Follows.decidedBy (h : extraction.Follows located) :
    extraction.report.DecidedBy located := by
  cases h with
  | failed failure warnings notes =>
    have hf := fails_report failure warnings notes
    refine ⟨⟨fun hs => absurd hs hf.not_succeeds, fun ⟨he, _⟩ => nomatch he⟩,
      fun error => ⟨fun ho => congrArg some (hf.unique ho), fun ho => ?_⟩, fun _ => hf.manifest⟩
    cases ho
    exact hf
  | found hn manifest warnings notes =>
    have hs := succeeds_report manifest warnings notes
    exact ⟨⟨fun _ => ⟨rfl, hn⟩, fun _ => hs⟩,
      fun error => ⟨fun hf => absurd hs hf.not_succeeds, fun he => nomatch he⟩,
      fun he => absurd he hn⟩

end Extraction

namespace Extractor

variable {strategy : Strategy} {convention : Convention} {extractor : Extractor} {source : Bytes}

theorem ne_nil_of_registrations {found : List Registration}
    (h : (registrations strategy convention source).1 = .ok found) : found ≠ [] := by
  cases strategy with
  | text => exact (Convention.carve_of_searchText h).1
  | tree => exact (Convention.calls_of_searchTree h).1
  | automatic =>
    unfold registrations at h
    dsimp only at h
    split at h
    · rename_i ht
      cases h
      exact (Convention.calls_of_searchTree ht).1
    · split at h
      · rename_i ht
        cases h
        exact (Convention.carve_of_searchText ht).1
      · cases h

def callsOfSource (extractor : Extractor) (source : Bytes) : LocatedCalls :=
  (extractor.locateCalls source .empty).1

/-- The calls of the registration file; a file that is not found or cannot be read has none. -/
def callsOfFile (extractor : Extractor) (tree : FileTree) : LocatedCalls :=
  let located := extractor.locate tree
  match located.file with
  | .error failure => LocatedCalls.empty.fail failure
  | .ok (path, _) =>
    match tree.read? path with
    | none => LocatedCalls.empty.fail (.unreadableEntryFile path (tree.isPresent path))
    | some source => located.extractor.callsOfSource source

/-- The automatic strategy takes what the text gives where the tree gives an error. -/
theorem callsOfSource_fallback {error : Diagnostic}
    (ha : extractor.request.strategy = .automatic)
    (ht : (extractor.convention.locateTree source).error = some error) :
    extractor.callsOfSource source = extractor.convention.locateText source := by
  unfold callsOfSource locateCalls
  rw [ha, if_neg (by decide)]
  dsimp only
  rw [ht]
  dsimp only
  split <;> rfl

theorem follows_extractSource (extractor : Extractor) (tree : FileTree) (source package : Bytes) :
    (extractor.extractSource tree source package).1.Follows (extractor.callsOfSource source) := by
  have hn := @ne_nil_of_registrations extractor.request.strategy extractor.convention source
  unfold extractSource callsOfSource
  rw [locateCalls_eq]
  dsimp only
  generalize registrations extractor.request.strategy extractor.convention source = located at hn
  obtain ⟨outcome, notes⟩ := located
  cases outcome with
  | error failure => exact .failed failure _ _
  | ok found => exact .found (hn rfl) _ _ _

theorem follows_extract (extractor : Extractor) (tree : FileTree) :
    (extractor.extract tree).1.Follows (extractor.callsOfFile tree) := by
  unfold extract callsOfFile
  dsimp only
  generalize extractor.locate tree = located
  obtain ⟨file, next, warnings, notes⟩ := located
  cases file with
  | error failure => exact .failed failure _ _
  | ok file =>
    obtain ⟨path, package⟩ := file
    dsimp only
    cases tree.read? path with
    | none => exact .failed _ _ _
    | some source =>
      -- The search root has no part in the search for calls.
      have hf := follows_extractSource (next.settleRoot path) tree source package
      exact hf.after warnings notes

theorem report_succeeds_or_fails (extractor : Extractor) (tree : FileTree) :
    Xor (extractor.report tree).1.Succeeds (∃ error, (extractor.report tree).1.Fails error) := by
  rw [report_eq]
  exact Extraction.succeeds_xor_fails _

theorem assemble_succeeds_or_fails (extractor : Extractor) (tree : FileTree)
    (source package : Bytes) :
    Xor (extractor.assemble tree source package).1.Succeeds
      (∃ error, (extractor.assemble tree source package).1.Fails error) := by
  rw [assemble_eq]
  exact Extraction.succeeds_xor_fails _

/-- A report, of a file or of a source, has a manifest and nothing worse than warnings, or it has
none and ends with its only error. It has a manifest exactly if calls were located; what the
automatic strategy recovers from leaves nothing but warnings. -/
theorem report_succeeds_xor_fails (extractor : Extractor) (tree : FileTree)
    (source package : Bytes) :
    let ofFile := (extractor.report tree).1
    let ofSource := (extractor.assemble tree source package).1
    Xor ofFile.Succeeds (∃ error, ofFile.Fails error) ∧
      Xor ofSource.Succeeds (∃ error, ofSource.Fails error) ∧
      ofFile.DecidedBy (extractor.callsOfFile tree) ∧
      ofSource.DecidedBy (extractor.callsOfSource source) ∧
      ∀ error, extractor.request.strategy = .automatic →
        (extractor.convention.locateTree source).error = some error →
        (extractor.convention.locateText source).error = none → ofSource.Succeeds := by
  intro ofFile ofSource
  have hf : ofFile.DecidedBy (extractor.callsOfFile tree) := by
    dsimp only [ofFile]
    rw [report_eq]
    exact (follows_extract extractor tree).decidedBy
  have hs : ofSource.DecidedBy (extractor.callsOfSource source) := by
    dsimp only [ofSource]
    rw [assemble_eq]
    exact (follows_extractSource extractor tree source package).decidedBy
  refine ⟨report_succeeds_or_fails extractor tree,
    assemble_succeeds_or_fails extractor tree source package, hf, hs,
    fun error ha ht hn => hs.succeeds_iff.2 ?_⟩
  rw [callsOfSource_fallback ha ht]
  refine ⟨hn, ?_⟩
  rw [Convention.locateText_eq] at hn ⊢
  obtain ⟨found, hf⟩ := LocatedCalls.error_of_eq_none_iff.1 hn
  rw [hf]
  exact (Convention.carve_of_searchText hf).1

/-- A source with a stray byte in its first line and a registration that lacks its callable. -/
def strayByteSource : Bytes :=
  ascii "x = 1 $ 2\ndef register_plugin():\n    return Package(plugins=[ParserPlugin(name='x')])\n"

def automaticRequest : ExtractionRequest :=
  ⟨[], [], ascii "demo", ascii "/work", [], [], none, ascii "r2x_plugin", none, ascii "plugins",
    .automatic⟩

/-- The fault of the outline is left behind, and the registration that fails is only
warned about. -/
theorem report_strayByte :
    let extractor := ofRequest automaticRequest
    let fault : Fault := ⟨.unknownByte, ⟨1, 7⟩, ⟨1, 8⟩⟩
    extractor.request.strategy = .automatic ∧
      (extractor.convention.locateTree strayByteSource).error =
        some (Failure.brokenSource fault).diagnostic ∧
      (extractor.convention.locateText strayByteSource).error = none ∧
      (extractor.assemble (.empty (ascii "work")) strayByteSource []).1.Succeeds := by
  intro extractor fault
  have ht : (extractor.convention.locateTree strayByteSource).error =
      some (Failure.brokenSource fault).diagnostic := by decide +kernel
  have hn : (extractor.convention.locateText strayByteSource).error = none := by decide +kernel
  obtain ⟨-, -, -, -, h⟩ := report_succeeds_xor_fails extractor (.empty (ascii "work"))
    strayByteSource []
  exact ⟨rfl, ht, hn, h _ rfl ht hn⟩

end Extractor

end ManifestScan
