import ManifestScan.Proofs.Listing.Block

namespace ManifestScan

/-- Each registration stands in the source where its offset says. -/
theorem Entry.slice_registrations {entries : List Entry} {before after source : Bytes}
    (h : source = before ++ (entries.flatMap Entry.text ++ after)) :
    ∀ call ∈ Entry.registrations before.length entries,
      slice source call.offset (call.offset + call.text.length) = call.text := by
  induction entries generalizing before with
  | nil => exact nofun
  | cons entry others ih =>
    intro call hc
    rw [Entry.registrations, List.mem_cons] at hc
    rcases hc with rfl | hc
    · have hs : source = (before ++ entry.gap) ++ (entry.call ++
          (others.flatMap Entry.text ++ after)) := by
        rw [h, List.flatMap_cons, Entry.text]
        simp only [List.append_assoc]
      unfold slice
      dsimp only
      rw [hs, ← List.length_append, List.drop_left, List.length_append, Nat.add_sub_cancel_left,
        List.take_left]
    · refine @ih (before ++ entry.text) ?_ call ?_
      · rw [h, List.flatMap_cons]
        simp only [List.append_assoc]
      · rwa [List.length_append]

theorem Entry.callee_registrations {entries : List Entry} (hf : ∀ entry ∈ entries, entry.Fits)
    (offset : Nat) :
    ∀ call ∈ Entry.registrations offset entries, call.callee ∈ PluginKind.callees := by
  induction entries generalizing offset with
  | nil => exact nofun
  | cons entry others ih =>
    intro call hc
    rw [Entry.registrations, List.mem_cons] at hc
    rcases hc with rfl | hc
    · exact (hf entry (by simp)).1
    · exact ih (fun other ho => hf other (by simp [ho])) _ call hc

namespace Registration

/-- The calls of an outline that are registrations. -/
theorem matchesIn_forall₂ {calls : List Registration} {found : List Call}
    (h : List.Forall₂ Registration.Is calls found)
    (hc : ∀ call ∈ calls, call.callee ∈ PluginKind.callees) :
    Call.matchesIn PluginKind.callees found = found := by
  induction h with
  | nil => rfl
  | @cons call one calls found hi _ ih =>
    have hm : PluginKind.callees.contains one.callee = true := by
      rw [hi.callee_eq]
      exact List.contains_iff_mem.2 (hc call (by simp))
    rw [Call.matchesIn, ih fun call hm => hc call (by simp [hm])]
    unfold Call.matches
    rw [if_pos hm]
    rfl

theorem mapM_ofCall {calls : List Registration} {found : List Call} {source : Bytes}
    (h : List.Forall₂ Registration.Is calls found)
    (hs : ∀ call ∈ calls,
      slice source call.offset (call.offset + call.text.length) = call.text) :
    found.mapM (ofCall source) = .ok calls := by
  induction h with
  | nil => rfl
  | @cons call one calls found hi _ ih =>
    have ho : ofCall source one = .ok call := by
      rw [ofCall, if_pos hi.closed, hi.callee_eq, hi.extent_eq, Extent.of, hs call (by simp)]
    rw [List.mapM_cons, ho, ih fun call hm => hs call (by simp [hm])]
    rfl

end Registration

namespace Listing

open Cursor Lexeme

variable {listing : Listing} {front : List Token}

/-- A listing behind lines without brackets, whose calls can be told apart. -/
structure Proper (listing : Listing) (front : List Token) : Prop where
  reads : Lexer.Reads listing.preamble front
  plain : PlainLines front
  function : isIdentifier listing.function = true
  function_kind : TokenKind.ofWord listing.function = .identifier
  entries_ne : listing.entries ≠ []
  fits : ∀ entry ∈ listing.entries, entry.Fits
  lexed : Entry.Lexed (listing.lastGap ++ (ascii "])" ++ [lineFeed])) listing.entries
  gap : listing.lastGap.all isGapByte = true

/-- The lexemes of the list. -/
theorem Proper.exists_items (h : listing.Proper front) :
    ∃ items, Lexes (ascii "])" ++ [lineFeed]) listing.list items ∧
      Turn.through 0 (turnsOf items) = some 0 ∧
      ∀ offset location, ListsCalls (tokensOf offset location items)
        (Entry.registrations offset listing.entries) := by
  obtain ⟨lexemes, hl, ht, hc⟩ := lexes_entries h.fits h.lexed
  have hg := lexes_gap h.gap (ascii "])" ++ [lineFeed])
  refine ⟨lexemes ++ listing.lastGap.map gapLexeme, Lexes.append hl hg, ?_, ?_⟩
  · rw [turnsOf_append, turnsOf_gap, List.append_nil]
    exact ht
  · intro offset location
    rw [tokensOf_append]
    refine hc offset location _ ?_
    have := @listsCalls_gap listing.lastGap _ _ .nil
      (offset + (lexemes.flatMap Lexeme.text).length)
      (location.after (lexemes.flatMap Lexeme.text))
    rwa [List.append_nil] at this

/-- The outline of a listing. -/
theorem Proper.outline (h : listing.Proper front) :
    ∃ definition call,
      (Outline.ofTokens listing.source (tokenize listing.source).tokens).outline.definitions =
          [definition] ∧
        (Outline.ofTokens listing.source (tokenize listing.source).tokens).faults = [] ∧
        (tokenize listing.source).faults = [] ∧ definition.kind = .function ∧
        definition.name = listing.function ∧ definition.calls = [call] ∧
        call.callee = ascii "Package" ∧
        List.Forall₂ Registration.Is listing.registrations call.nested := by
  obtain ⟨items, hl, ht, hc⟩ := h.exists_items
  obtain ⟨start, below, first, last, offset, htokens⟩ := tokenize_source h.reads h.function hl ht
  rw [htokens]
  have hheader := Lexes.not_layout (@lexes_header _ h.function
    (lineFeed :: (listing.body ++ [lineFeed])) (by simp [lineFeed, equals]))
    listing.preamble.length start
  have hbody := Lexes.not_layout (lexes_body hl) (listing.bodyStart + 4) first
  obtain ⟨definition, call, hd, hf, hk, hn, hcalls, hcallee, hnested⟩ :=
    @ofTokens_function listing.source _ _ hc _ h.function_kind _ h.plain _ _ offset _ below _ last
      hheader hbody
  refine ⟨definition, call, hd, hf, rfl, hk, hn, hcalls, hcallee, ?_⟩
  have ho : listing.bodyStart + opening.length =
      listing.bodyStart + 4 + openingWords.length := by
    rw [opening_eq, List.length_append, ← Nat.add_assoc]
    rfl
  rw [registrations, ho]
  exact hnested

theorem registrations_ne (h : listing.entries ≠ []) : listing.registrations.isEmpty = false := by
  unfold registrations
  cases he : listing.entries with
  | nil => exact absurd he h
  | cons entry others => rfl

theorem slice_registrations (listing : Listing) : ∀ call ∈ listing.registrations,
    slice listing.source call.offset (call.offset + call.text.length) = call.text := by
  have hs : listing.source = (listing.preamble ++ (listing.header ++ lineFeed :: opening)) ++
      (listing.entries.flatMap Entry.text ++ (listing.lastGap ++ ascii "])" ++ [lineFeed])) := by
    rw [source, body]
    simp only [List.append_assoc, List.cons_append]
  have hl : (listing.preamble ++ (listing.header ++ lineFeed :: opening)).length =
      listing.bodyStart + opening.length := by
    rw [bodyStart, List.length_append, List.length_append, List.length_cons]
    omega
  have := Entry.slice_registrations hs
  rwa [hl] at this

/-- The outline of a listing has its calls. -/
theorem Proper.searchTree (h : listing.Proper front) (list : Bytes) :
    Convention.searchTree ⟨listing.function, list⟩ listing.source = .ok listing.registrations := by
  obtain ⟨definition, call, hd, hf, hl, hk, hn, hc, hcallee, hnested⟩ := h.outline
  have hfind : (Script.ofSource listing.source).outline.find? .function listing.function =
      some definition := by
    show Definition.findIn? _ _ (Outline.ofTokens _ _).outline.definitions = _
    rw [hd, Definition.findIn?]
    unfold Definition.find?
    rw [if_pos ⟨hk, hn⟩]
  have hlex : (Script.ofSource listing.source).lexicalFaults = [] := hl
  have hout : (Script.ofSource listing.source).outlineFaults = [] := hf
  have hcallees : ∀ call ∈ listing.registrations, call.callee ∈ PluginKind.callees :=
    Entry.callee_registrations h.fits _
  -- The package is no registration, so the search goes on to what is nested in it.
  have hpackage : PluginKind.callees.contains (ascii "Package") = false := by decide
  have hmatches : Call.matchesIn PluginKind.callees definition.calls = call.nested := by
    rw [hc, Call.matchesIn, Call.matchesIn, List.append_nil]
    unfold Call.matches
    rw [hcallee, if_neg (by rw [hpackage]; decide)]
    cases call
    exact Registration.matchesIn_forall₂ hnested hcallees
  have hslices : ∀ call ∈ listing.registrations,
      slice listing.source call.offset (call.offset + call.text.length) = call.text :=
    listing.slice_registrations
  have hne := registrations_ne h.entries_ne
  unfold Convention.searchTree Registration.ofFunction
  dsimp only
  rw [hlex, hfind]
  dsimp only
  rw [hmatches, Registration.mapM_ofCall hnested hslices, hout]
  dsimp only
  rw [Convention.nonempty, hne]
  rfl

end Listing

end ManifestScan
