import ManifestScan.Proofs.Signature.Header

namespace ManifestScan

open Lexeme

namespace Cursor

variable {cursor : Cursor}

/-- The tokens of a function's header, with its name, the extent of its parameters and
its annotation. -/
inductive HeaderTokens (source : Bytes) : List Token → Bytes → Extent → Option Bytes → Prop
  | intro {keyword name first close colon : Token} {inner result : List Token}
    {returns : Option Bytes} (hk : keyword.kind = .defWord) (hn : name.kind = .identifier)
    (hf : first.kind = .leftParen)
    (hi : Turn.through 0 (inner.filterMap Token.turn?) = some 0) (hl : close.kind = .rightParen)
    (hr : ReturnTokens source result returns) (hc : colon.kind = .colon) :
    HeaderTokens source (keyword :: name :: first :: (inner ++ close :: (result ++ [colon])))
      name.text ⟨first.offset, close.stop⟩ returns

/-- A function with a block of plain lines. -/
theorem block_function {header body rest : List Token} {line indent dedent : Token} {name : Bytes}
    {parameters : Extent} {returns : Option Bytes} (outermost : Bool) (pending : List Decorator)
    (ht : HeaderTokens cursor.source header name parameters returns) (hb : PlainLines body)
    (h : cursor.rest = header ++ line :: indent :: (body ++ dedent :: rest))
    (he : line.kind = .newline) (hi : indent.kind = .indent) (hd : dedent.kind = .dedent) :
    ∃ definition next, cursor.Moved next rest ∧
      (block outermost pending cursor).value = ⟨(block outermost [] next).value.calls,
        definition :: (block outermost [] next).value.definitions⟩ ∧
      (block outermost pending cursor).next = (block outermost [] next).next ∧
      definition.kind = .function ∧ definition.name = name ∧ definition.decorators = pending ∧
      definition.parameters = some parameters ∧ definition.returns = returns ∧
      definition.definitions = [] := by
  obtain @⟨keyword, name, first, close, colon, inner, result, returns, hk, hn, hf, hi', hl, hr,
      hc⟩ := ht
  simp only [List.cons_append, List.append_assoc, List.nil_append] at h
  have hm := moved_past cursor keyword (name :: first :: (inner ++ close ::
    (result ++ colon :: line :: indent :: (body ++ dedent :: rest))))
  obtain ⟨hform, hdefinition, hmoved⟩ := header_function hm.rest_eq hk hn hf hi' (by rw [hl]; rfl)
    (hm.source_eq.symm ▸ hr) hc he hi
  have hmoved := hm.trans hmoved
  obtain ⟨hv, hx⟩ := (block_keyword h outermost (.inl hk)).1 hform
  generalize Cursor.header pending keyword (cursor.past keyword _) = head
    at hv hx hdefinition hmoved
  -- The block below the header.
  obtain ⟨last, hml, hvl, hxl⟩ := block_plainLines hb false hmoved.rest_eq
  obtain ⟨hvd, hxd⟩ := block_dedent hml.rest_eq [] hd
  have hnext := (hmoved.trans hml).trans (moved_past last dedent rest)
  rw [hxl, hxd, hvl, hvd] at hv
  rw [hxl, hxd] at hx
  refine ⟨_, last.past dedent rest, hnext, hv, hx, ?_, ?_, ?_, ?_, ?_, rfl⟩
  · exact congrArg Definition.kind hdefinition
  · exact congrArg Definition.name hdefinition
  · exact congrArg Definition.decorators hdefinition
  · exact congrArg Definition.parameters hdefinition
  · exact congrArg Definition.returns hdefinition

/-- A class, with what is read in its block. -/
theorem block_class {keyword name colon line indent : Token} {bases inner : List Token}
    (outermost : Bool)
    (h : cursor.rest = keyword :: name :: (bases ++ colon :: line :: indent :: inner))
    (hk : keyword.kind = .classWord) (hn : name.kind = .identifier) (hb : BaseTokens bases)
    (hc : colon.kind = .colon) (he : line.kind = .newline) (hi : indent.kind = .indent) :
    ∃ definition start, cursor.Moved start inner ∧
      (block outermost [] cursor).value =
        ⟨(block outermost [] (block false [] start).next).value.calls,
          definition :: (block outermost [] (block false [] start).next).value.definitions⟩ ∧
      definition.kind = .type ∧ definition.name = name.text ∧ definition.body = some colon.stop ∧
      definition.extent.stop = (block false [] start).next.significant.stop ∧
      definition.definitions = (block false [] start).value.definitions := by
  have hm := moved_past cursor keyword (name :: (bases ++ colon :: line :: indent :: inner))
  obtain ⟨hform, ⟨parameters, hdefinition⟩, hmoved⟩ := header_class hm.rest_eq hk hn hb hc he hi
  have hmoved := hm.trans hmoved
  obtain ⟨hv, -⟩ := (block_keyword h outermost (.inr hk)).1 hform
  generalize Cursor.header [] keyword (cursor.past keyword _) = head at hv hdefinition hmoved
  refine ⟨_, head.next, hmoved, hv, ?_, ?_, ?_, rfl, rfl⟩
  · exact congrArg Definition.kind hdefinition
  · exact congrArg Definition.name hdefinition
  · exact congrArg Definition.body hdefinition

end Cursor

namespace IndentedLine

/-- The end of the source is the last token. -/
theorem stream_final {lines : List IndentedLine} (hp : ∀ line ∈ lines, line.IsProper) (offset : Nat)
    (location : Location) (indents : List Nat) :
    ∃ tokens final, stream offset location indents lines = tokens ++ [final] ∧
      final.kind = .endOfFile ∧ ∀ token ∈ tokens, token.kind ≠ .endOfFile := by
  induction lines generalizing offset location indents with
  | nil =>
    refine ⟨_, _, rfl, rfl, fun token hm => ?_⟩
    rw [List.eq_of_mem_replicate hm]
    nofun
  | cons line lines ih =>
    obtain ⟨hline, hlines⟩ := List.forall_mem_cons.1 hp
    have hwords (offset : Nat) (location : Location) :
        ∀ token ∈ tokensOf offset location line.lexemes, token.kind ≠ .endOfFile := by
      intro token hm he
      have := (hline.lexes []).not_layout offset location token hm
      rw [he] at this
      cases this
    by_cases h : indents.headD 0 < line.column
    · obtain ⟨tokens, final, ht, hf, hn⟩ :=
        ih hlines (offset + line.blanks.length + line.text.length + 1)
        (((location.after line.blanks).after line.text).after [lineFeed]) (line.column :: indents)
      rw [stream_deeper h, ht]
      refine ⟨_ :: (_ ++ _ :: tokens), final,
        congrArg (_ :: ·) (List.append_assoc _ (_ :: tokens) [final]).symm, hf, ?_⟩
      simp only [List.forall_mem_cons, List.forall_mem_append]
      exact ⟨nofun, hwords _ _, nofun, hn⟩
    · obtain ⟨tokens, final, ht, hf, hn⟩ :=
        ih hlines (offset + line.blanks.length + line.text.length + 1)
        (((location.after line.blanks).after line.text).after [lineFeed]) indents
      rw [stream_same h, ht]
      refine ⟨_ ++ _ :: tokens, final, (List.append_assoc _ (_ :: tokens) [final]).symm, hf, ?_⟩
      simp only [List.forall_mem_cons, List.forall_mem_append]
      exact ⟨hwords _ _, nofun, hn⟩

/-- A source of lines is read from its tokens but the last. -/
theorem script_source {lines : List IndentedLine} (hp : ∀ line ∈ lines, line.IsProper)
    (ha : Deepens 0 lines) {tokens : List Token} {final : Token}
    (ht : stream 0 Location.start [] lines = tokens ++ [final]) :
    ∃ cursor : Cursor, cursor.rest = tokens ∧ cursor.source = source lines ∧ cursor.faults = [] ∧
      Script.ofSource (source lines) =
        ⟨⟨(Cursor.block true [] cursor).value.calls,
            (Cursor.block true [] cursor).value.definitions⟩,
          [], (Cursor.block true [] cursor).next.faults.reverse⟩ := by
  obtain ⟨tokens', final', ht', hf, hn⟩ := stream_final hp 0 Location.start []
  obtain ⟨rfl, he⟩ := List.append_inj' (ht.symm.trans ht') rfl
  obtain rfl := (List.cons.inj he).1
  obtain ⟨cursor, hcursor, hrest, -, hfaults, -⟩ := Cursor.ofTokens?_snoc (source lines) hn hf
  refine ⟨cursor, hrest, Cursor.source_ofTokens? hcursor, hfaults, ?_⟩
  unfold Script.ofSource
  dsimp only
  rw [tokenize_source hp ha, ht]
  unfold Outline.ofTokens
  rw [hcursor]

theorem definitions_source {lines : List IndentedLine} (hp : ∀ line ∈ lines, line.IsProper)
    (ha : Deepens 0 lines) {tokens : List Token} {final : Token}
    (ht : stream 0 Location.start [] lines = tokens ++ [final]) :
    ∃ cursor : Cursor, cursor.rest = tokens ∧ cursor.source = source lines ∧
      (Script.ofSource (source lines)).outline.definitions =
        (Cursor.block true [] cursor).value.definitions := by
  obtain ⟨cursor, hrest, hsource, -, hscript⟩ := script_source hp ha ht
  refine ⟨cursor, hrest, hsource, ?_⟩
  rw [hscript]

end IndentedLine

namespace Signature

/-- The first definition of an outline is found under its own kind. -/
theorem find?_first {source : Bytes} {definition : Definition} {others : List Definition}
    (h : (Script.ofSource source).outline.definitions = definition :: others) :
    find? source definition.name definition.kind = some (match definition.kind with
      | .type => ofClass source definition
      | .function => ofFunction source definition) := by
  have hfind : (Script.ofSource source).outline.find? definition.kind definition.name =
      some definition := by
    unfold Outline.find?
    rw [h, Definition.findIn?]
    unfold Definition.find?
    rw [if_pos ⟨rfl, rfl⟩]
  unfold find?
  dsimp only
  rw [hfind, Option.some_or]
  exact Option.map_some _ _

/-- The only definition of an outline is found under either kind. -/
theorem find?_single {source : Bytes} {definition : Definition}
    (h : (Script.ofSource source).outline.definitions = [definition])
    (hm : definition.definitions = []) (kind : CallableKind) :
    find? source definition.name kind = some (match definition.kind with
      | .type => ofClass source definition
      | .function => ofFunction source definition) := by
  have hfind (kind : CallableKind) :
      (Script.ofSource source).outline.find? kind definition.name =
        if definition.kind = kind then some definition else none := by
    obtain ⟨form, name, decorators, parameters, returns, body, extent, span, calls, members⟩ :=
      definition
    obtain rfl : members = [] := hm
    unfold Outline.find?
    rw [h, Definition.findIn?]
    unfold Definition.find?
    by_cases hk : form = kind
    · rw [if_pos ⟨hk, rfl⟩, if_pos hk]
    · rw [if_neg fun hn => hk hn.1, if_neg hk]
      rfl
  unfold find?
  dsimp only
  rw [hfind, hfind]
  cases hk : definition.kind <;> cases kind <;> simp [hk, CallableKind.other]

end Signature

end ManifestScan
