import ManifestScan.Proofs.Signature.RoundTrip

namespace ManifestScan

open Lexeme

namespace Cursor

variable {cursor : Cursor} {mark line : Token} {tokens rest : List Token}

theorem moved_toLineEnd (h : cursor.rest = tokens ++ line :: rest) (hl : line.kind = .newline)
    (hp : ∀ token ∈ tokens, token.kind ≠ .newline) :
    cursor.Moved cursor.toLineEnd (line :: rest) := by
  induction tokens generalizing cursor with
  | nil =>
    rw [toLineEnd]
    split
    · exact .refl h
    · rename_i he
      cases h.symm.trans he
      rw [if_pos hl]
      exact .refl h
  | cons token tokens ih =>
    obtain ⟨htoken, htokens⟩ := List.forall_mem_cons.1 hp
    rw [toLineEnd]
    split
    · simp_all
    · rename_i he
      cases h.symm.trans he
      rw [if_neg htoken]
      have hm := moved_past cursor token (tokens ++ line :: rest)
      exact hm.trans (ih hm.rest_eq htokens)

/-- A decorator takes up its line. -/
theorem block_decorator (outermost : Bool) (pending : List Decorator)
    (h : cursor.rest = mark :: (tokens ++ line :: rest)) (hk : mark.kind = .at)
    (hl : line.kind = .newline) (hp : ∀ token ∈ tokens, token.kind ≠ .newline) :
    ∃ decorator next, decorator.text =
        slice cursor.source mark.offset (tokens.getLastD mark).stop ∧ cursor.Moved next rest ∧
      (block outermost pending cursor).value =
        (block outermost (pending ++ [decorator]) next).value ∧
      (block outermost pending cursor).next =
        (block outermost (pending ++ [decorator]) next).next := by
  have hm := moved_past cursor mark (tokens ++ line :: rest)
  have hend := moved_toLineEnd hm.rest_eq hl hp
  have hlast := ((reaches_toLineEnd _).passes
    (hm.rest_eq.trans (congrArg _ hend.rest_eq.symm))).previous_eq
  replace hend := hm.trans hend
  have hpast := past?_of_rest hend.rest_eq hl
  refine ⟨(cursor.decorator mark (tokens ++ line :: rest)).1,
    (cursor.decorator mark (tokens ++ line :: rest)).2, ?_, ?_, ?_⟩
  · show slice cursor.source mark.offset
      (cursor.past mark (tokens ++ line :: rest)).toLineEnd.previous.stop = _
    rw [hlast]
    rfl
  · unfold decorator
    dsimp only
    rw [hpast]
    exact hend.trans (moved_past _ _ _)
  · have hkinds : mark.kind ≠ .dedent ∧ mark.kind ≠ .newline ∧ mark.kind ≠ .indent := by simp [hk]
    rw [block]
    split
    · simp_all
    · rename_i he
      cases h.symm.trans he
      dsimp only
      rw [if_neg (by simp [hkinds]), dif_neg (by simp [hkinds]), dif_neg (by simp [hkinds]),
        if_pos hk]
      exact ⟨rfl, rfl⟩

end Cursor

structure IsDecorator (text : Bytes) (lexemes : List Lexeme) : Prop where
  inline : Inline text (⟨.token .at, [0x40]⟩ :: lexemes)
  isTrimmed : IsTrimmed text

namespace IsDecorator

variable {text : Bytes} {lexemes : List Lexeme}

theorem isProper (h : IsDecorator text lexemes) :
    IndentedLine.IsProper ⟨[], text, ⟨.token .at, [0x40]⟩ :: lexemes⟩ := by
  have hhead : text.head? = some 0x40 := by
    rw [← h.inline.text_eq]
    rfl
  refine ⟨nofun, fun rest => h.inline.lexes _ (.cons (by decide) rest), ?_, h.inline.flow_eq,
    h.inline.nestingAfter_eq, fun _ _ => List.cons_ne_nil _ _⟩
  exact ⟨0x40, hhead, by decide, by decide, by decide, by decide⟩

/-- The last token of the line ends where the line does. -/
theorem getLastD_stop (h : IsDecorator text lexemes) (location : Location) :
    ∃ mark tokens, tokensOf 0 location (⟨.token .at, [0x40]⟩ :: lexemes) = mark :: tokens ∧
      mark.kind = .at ∧ mark.offset = 0 ∧ (tokens.getLastD mark).stop = text.length ∧
      ∀ token ∈ tokens, token.kind.isLayout = false := by
  obtain ⟨mark, tokens, ht, hk, ho⟩ : ∃ mark tokens,
      tokensOf 0 location (⟨.token .at, [0x40]⟩ :: lexemes) = mark :: tokens ∧ mark.kind = .at ∧
        mark.offset = 0 := ⟨_, _, rfl, rfl, rfl⟩
  obtain ⟨front, last, hl, hstop⟩ :=
    getLast?_tokensOf h.isTrimmed h.inline.text_eq h.inline.isInline 0 location
  have hlayout := h.inline.tokens_not_layout 0 location
  rw [ht] at hl hlayout
  have hlast := congrArg (List.getLastD · last) hl
  rw [List.getLastD_cons, List.getLastD_concat] at hlast
  refine ⟨mark, tokens, ht, hk, ho, ?_, fun token hm => hlayout token (List.mem_cons_of_mem _ hm)⟩
  rw [hlast, hstop, Nat.zero_add]

end IsDecorator

namespace Signature.Written

variable {written : Written}

def below (written : Written) (text : Bytes) : Bytes := text ++ lineFeed :: written.source

/-- The outline of a decorated function that stands alone. -/
theorem script_below {text : Bytes} {lexemes : List Lexeme} (hd : IsDecorator text lexemes)
    (hp : written.IsProper) (hk : TokenKind.ofWord written.name = .identifier) :
    ∃ calls definition decorator start,
      Script.ofSource (written.below text) = ⟨⟨calls, [definition]⟩, [], []⟩ ∧
      decorator.text = text ∧ start = text.length + 1 + 4 + written.name.length ∧
      definition.kind = .function ∧ definition.name = written.name ∧
      definition.decorators = [decorator] ∧
      definition.parameters = some ⟨start, start + 1 + written.list.length + 1⟩ ∧
      definition.returns = written.returns ∧ definition.definitions = [] := by
  obtain ⟨inner, hint, hr⟩ := hp.exists_reads
  let first : IndentedLine := ⟨[], text, ⟨.token .at, [0x40]⟩ :: lexemes⟩
  let next := ((Location.start.after []).after text).after [lineFeed]
  have hsource : IndentedLine.source (first :: written.functionLines inner hint) =
      written.below text := by
    rw [IndentedLine.source, List.flatMap_cons]
    show text ++ [lineFeed] ++ IndentedLine.source (written.functionLines inner hint) = _
    rw [source_functionLines, List.append_assoc]
    rfl
  have hlines : ∀ line ∈ first :: written.functionLines inner hint, line.IsProper :=
    List.forall_mem_cons.2 ⟨hd.isProper, hr.isProper_functionLines hp.name⟩
  have hfront : written.below text = (text ++ [lineFeed]) ++ written.source := by
    rw [below, List.append_assoc]
    rfl
  -- The function's lines are read as if they stood alone, from behind the decorator's line on.
  obtain ⟨tokens, final, htokens, hblock⟩ := hr.block_functionLines hp hk hfront next
  obtain ⟨mark, others, hmark, hat, hoffset, hstop, hlayout⟩ := hd.getLastD_stop Location.start
  let line : Token := .layout .newline (0 + 0 + text.length + 1) next
  have hstream :
      IndentedLine.stream 0 Location.start [] (first :: written.functionLines inner hint) =
      (mark :: (others ++ line :: tokens)) ++ [final] := by
    refine (@IndentedLine.stream_same first (written.functionLines inner hint) [] 0 Location.start
      (Nat.lt_irrefl 0)).trans ?_
    have hlength : (text ++ [lineFeed]).length = 0 + 0 + text.length + 1 := by simp
    rw [hlength] at htokens
    refine (congrArg (tokensOf 0 Location.start first.lexemes ++ line :: ·) htokens).trans ?_
    rw [show tokensOf 0 Location.start first.lexemes = mark :: others from hmark]
    simp
  obtain ⟨cursor, hrest, hcursor, hfaults, hscript⟩ := IndentedLine.script_source hlines
    ⟨Nat.zero_le _, Nat.zero_le _, Nat.zero_le _, trivial⟩ hstream
  rw [hsource] at hcursor hscript
  have hnewline : ∀ token ∈ others, token.kind ≠ .newline := by
    intro token hm he
    have := hlayout token hm
    rw [he] at this
    cases this
  obtain ⟨decorator, behind, htext, hm, hv, hx⟩ :=
    Cursor.block_decorator true [] hrest hat rfl hnewline
  rw [hcursor, hoffset, hstop, below, slice, List.drop_zero, Nat.sub_zero,
    List.take_left] at htext
  obtain ⟨definition, start, hstart, hone, hend, hkind, hname, hdecorators, hparameters, hreturns,
    hmembers⟩ := hblock behind hm.rest_eq (hm.source_eq.trans hcursor) [decorator]
  refine ⟨(Cursor.block true [decorator] behind).value.calls, definition, decorator, start, ?_,
    htext, ?_, hkind, hname, hdecorators, hparameters, hreturns, hmembers⟩
  · rw [hscript, hv, hx, List.nil_append, hone, hend, hm.faults_eq, hfaults]
    rfl
  · rw [hstart, List.length_append, List.length_singleton]

end Signature.Written

end ManifestScan
