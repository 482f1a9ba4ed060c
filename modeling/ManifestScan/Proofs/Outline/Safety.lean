import ManifestScan.Proofs.Outline.Forward
import ManifestScan.Proofs.Outline.Levels
import Mathlib.Logic.Relation

namespace ManifestScan

namespace Cursor

namespace Stage

/-- A block is taken up at the start of a line, and the outermost one with all other
blocks closed. -/
def Aligned : Stage → Prop
  | ⟨.block outermost _, cursor⟩ =>
    Laid true 0 cursor.rest ∧
      (outermost = true → Turn.through 0 (Token.shifts cursor.rest) = some 0)
  | _ => True

/-- An inner block starts right behind a token of indentation, where a line starts. -/
def Entered : Stage → Prop
  | ⟨.block outermost pending, cursor⟩ =>
    outermost = false ∧ pending = [] ∧ cursor.previous.kind = .indent ∧ Laid true 0 cursor.rest
  | _ => True

theorem Entered.aligned {stage : Stage} (h : stage.Entered) : stage.Aligned := by
  unfold Aligned
  split
  · obtain ⟨rfl, -, -, hl⟩ := h
    exact ⟨hl, nofun⟩
  · trivial

end Stage

/-- Inner blocks start behind tokens of indentation, and all blocks are aligned. -/
def Round.Proper : Round → Prop
  | .last _ => True
  | .further inner next => (∀ stage ∈ inner, stage.Entered) ∧ next.Aligned

namespace Stage

section

variable {outermost : Bool} {pending : List Decorator} {cursor : Cursor}

theorem Aligned.further (h : Aligned ⟨.block outermost pending, cursor⟩) {next : Cursor}
    (hl : Token.Level cursor.rest next.rest) (others : List Decorator) :
    Aligned ⟨.block outermost others, next⟩ :=
  ⟨hl.laid, fun ho => hl.through (h.2 ho)⟩

theorem level_after {token : Token} {cursor : Cursor} (hk : token.kind = .indent)
    (hl : Laid true 0 cursor.rest) :
    Token.Level (token :: cursor.rest) (after ⟨.block false [], cursor⟩).rest :=
  ((blockPath false [] cursor).leaves hl).level hk hl

theorem proper_body (h : Aligned ⟨.block outermost pending, cursor⟩) {keyword : Token}
    {inside body : Cursor} {definition : Definition} {form : BodyForm}
    (hk : cursor.pastAsync.pastKeyword? = some (keyword, inside))
    (hq : Cursor.header pending keyword inside = ⟨definition, form, body⟩) :
    (Round.body outermost ⟨.header pending keyword, inside⟩ form body).Proper := by
  cases form with
  | missing =>
    exact ⟨List.forall_mem_singleton.2 trivial, h.further (missing_level hk h.1 hq) []⟩
  | line =>
    have hlevel := line_level hk h.1 hq (statementPath body)
    exact ⟨by simp [Entered], h.further hlevel []⟩
  | block =>
    obtain ⟨indent, hindent, hprevious, hlevel⟩ := body_level hk h.1 hq
    have hstart := hlevel.laid.line_start (by rw [hindent]; rfl)
    refine ⟨?_, h.further (hlevel.trans (level_after hindent hstart)) []⟩
    simp [Entered, hprevious, hindent, hstart]

theorem proper_block (h : Aligned ⟨.block outermost pending, cursor⟩) :
    (Round.block outermost pending cursor).Proper := by
  fun_cases Round.block outermost pending cursor with
  | case1 => trivial
  | case2 => trivial
  | case3 token rest hr hc hk =>
    rcases hk with hk | hk
    · -- The outermost block has nothing that closes it.
      obtain rfl : outermost = true := by simpa [hk] using hc
      have ht := h.2 rfl
      rw [hr, Token.shifts_dedent hk] at ht
      cases ht
    · have hland : Token.Lands cursor.rest rest :=
        .inr ⟨[], token :: rest, hr, .newline hk, List.forall_mem_nil _⟩
      exact ⟨List.forall_mem_nil _, h.further (hland.level h.1) pending⟩
  | case4 token rest hr _ _ hk =>
    have hl := h.1
    rw [hr] at hl
    have hstart := hl.line_start (by rw [hk]; rfl)
    have hlevel := @level_after token (cursor.past token rest) hk hstart
    refine ⟨List.forall_mem_singleton.2 ⟨rfl, rfl, hk, hstart⟩, h.further ?_ pending⟩
    rwa [hr]
  | case5 token rest hr _ _ _ hk =>
    exact ⟨List.forall_mem_singleton.2 trivial, h.further (decorator_level hr hk rfl h.1) _⟩
  | case6 token rest _ _ _ _ _ keyword inside hk => exact proper_body h hk rfl
  | case7 token rest hr _ hl hi _ _ =>
    have hk := (hr ▸ h.1).isLayout_of_notMem (by simp_all)
    have hlevel := statement_level hr hk (statementPath (cursor.reportStray pending)) h.1
    exact ⟨List.forall_mem_singleton.2 trivial, h.further hlevel []⟩

end

theorem Aligned.proper {stage : Stage} (h : stage.Aligned) : stage.round.Proper := by
  obtain ⟨task, cursor⟩ := stage
  cases task with
  | block outermost pending => exact proper_block h
  | _ =>
    -- No other task leads to a block.
    simp only [round, Round.header, Round.parameters, Round.returns, Round.opening, Round.statement,
      Round.arguments, Round.callee, Round.brackets, Round.returnType, Round.lineEnd, Round.line,
      Round.name]
    repeat' split
    all_goals simp [Round.Proper, Entered, Aligned]

theorem Aligned.leads {stage next : Stage} (h : stage.Aligned) (hn : stage.Leads next) :
    next.Aligned := by
  have hp := h.proper
  unfold Leads at hn
  cases hr : stage.round with
  | last _ => rw [hr] at hn; cases hn
  | further inner last =>
    rw [hr] at hn hp
    rcases List.mem_append.1 hn with hm | hm
    · exact (hp.1 next hm).aligned
    · exact List.mem_singleton.1 hm ▸ hp.2

/-- All stages of a run are at or behind its start, and aligned. -/
theorem Aligned.run {whole stage : Stage} (h : whole.Aligned)
    (hr : Relation.ReflTransGen Leads whole stage) :
    whole.cursor.Reaches stage.cursor ∧ stage.Aligned := by
  induction hr with
  | refl => exact ⟨.refl _, h⟩
  | tail _ hn ih => exact ⟨ih.1.trans hn.forward.1, ih.2.leads hn⟩

end Stage

/-- The cursor stands in front of the token at an index, and nothing it reads is no token. -/
structure StandsAt (cursor : Cursor) (source : Bytes) (tokens : List Token) (index : Nat) :
    Prop where
  source_eq : cursor.source = source
  drop_eq : tokens.drop index = cursor.rest ++ [cursor.final]
  token_eq : tokens[index]? = some cursor.token
  previous_eq : tokens[index - 1]? = some cursor.previous
  significant_mem : cursor.significant ∈ tokens
  final_eq : cursor.final.kind = .endOfFile
  rest_ne : ∀ token ∈ cursor.rest, token.kind ≠ .endOfFile

namespace StandsAt

variable {cursor next : Cursor} {source : Bytes} {tokens passed : List Token} {index : Nat}

theorem token_mem (h : cursor.StandsAt source tokens index) : cursor.token ∈ tokens :=
  List.mem_of_getElem? h.token_eq

theorem previous_mem (h : cursor.StandsAt source tokens index) : cursor.previous ∈ tokens :=
  List.mem_of_getElem? h.previous_eq

theorem getElem?_of_drop (h : tokens.drop index = cursor.rest ++ [cursor.final]) :
    tokens[index]? = some cursor.token := by
  rw [← List.head?_drop, h, token]
  cases cursor.rest <;> rfl

theorem passes (h : cursor.StandsAt source tokens index) (hp : cursor.Passes passed next) :
    next.StandsAt source tokens (index + passed.length) := by
  have hdrop : tokens.drop index = passed ++ (next.rest ++ [next.final]) := by
    rw [h.drop_eq, hp.rest_eq, hp.final_eq, List.append_assoc]
  have hbehind : tokens.drop (index + passed.length) = next.rest ++ [next.final] := by
    rw [← List.drop_drop, hdrop, List.drop_left]
  have hmem : ∀ token ∈ passed, token ∈ tokens := fun token hm =>
    List.mem_of_mem_drop (hdrop ▸ List.mem_append_left _ hm)
  refine ⟨hp.source_eq.trans h.source_eq, hbehind, getElem?_of_drop hbehind, ?_, ?_, ?_, ?_⟩
  · rw [hp.previous_eq]
    rcases List.eq_nil_or_concat passed with rfl | ⟨front, last, rfl⟩
    · exact h.previous_eq
    · have hlast : tokens[index + front.length]? = some last := by
        rw [← List.getElem?_drop, hdrop]
        simp
      simpa using hlast
  · have hm := @List.getLastD_mem_cons _ (passed.filter (!·.kind.isLayout)) cursor.significant
    rw [← hp.significant_eq] at hm
    rcases List.mem_cons.1 hm with he | hm
    · rw [he]
      exact h.significant_mem
    · exact hmem _ (List.mem_filter.1 hm).1
  · rw [hp.final_eq]
    exact h.final_eq
  · exact fun token hm => h.rest_ne token (hp.rest_eq ▸ List.mem_append_right _ hm)

theorem reaches (h : cursor.StandsAt source tokens index) (hr : cursor.Reaches next) :
    ∃ later, index ≤ later ∧ next.StandsAt source tokens later := by
  obtain ⟨passed, hp⟩ := hr
  exact ⟨_, Nat.le_add_right _ _, h.passes hp⟩

end StandsAt

/-- The pieces of the source that are cut out in a round: the text of a decorator, and that of what
a function returns. -/
def Stage.slices : Stage → List Extent
  | ⟨.block _ _, cursor⟩ =>
    match cursor.rest with
    | mark :: rest => if mark.kind = .at then [(cursor.decorator mark rest).1.extent] else []
    | [] => []
  | ⟨.returns _, cursor⟩ =>
    match cursor.past? .arrow with
    | some inside => [⟨inside.token.offset, inside.pastReturnType.previous.stop⟩]
    | none => []
  | _ => []

theorem Stage.mem_slices {stage : Stage} {source : Bytes} {tokens : List Token} {index : Nat}
    (h : stage.cursor.StandsAt source tokens index) :
    ∀ extent ∈ stage.slices, ∃ first ∈ tokens, ∃ last ∈ tokens,
      extent = ⟨first.offset, last.stop⟩ := by
  fun_cases Stage.slices stage with
  | case1 outermost pending cursor mark rest hr hk =>
    have hmark : mark ∈ tokens := by
      have := h.token_mem
      rwa [token, hr] at this
    obtain ⟨later, -, hlater⟩ := h.reaches ((Reaches.past hr).trans (reaches_toLineEnd _))
    exact List.forall_mem_singleton.2 ⟨mark, hmark, _, hlater.previous_mem, rfl⟩
  | case2 => exact List.forall_mem_nil _
  | case3 => exact List.forall_mem_nil _
  | case4 definition cursor inside hi =>
    obtain ⟨later, -, hlater⟩ := h.reaches (reaches_past? hi)
    obtain ⟨last, -, hlast⟩ := hlater.reaches (reaches_pastReturnType inside)
    exact List.forall_mem_singleton.2 ⟨_, hlater.token_mem, _, hlast.previous_mem, rfl⟩
  | case5 => exact List.forall_mem_nil _
  | case6 => exact List.forall_mem_nil _

structure Stage.Safe (source : Bytes) (tokens : List Token) (stage : Stage) : Prop where
  after_eq : stage.after = stage.round.after
  stands : ∃ index later, index ≤ later ∧ stage.cursor.StandsAt source tokens index ∧
    stage.after.StandsAt source tokens later
  forward : stage.round.Forward stage.size stage.cursor
  slices : ∀ extent ∈ stage.slices, extent.start ≤ source.length ∧ extent.stop ≤ source.length
  entered : ∀ inner next, stage.round = .further inner next → ∀ other ∈ inner, other.Entered
  leaves : ∀ pending, stage.task = .block false pending →
    Token.Leaves stage.cursor.rest stage.after.rest
  outermost : ∀ pending, stage.task = .block true pending → stage.cursor.token.kind ≠ .dedent

theorem Stage.Aligned.safe {stage : Stage} {source : Bytes} {tokens : List Token} {index : Nat}
    (ha : stage.Aligned) (h : stage.cursor.StandsAt source tokens index)
    (hs : ∀ token ∈ tokens, token.stop ≤ source.length) : stage.Safe source tokens := by
  obtain ⟨later, hle, hlater⟩ := h.reaches stage.reaches_after
  refine ⟨stage.after_round, ⟨index, later, hle, h, hlater⟩, stage.forward_round,
    fun extent hm => ?_, fun inner next hr => ?_, ?_, ?_⟩
  · obtain ⟨first, hfirst, last, hlast, rfl⟩ := stage.mem_slices h extent hm
    exact ⟨Nat.le_trans first.offset_le_stop (hs first hfirst), hs last hlast⟩
  · have hp := ha.proper
    rw [hr] at hp
    exact hp.1
  · obtain ⟨task, cursor⟩ := stage
    rintro pending ⟨⟩
    exact (blockPath false pending cursor).leaves ha.1
  · obtain ⟨task, cursor⟩ := stage
    rintro pending ⟨⟩ hk
    have ht := ha.2 rfl
    cases hr : cursor.rest with
    | nil =>
      rw [token, hr] at hk
      cases hk.symm.trans h.final_eq
    | cons first rest =>
      rw [token, hr] at hk
      replace hk : first.kind = .dedent := hk
      rw [hr, Token.shifts_dedent hk] at ht
      cases ht

theorem significant_ofTokens? {source : Bytes} {tokens : List Token} {cursor : Cursor}
    (h : ofTokens? source tokens = some cursor) : cursor.significant = cursor.previous := by
  unfold ofTokens? at h
  split at h
  · cases h
    rfl
  · cases h

/-- A source is read from the front of its tokens on. -/
theorem exists_start (source : Bytes) : ∃ start,
    ofTokens? source (tokenize source).tokens = some start ∧
      start.StandsAt source (tokenize source).tokens 0 ∧
      Stage.Aligned ⟨.block true [], start⟩ := by
  obtain ⟨tokens, final, he, hk, hl⟩ := laid_tokenize source
  obtain ⟨start, hstart, hrest, hprevious, -, hfinal⟩ :=
    @ofTokens?_snoc source tokens final hl.not_endOfFile hk
  have hthrough := through_shifts_tokenize he
  have hdrop : (tokens ++ [final]).drop 0 = start.rest ++ [start.final] := by
    rw [hrest, hfinal]
    rfl
  have hfirst : (tokens ++ [final])[0]? = some start.previous := by
    rwa [← List.head?_eq_getElem?]
  rw [he]
  refine ⟨start, hstart, ⟨source_ofTokens? hstart, hdrop, StandsAt.getElem?_of_drop hdrop, hfirst,
    ?_, hfinal ▸ hk, hrest ▸ hl.not_endOfFile⟩, hrest ▸ hl, fun _ => hrest ▸ hthrough⟩
  rw [significant_ofTokens? hstart]
  exact List.mem_of_getElem? hfirst

end Cursor

open Cursor (Stage)

/-- Whatever the source, its tokens are read safely and up to their end. All stages stand in front
of a token and cut nothing out that starts behind the source. They lead forward, and no chain of
them is longer than five times the number of tokens. An inner block is left right behind the token
that closes it or at the end, so the outermost one comes to no such token. -/
theorem Outline.reads_safely (source : Bytes) :
    let tokens := (tokenize source).tokens
    ∃ start, Cursor.ofTokens? source tokens = some start ∧
      let whole : Stage := ⟨.block true [], start⟩
      (∀ stage, Relation.ReflTransGen Stage.Leads whole stage → stage.Safe source tokens) ∧
      (∀ chain, List.IsChain Stage.Leads (whole :: chain) → chain.length ≤ 5 * tokens.length) ∧
      whole.after.StandsAt source tokens (tokens.length - 1) ∧
      whole.after.token.kind = .endOfFile := by
  intro tokens
  obtain ⟨start, hstart, hstands, haligned⟩ := Cursor.exists_start source
  refine ⟨start, hstart, ?_⟩
  intro whole
  obtain ⟨unknown, htiling, -⟩ := tiling_tokenize source
  have hlength : tokens.length = start.rest.length + 1 := by
    simpa using congrArg List.length hstands.drop_eq
  refine ⟨fun stage h => ?_, fun chain h => ?_, ?_⟩
  · obtain ⟨hr, ha⟩ := haligned.run h
    obtain ⟨index, -, hindex⟩ := hstands.reaches hr
    exact ha.safe hindex htiling.stop_le
  · have := Stage.length_le_size h
    have hsize : whole.size = 5 * start.rest.length + 1 := rfl
    omega
  · have hrest : whole.after.rest = [] := (Cursor.blockPath true [] start).rest_nil
    obtain ⟨later, -, hlater⟩ := hstands.reaches whole.reaches_after
    have hlast := congrArg List.length hlater.drop_eq
    rw [hrest, List.length_drop] at hlast
    replace hlast : tokens.length - later = 1 := hlast
    obtain rfl : later = tokens.length - 1 := by omega
    refine ⟨hlater, ?_⟩
    rw [Cursor.token, hrest]
    exact hlater.final_eq

end ManifestScan
