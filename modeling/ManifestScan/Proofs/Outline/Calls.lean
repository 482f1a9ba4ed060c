import ManifestScan.Proofs.Lexing.Tiling
import ManifestScan.Proofs.Outline.LogicalLine
import Mathlib.Data.List.Flatten
import Mathlib.Data.List.Pairwise

namespace ManifestScan

def Extent.Holds (extent : Extent) (offset : Nat) : Prop :=
  extent.start ≤ offset ∧ offset < extent.stop

/-- The header of the definition whose body starts at an offset, from its keyword on. -/
def Token.header? (tokens : List Token) (body : Nat) : Option Extent :=
  ((lines tokens).find? (·.any (·.stop = body))).bind fun line =>
    (line.find? fun token => token.kind = .defWord ∨ token.kind = .classWord).map fun keyword =>
      ⟨keyword.offset, body⟩

namespace Outline

def allDefinitions (outline : Outline) : List Definition := Definition.allOf outline.definitions

/-- The calls at every depth, and those in the bodies of the definitions. -/
def allCalls (outline : Outline) : List Call :=
  Call.allOf outline.calls ++ outline.allDefinitions.flatMap (Call.allOf ·.calls)

def decorators (outline : Outline) : List Decorator := outline.allDefinitions.flatMap (·.decorators)

def headers (outline : Outline) (tokens : List Token) : List Extent :=
  (outline.allDefinitions.filterMap (·.body)).filterMap (Token.header? tokens)

/-- The lines in the form of a decorator that no definition has taken. -/
def strayLines (outline : Outline) (tokens : List Token) : List (List Token) :=
  (Token.lines tokens).filter (·.head?.any fun mark =>
    mark.kind = .at ∧ ∀ decorator ∈ outline.decorators, decorator.extent.start ≠ mark.offset)

end Outline

structure Token.Spaced (tokens : List Token) : Prop where
  pairwise : tokens.Pairwise fun token later => token.stop ≤ later.offset
  offset_lt : ∀ token ∈ tokens, token.offset < token.stop

theorem spaced_tokenize (source : Bytes) :
    Token.Spaced ((tokenize source).tokens.filter (!·.kind.isLayout)) := by
  obtain ⟨unknown, ht, -⟩ := tiling_tokenize source
  refine ⟨ht.pairwise.filter _, fun token hm => ?_⟩
  obtain ⟨hm, hk⟩ := List.mem_filter.1 hm
  obtain ⟨_, _, -, hf⟩ := ht.follows token hm
  have hn : token.text ≠ [] := fun he => by simp [hf.isLayout_iff.2 he] at hk
  exact Nat.lt_add_of_pos_right (List.length_pos_iff.2 hn)

def LogicalLine.Apart (line other : LogicalLine) : Prop :=
  (∀ token ∈ line.tokens, ∀ later ∈ other.tokens, token.stop ≤ later.offset) ∨
    ∀ token ∈ other.tokens, ∀ later ∈ line.tokens, token.stop ≤ later.offset

instance : Std.Symm LogicalLine.Apart := ⟨fun _ _ h => h.symm⟩

namespace Token.Spaced

variable {tokens : List Token} {lines : List LogicalLine}

theorem nodup (h : Spaced tokens) : (tokens.map (·.offset)).Nodup := by
  refine List.pairwise_map.2 (h.pairwise.imp_of_mem fun hm _ hs he => ?_)
  have := h.offset_lt _ hm
  omega

theorem of_line (h : Spaced (lines.flatMap LogicalLine.tokens)) {line : LogicalLine}
    (hl : line ∈ lines) : Spaced line.tokens := by
  have hp := h.pairwise
  rw [List.flatMap_def, List.pairwise_flatten] at hp
  exact ⟨hp.1 _ (List.mem_map_of_mem hl),
    fun token ht => h.offset_lt token (List.mem_flatMap.2 ⟨line, hl, ht⟩)⟩

/-- A token behind the start of one and before the end of another on a line is on that line. -/
theorem line_eq (h : Spaced (lines.flatMap LogicalLine.tokens)) {line other : LogicalLine}
    (hl : line ∈ lines) (ho : other ∈ lines) {token first last : Token} (ht : token ∈ line.tokens)
    (hf : first ∈ other.tokens) (hlast : last ∈ other.tokens) (hle : first.offset ≤ token.offset)
    (hlt : token.offset < last.stop) : line = other := by
  have hp := h.pairwise
  rw [List.flatMap_def, List.pairwise_flatten, List.pairwise_map] at hp
  have ha := (hp.2.imp .inl : lines.Pairwise LogicalLine.Apart).forall hl ho
  by_contra hne
  rcases ha hne with hs | hs
  · have := hs _ ht _ hf
    have := (h.of_line hl).offset_lt token ht
    omega
  · have := hs _ hlast _ ht
    omega

/-- Tokens stand between the start of the first and the end of the last. -/
theorem holds {mark : Token} {words : List Token} (h : Spaced (mark :: words)) {token : Token}
    (ht : token ∈ mark :: words) :
    Extent.Holds ⟨mark.offset, (words.getLastD mark).stop⟩ token.offset := by
  obtain ⟨hp, hlt⟩ := h
  constructor
  · rcases List.mem_cons.1 ht with rfl | hm
    · exact Nat.le_refl _
    · exact Nat.le_trans (Nat.le_of_lt (hlt mark List.mem_cons_self))
        ((List.pairwise_cons.1 hp).1 _ hm)
  · induction words generalizing mark with
    | nil =>
      rw [List.mem_singleton.1 ht]
      exact hlt mark List.mem_cons_self
    | cons word words ih =>
      obtain ⟨hfirst, hp⟩ := List.pairwise_cons.1 hp
      obtain ⟨hmark, hwords⟩ := List.forall_mem_cons.1 hlt
      show token.offset < ((word :: words).getLastD mark).stop
      rw [List.getLastD_cons]
      rcases List.mem_cons.1 ht with rfl | ht
      · have hlast : words.getLastD word ∈ word :: words := List.getLastD_mem_cons
        have := hfirst _ hlast
        have := hwords _ hlast
        omega
      · exact ih ht hp hwords

/-- A header holds the tokens from its keyword to its colon. -/
theorem holds_header {front words behind : List Token} {keyword colon : Token}
    (h : Spaced (LogicalLine.definition front keyword words colon behind).tokens) {token : Token} :
    (token ∈ words → Extent.Holds ⟨keyword.offset, colon.stop⟩ token.offset) ∧
      (token ∈ behind → ¬Extent.Holds ⟨keyword.offset, colon.stop⟩ token.offset) := by
  obtain ⟨hp, hlt⟩ := h
  rw [LogicalLine.tokens] at hp hlt
  obtain ⟨hheader, hbehind, hcross⟩ := List.pairwise_append.1 hp
  constructor
  · intro ht
    have hkeyword := (List.pairwise_cons.1 (List.pairwise_append.1 hheader).2.1).1 token ht
    have hcolon := hcross token (by simp [ht]) colon List.mem_cons_self
    have := hlt keyword (by simp)
    have := hlt token (by simp [ht])
    have := hlt colon (by simp)
    exact ⟨show keyword.offset ≤ token.offset by omega, show token.offset < colon.stop by omega⟩
  · rintro ht ⟨-, hh⟩
    have hcolon := (List.pairwise_cons.1 hbehind).1 token ht
    exact absurd hh (Nat.not_lt.2 hcolon)

end Token.Spaced

namespace LogicalLine

theorem sublist_names (line : LogicalLine) (hp : line.Proper) :
    line.names.Sublist (Token.called line.tokens) := by
  cases hp with
  | decorator => exact List.nil_sublist _
  | definition _ _ hc =>
    rw [tokens, Token.called_append (by simp [hc]) (by simp [hc]) (by simp [hc])]
    exact List.sublist_append_right _ _
  | statement => exact List.Sublist.refl _

/-- Only a decorator's line starts like one. -/
theorem Proper.eq_decorator {line : LogicalLine} (hp : line.Proper) {mark : Token}
    (hm : line.tokens.head? = some mark) (hk : mark.kind = .at) :
    ∃ words, line = .decorator mark words := by
  cases hp with
  | decorator =>
    cases hm
    exact ⟨_, rfl⟩
  | @definition front words behind keyword colon hf hd hc =>
    cases front with
    | nil =>
      cases hm
      rcases hd with hd | hd <;> cases hd.symm.trans hk
    | cons =>
      cases hm
      cases (hf _ List.mem_cons_self).symm.trans hk
  | statement ha =>
    cases hm
    exact absurd hk ha

end LogicalLine

/-- The body of a definition determines its header. -/
theorem Token.header?_eq {tokens : List Token} {lines : List LogicalLine}
    (hs : Spaced (lines.flatMap LogicalLine.tokens))
    (he : Token.lines tokens = lines.map LogicalLine.tokens)
    (hp : ∀ line ∈ lines, line.Proper) {front words behind : List Token} {keyword colon : Token}
    (hl : .definition front keyword words colon behind ∈ lines) :
    header? tokens colon.stop = some ⟨keyword.offset, colon.stop⟩ := by
  have hc : colon ∈ (LogicalLine.definition front keyword words colon behind).tokens := by
    simp [LogicalLine.tokens]
  have hline : (Token.lines tokens).find? (·.any (·.stop = colon.stop)) =
      some (LogicalLine.definition front keyword words colon behind).tokens := by
    cases hf : (Token.lines tokens).find? (·.any (·.stop = colon.stop)) with
    | none =>
      have := List.find?_eq_none.1 hf _ (he ▸ List.mem_map_of_mem hl)
      exact absurd (List.any_eq_true.2 ⟨colon, hc, by simp⟩) this
    | some found =>
      have hm := List.mem_of_find?_eq_some hf
      rw [he] at hm
      obtain ⟨line, hline, rfl⟩ := List.mem_map.1 hm
      have ha := @List.find?_some _ _ _ _ hf
      obtain ⟨token, ht, hstop⟩ := List.any_eq_true.1 ha
      -- Both end at the same offset, so each starts in front of the other's end.
      have hstop : token.stop = colon.stop := by simpa using hstop
      have htoken := (hs.of_line hline).offset_lt token ht
      have hcolon := (hs.of_line hl).offset_lt colon hc
      rcases Nat.le_total token.offset colon.offset with hle | hle
      · rw [hs.line_eq hl hline hc ht ht hle (by omega)]
      · rw [hs.line_eq hline hl ht hc hc hle (by omega)]
  have hkeyword : (LogicalLine.definition front keyword words colon behind).tokens.find?
      (fun token => token.kind = .defWord ∨ token.kind = .classWord) = some keyword := by
    cases hp _ hl with
    | definition hf hk =>
      rw [LogicalLine.tokens, List.append_assoc, List.find?_append, List.find?_eq_none.2]
      · rw [List.cons_append, List.find?_cons_of_pos (by simpa using hk)]
        rfl
      · intro token hm
        simp [hf token hm]
  rw [header?, hline, Option.bind_some, hkeyword, Option.map_some]

structure Outline.Reads (outline : Outline) (tokens : List Token) (lines : List LogicalLine) :
    Prop where
  lines_eq : Token.lines tokens = lines.map LogicalLine.tokens
  spaced : Token.Spaced (lines.flatMap LogicalLine.tokens)
  covers : Covers [] lines outline.calls outline.definitions

namespace Outline.Reads

variable {outline : Outline} {tokens : List Token} {lines : List LogicalLine}
  (h : outline.Reads tokens lines)

include h

theorem of_mem_decorators {decorator : Decorator} (hd : decorator ∈ outline.decorators) :
    ∃ mark words, .decorator mark words ∈ lines ∧
      decorator.extent = ⟨mark.offset, (words.getLastD mark).stop⟩ :=
  (h.covers.decorators decorator hd).resolve_left (List.not_mem_nil)

theorem mem_headers {header : Extent} : header ∈ outline.headers tokens ↔
    ∃ front keyword words colon behind, .definition front keyword words colon behind ∈ lines ∧
      header = ⟨keyword.offset, colon.stop⟩ := by
  have hb : ∀ body, body ∈ outline.allDefinitions.filterMap (·.body) ↔
      body ∈ lines.filterMap LogicalLine.body? := fun _ => h.covers.bodies.mem_iff
  have hh := fun front keyword words colon behind =>
    @Token.header?_eq tokens lines h.spaced h.lines_eq h.covers.proper front words behind
      keyword colon
  rw [headers, List.mem_filterMap]
  constructor
  · rintro ⟨body, hm, he⟩
    obtain ⟨line, hl, hbody⟩ := List.mem_filterMap.1 ((hb body).1 hm)
    cases line with
    | definition front keyword words colon behind =>
      cases hbody
      rw [hh front keyword words colon behind hl] at he
      exact ⟨front, keyword, words, colon, behind, hl, (Option.some.inj he).symm⟩
    | decorator => cases hbody
    | statement => cases hbody
  · rintro ⟨front, keyword, words, colon, behind, hl, rfl⟩
    exact ⟨colon.stop, (hb _).2 (List.mem_filterMap.2 ⟨_, hl, rfl⟩), hh _ _ _ _ _ hl⟩

section

variable {line : LogicalLine} (hl : line ∈ lines) {token : Token} (ht : token ∈ line.tokens)

include hl ht

/-- A header that holds a token is on the token's line. -/
theorem of_header_holds {header : Extent} (hm : header ∈ outline.headers tokens)
    (hh : header.Holds token.offset) : ∃ front keyword words colon behind,
      line = .definition front keyword words colon behind ∧
        header = ⟨keyword.offset, colon.stop⟩ := by
  obtain ⟨front, keyword, words, colon, behind, ho, rfl⟩ := h.mem_headers.1 hm
  refine ⟨front, keyword, words, colon, behind, ?_, rfl⟩
  refine h.spaced.line_eq hl ho ht ?_ ?_ hh.1 hh.2 <;> simp [LogicalLine.tokens]

theorem of_decorator_holds {decorator : Decorator} (hd : decorator ∈ outline.decorators)
    (hh : decorator.extent.Holds token.offset) : ∃ mark words, line = .decorator mark words := by
  obtain ⟨mark, words, ho, he⟩ := h.of_mem_decorators hd
  rw [he] at hh
  refine ⟨mark, words, h.spaced.line_eq hl ho ht List.mem_cons_self ?_ hh.1 hh.2⟩
  exact List.getLastD_mem_cons

theorem of_mem_strayLines {stray : List Token} (hs : stray ∈ outline.strayLines tokens)
    (hm : token.offset ∈ stray.map (·.offset)) : ∃ mark words, line = .decorator mark words := by
  obtain ⟨hs, hat⟩ := List.mem_filter.1 hs
  rw [h.lines_eq] at hs
  obtain ⟨other, ho, rfl⟩ := List.mem_map.1 hs
  obtain ⟨same, hm, he⟩ := List.mem_map.1 hm
  have hlt := (h.spaced.of_line ho).offset_lt same hm
  obtain rfl := h.spaced.line_eq hl ho ht hm hm he.le (he ▸ hlt)
  obtain ⟨mark, hmark, hk⟩ := (Option.any_eq_true _ _).1 hat
  have hk := of_decide_eq_true hk
  exact ⟨mark, (h.covers.proper line hl).eq_decorator hmark hk.1⟩

end

/-- What stands behind `@` is in a decorator or on a stray line. -/
theorem of_decorator_line {mark token : Token} {words : List Token}
    (hl : .decorator mark words ∈ lines) (ht : token ∈ mark :: words) :
    (∃ decorator ∈ outline.decorators, decorator.extent.Holds token.offset) ∨
      ∃ stray ∈ outline.strayLines tokens, token.offset ∈ stray.map (·.offset) := by
  have hs := h.spaced.of_line hl
  by_cases hd : ∃ decorator ∈ outline.decorators, decorator.extent.start = mark.offset
  · obtain ⟨decorator, hd, hstart⟩ := hd
    obtain ⟨mark', words', ho, he⟩ := h.of_mem_decorators hd
    have hstart : mark'.offset = mark.offset := by
      rw [← hstart, he]
    have hlt := (h.spaced.of_line ho).offset_lt mark' List.mem_cons_self
    have hline := h.spaced.line_eq hl ho List.mem_cons_self List.mem_cons_self List.mem_cons_self
      hstart.le (hstart ▸ hlt)
    cases hline
    exact .inl ⟨decorator, hd, he ▸ hs.holds ht⟩
  · have hm : mark.kind = .at := by
      cases h.covers.proper _ hl with
      | decorator hm => exact hm
    refine .inr ⟨mark :: words, List.mem_filter.2 ⟨?_, ?_⟩, List.mem_map_of_mem ht⟩
    · rw [h.lines_eq]
      exact List.mem_map_of_mem hl
    · simpa [hm] using hd

/-- The names in a line that stand for calls are those outside decorators, headers and
stray lines. -/
theorem mem_names {line : LogicalLine} (hl : line ∈ lines) {offset : Nat} {callee : Bytes} :
    (offset, callee) ∈ line.names ↔ (offset, callee) ∈ Token.called line.tokens ∧
      (∀ decorator ∈ outline.decorators, ¬decorator.extent.Holds offset) ∧
      (∀ header ∈ outline.headers tokens, ¬header.Holds offset) ∧
      ∀ stray ∈ outline.strayLines tokens, offset ∉ stray.map (·.offset) := by
  have hs := h.spaced.of_line hl
  constructor
  · intro hn
    have hc := (line.sublist_names (h.covers.proper line hl)).subset hn
    obtain ⟨token, ht, -, rfl⟩ := Token.mem_of_mem_calledNames hc
    -- A decorator names no call of the script, so the line is another one.
    have hline : ¬∃ mark words, line = .decorator mark words := by
      rintro ⟨mark, words, rfl⟩
      cases hn
    refine ⟨hc, fun decorator hd hh => hline (h.of_decorator_holds hl ht hd hh), ?_,
      fun stray hm ho => hline (h.of_mem_strayLines hl ht hm ho)⟩
    intro header hm hh
    obtain ⟨front, keyword, words, colon, behind, rfl, rfl⟩ := h.of_header_holds hl ht hm hh
    obtain ⟨name, hname, -, ho⟩ := Token.mem_of_mem_calledNames hn
    exact hs.holds_header.2 hname (ho ▸ hh)
  · rintro ⟨hc, hd, hh, hstray⟩
    cases line with
    | decorator mark words =>
      obtain ⟨token, ht, -, rfl⟩ := Token.mem_of_mem_calledNames hc
      rcases h.of_decorator_line hl ht with ⟨decorator, hm, ho⟩ | ⟨stray, hm, ho⟩
      · exact absurd ho (hd decorator hm)
      · exact absurd ho (hstray stray hm)
    | statement => exact hc
    | definition front keyword words colon behind =>
      cases h.covers.proper _ hl with
      | definition hf hkeyword hcolon =>
        rw [LogicalLine.tokens, Token.called_append (by simp [hcolon]) (by simp [hcolon])
          (by simp [hcolon])] at hc
        rcases List.mem_append.1 hc with hc | hc
        · obtain ⟨token, ht, hk, rfl⟩ := Token.mem_of_mem_calledNames hc
          have hwords : token ∈ words := by
            rcases List.mem_append.1 ht with hm | hm
            · cases (hf token hm).symm.trans hk
            · refine (List.mem_cons.1 hm).resolve_left fun he => ?_
              rcases he ▸ hkeyword with hd | hd <;> cases hd.symm.trans hk
          have hm := h.mem_headers.2 ⟨front, keyword, words, colon, behind, hl, rfl⟩
          exact absurd (hs.holds_header.1 hwords) (hh _ hm)
        · exact hc

theorem names_perm : (outline.allCalls.map fun call => (call.extent.start, call.callee)).Perm
    (lines.flatMap LogicalLine.names) := by
  rw [allCalls, List.map_append, List.map_flatMap]
  exact h.covers.names

theorem called_eq : Token.called tokens = lines.flatMap (Token.called ·.tokens) := by
  rw [Token.called_lines, h.lines_eq, List.flatMap_map]

theorem starts_nodup : (outline.allCalls.map (·.extent.start)).Nodup := by
  have hn : (lines.flatMap LogicalLine.names).Sublist (Token.called tokens) := by
    rw [h.called_eq]
    exact List.Sublist.flatMap_right _ fun line hl => line.sublist_names (h.covers.proper line hl)
  have hw : tokens.filter (!·.kind.isLayout) = lines.flatMap LogicalLine.tokens := by
    rw [← Token.flatten_lines, h.lines_eq, List.flatMap_def]
  have ho := (hn.map (·.1)).trans (Token.sublist_calledNames _ _ _)
  rw [hw] at ho
  have hp := h.names_perm.map (·.1)
  rw [List.map_map] at hp
  exact hp.nodup_iff.2 (h.spaced.nodup.sublist ho)

end Outline.Reads

theorem Cursor.BlockPath.rest_nil {pending : List Decorator} {cursor next : Cursor}
    {contents : Contents} (h : BlockPath true pending cursor contents next) : next.rest = [] := by
  generalize ho : true = outermost at h
  induction h with
  | nil h => exact h
  | close => cases ho
  | pass _ _ _ _ ih => exact ih ho
  | indent _ _ _ _ _ ih => exact ih ho
  | decorator _ _ _ _ ih => exact ih ho
  | missing _ _ _ ih => exact ih ho
  | line _ _ _ _ ih => exact ih ho
  | body _ _ _ _ _ ih => exact ih ho
  | statement _ _ _ _ _ ih => exact ih ho

/-- An outline without faults is read from the tokens up to the end of the file as one block. -/
theorem Outline.path_ofSource {source : Bytes} (hf : (Script.ofSource source).outlineFaults = []) :
    ∃ cursor final next, (tokenize source).tokens = cursor.rest ++ [final] ∧
      final.kind = .endOfFile ∧ Laid true 0 cursor.rest ∧ cursor.Fresh ∧
      Cursor.BlockPath true [] cursor
        ⟨(Script.ofSource source).outline.calls, (Script.ofSource source).outline.definitions⟩
          next ∧
      next.faults = [] := by
  obtain ⟨tokens, final, he, hk, hl⟩ := laid_tokenize source
  obtain ⟨cursor, hcursor, hrest, hprevious, -⟩ :=
    @Cursor.ofTokens?_snoc source tokens final hl.not_endOfFile hk
  have hfresh : cursor.Fresh := by
    cases tokens with
    | nil => exact Cursor.fresh_nil hrest
    | cons first others =>
      obtain rfl : first = cursor.previous := Option.some.inj hprevious
      exact Cursor.fresh_start hrest
  have hparsed : Outline.ofTokens source (tokenize source).tokens =
      ⟨⟨(cursor.block true []).value.calls, (cursor.block true []).value.definitions⟩,
        (cursor.block true []).next.faults.reverse⟩ := by
    rw [he, Outline.ofTokens, hcursor]
  have hfaults : (Outline.ofTokens source (tokenize source).tokens).faults = [] := hf
  rw [hparsed] at hfaults
  refine ⟨cursor, final, (cursor.block true []).next, by rw [hrest, he], hk, hrest ▸ hl, hfresh, ?_,
    List.reverse_eq_nil_iff.1 hfaults⟩
  show Cursor.BlockPath true [] cursor
    ⟨(Outline.ofTokens source (tokenize source).tokens).outline.calls,
      (Outline.ofTokens source (tokenize source).tokens).outline.definitions⟩ _
  rw [hparsed]
  exact Cursor.blockPath true [] cursor

/-- The outline of a source without faults accounts for each of its lines. -/
theorem Outline.reads_ofSource {source : Bytes} (hf : (Script.ofSource source).outlineFaults = []) :
    ∃ lines, (Script.ofSource source).outline.Reads (tokenize source).tokens lines := by
  obtain ⟨cursor, final, next, he, hk, hl, hfresh, hpath, hn⟩ := path_ofSource hf
  obtain ⟨-, -, hlines⟩ := hpath.blockLines hn hl hfresh
  obtain ⟨lines, hlines, hc⟩ := hlines.covers
  rw [hpath.rest_nil, Token.lines_nil, List.append_nil] at hlines
  have hline : Token.lines (tokenize source).tokens = lines.map LogicalLine.tokens := by
    rw [he, Token.lines_append_layout (by rw [hk]; rfl), Token.lines_nil, List.append_nil, hlines]
  refine ⟨lines, hline, ?_, hc⟩
  have hs := spaced_tokenize source
  rwa [← Token.flatten_lines, hline, ← List.flatMap_def] at hs

/-- The calls of an outline without faults are the names in the source that an argument list
follows, each once, but for those in decorators, in headers and in lines that only look like
a decorator. -/
theorem Outline.calls_exact (source : Bytes) (hf : (Script.ofSource source).outlineFaults = []) :
    let outline := (Script.ofSource source).outline
    let tokens := (tokenize source).tokens
    (outline.allCalls.map (·.extent.start)).Nodup ∧ ∀ offset callee,
      (∃ call ∈ outline.allCalls, call.extent.start = offset ∧ call.callee = callee) ↔
        (∃ front name rest, tokens = front ++ name :: rest ∧ name.offset = offset ∧
          Token.IsCalled front name rest callee) ∧
        (∀ decorator ∈ outline.decorators, ¬decorator.extent.Holds offset) ∧
        (∀ header ∈ outline.headers tokens, ¬header.Holds offset) ∧
        ∀ stray ∈ outline.strayLines tokens, offset ∉ stray.map (·.offset) := by
  intro outline tokens
  obtain ⟨lines, h⟩ := reads_ofSource hf
  refine ⟨h.starts_nodup, fun offset callee => ?_⟩
  have hnames : (∃ call ∈ outline.allCalls, call.extent.start = offset ∧ call.callee = callee) ↔
      (offset, callee) ∈ lines.flatMap LogicalLine.names := by
    rw [← h.names_perm.mem_iff, List.mem_map]
    simp only [Prod.mk.injEq]
    rfl
  rw [hnames, ← Token.mem_called, h.called_eq]
  constructor
  · intro hm
    obtain ⟨line, hl, hn⟩ := List.mem_flatMap.1 hm
    obtain ⟨hc, hkept⟩ := (h.mem_names hl).1 hn
    exact ⟨List.mem_flatMap.2 ⟨line, hl, hc⟩, hkept⟩
  · rintro ⟨hm, hkept⟩
    obtain ⟨line, hl, hc⟩ := List.mem_flatMap.1 hm
    exact List.mem_flatMap.2 ⟨line, hl, (h.mem_names hl).2 ⟨hc, hkept⟩⟩

/-- Calls within arguments, behind a header and on the value of an expression are in the outline. -/
theorem Outline.calls_exact_nested :
    let source :=
      ascii "@at(path())\nclass A(B()):\n  def f(n=unit()): page.of([find(2)])[0].close()\n"
    let outline := (Script.ofSource source).outline
    (Script.ofSource source).outlineFaults = [] ∧ (outline.allCalls.map (·.extent.start)).Nodup ∧
      outline.allCalls.map (fun call => (call.extent.start, call.callee)) =
        [(45, ascii "page.of"), (54, ascii "find"), (67, ascii ".close")] ∧
      ∃ front name rest, (tokenize source).tokens = front ++ name :: rest ∧ name.offset = 67 ∧
        Token.IsCalled front name rest (ascii ".close") := by
  intro source outline
  have hf : (Script.ofSource source).outlineFaults = [] := by decide +kernel
  have hcalls : outline.allCalls.map (fun call => (call.extent.start, call.callee)) =
      [(45, ascii "page.of"), (54, ascii "find"), (67, ascii ".close")] := by
    decide +kernel
  obtain ⟨hn, hiff⟩ := calls_exact source hf
  have hclose : (67, ascii ".close") ∈
      outline.allCalls.map fun call => (call.extent.start, call.callee) := by
    rw [hcalls]
    decide +kernel
  obtain ⟨call, hm, he⟩ := List.mem_map.1 hclose
  obtain ⟨ho, hc⟩ := Prod.ext_iff.1 he
  exact ⟨hf, hn, hcalls, ((hiff _ _).1 ⟨call, hm, ho, hc⟩).1⟩

/-- The call in a decorator at the end of a source is in no part of the outline, and no fault
tells of it. -/
theorem Outline.strayDecorator_lost :
    let source := ascii "@foo()\n"
    let script := Script.ofSource source
    script.lexicalFaults = [] ∧ script.outlineFaults = [] ∧
      script.outline.allCalls.length = 0 ∧ script.outline.allDefinitions.length = 0 ∧
      ∃ front name rest, (tokenize source).tokens = front ++ name :: rest ∧ name.offset = 1 ∧
        Token.IsCalled front name rest (ascii "foo") := by
  intro source script
  refine ⟨by decide +kernel, by decide +kernel, by decide +kernel, by decide +kernel, ?_⟩
  refine Token.mem_called.1 ?_
  decide +kernel

end ManifestScan
