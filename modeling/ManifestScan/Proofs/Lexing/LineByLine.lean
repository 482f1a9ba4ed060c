import ManifestScan.Proofs.Lexing.BlankLine
import ManifestScan.Proofs.Lexing.Nesting
import ManifestScan.Proofs.Lexing.Segment

namespace ManifestScan

/-- A source that is read without a fault, each physical line on its own. -/
structure LineByLine (source : Bytes) : Prop where
  faults_eq : (tokenize source).faults = []
  /-- No vertical tab, form feed or carriage return. -/
  blanks : ∀ b ∈ source, b ∉ [0x0B, formFeed, carriageReturn]
  /-- The brackets of a line close each other. -/
  balanced : ∀ line, Turn.through 0 (((tokenize source).tokens.filter
    (·.span.start.line = line)).filterMap Token.turn?) = some 0
  /-- No literal goes on behind the end of its line. -/
  unbroken : ∀ token ∈ (tokenize source).tokens, lineFeed ∉ token.text
  /-- A lexer never comes to a backslash that joins two lines. -/
  unjoined : ∀ lexer, Lexer.Reached source lexer → ¬[backslash, lineFeed] <+: lexer.rest

namespace Location

variable {source : Bytes}

theorem line_ofOffset_le {start stop : Nat} (h : start ≤ stop) :
    (ofOffset source start).line ≤ (ofOffset source stop).line :=
  Nat.add_le_add_left ((List.take_prefix_take_left h).sublist.count_le lineFeed) 1

/-- Behind a line feed there is the next line. -/
theorem line_ofOffset_succ {offset : Nat} {more : Bytes}
    (h : source.drop offset = lineFeed :: more) :
    (ofOffset source (offset + 1)).line = (ofOffset source offset).line + 1 := by
  have ht : source.take (offset + 1) = source.take offset ++ [lineFeed] := by
    rw [List.take_add, h]
    rfl
  simp [ofOffset, ht, Nat.add_assoc]

end Location

/-- Where values are in order, those up to the next one are those before and those of it. -/
theorem filter_le_succ {α : Type} {f : α → Nat} {values : List α}
    (h : values.Pairwise fun value later => f value ≤ f later) (n : Nat) :
    values.filter (f · ≤ n + 1) = values.filter (f · ≤ n) ++ values.filter (f · = n + 1) := by
  induction values with
  | nil => rfl
  | cons value values ih =>
    obtain ⟨hv, h⟩ := List.pairwise_cons.1 h
    have ih := ih h
    by_cases hle : f value ≤ n
    · rw [List.filter_cons_of_pos (by simp; omega), List.filter_cons_of_pos (by simpa using hle),
        List.filter_cons_of_neg (by simp; omega), ih]
      rfl
    · have hnil : values.filter (f · ≤ n) = [] := by
        refine List.filter_eq_nil_iff.2 fun later hm => ?_
        have := hv later hm
        simp only [decide_eq_true_eq]
        omega
      rw [hnil, List.nil_append] at ih
      rw [List.filter_cons_of_neg (p := (f · ≤ n)) (by simpa using hle), hnil, List.nil_append]
      by_cases he : f value = n + 1
      · rw [List.filter_cons_of_pos (by simp; omega),
          List.filter_cons_of_pos (by simpa using he), ih]
      · rw [List.filter_cons_of_neg (by simp; omega),
          List.filter_cons_of_neg (by simpa using he), ih]

namespace Lexer

open Lexeme

variable {source : Bytes} {lexer next : Lexer}

def turns (lexer : Lexer) : List Turn := lexer.tokens.reverse.filterMap Token.turn?

theorem AddsLayout.readIndentation (lexer : Lexer) : lexer.AddsLayout lexer.readIndentation := by
  unfold Lexer.readIndentation
  dsimp only
  repeat' split
  all_goals first | exact of_eq rfl | exact AddsLayout.settle (lexer.skip _) _

theorem AddsLayout.turns_eq (h : lexer.AddsLayout next) : next.turns = lexer.turns := by
  obtain ⟨added, ht, hl⟩ := h
  have hnone := Token.turns_layout fun token hm => hl token (List.mem_reverse.1 hm)
  rw [turns, ht, List.reverse_append, List.filterMap_append, hnone, List.append_nil]
  rfl

theorem turns_take_eq (lexer : Lexer) (lexeme : Lexeme) :
    (lexer.take lexeme).turns = lexer.turns ++ lexeme.turn?.toList := by
  obtain ⟨kind, text⟩ := lexeme
  cases kind with
  | lineBreak =>
    have hadds : lexer.AddsLayout (lexer.take ⟨.lineBreak, text⟩) := by
      unfold take
      dsimp only
      split
      · exact (AddsLayout.endLine (lexer.skip text)).trans (.of_eq rfl)
      · exact .of_eq rfl
    rw [hadds.turns_eq]
    exact (List.append_nil _).symm
  | token kind =>
    cases hk : kind.turn? <;> simp [turns, take, skip, addToken, Lexeme.turn?, Token.turn?, hk]
  | unclosed => simp [turns, take, skip, addToken, report, Lexeme.turn?, Token.turn?,
      TokenKind.turn?, TokenKind.isOpening, TokenKind.isClosing]
  | _ => simp [turns, take, skip, report, Lexeme.turn?]

theorem nesting_take_eq (lexer : Lexer) (lexeme : Lexeme) :
    (lexer.take lexeme).nesting = nestingAfter lexer.nesting [lexeme] := by
  obtain ⟨kind, text⟩ := lexeme
  cases kind with
  | lineBreak =>
    unfold take
    dsimp only
    split
    · exact nesting_endLine _
    · rfl
  | _ => rfl

namespace Reached

/-- Where no bracket closes what nothing opened, the depth is that of the brackets read. -/
theorem nesting_of_through (h : Reached source lexer) {depth : Nat}
    (hd : Turn.through 0 lexer.turns = some depth) : lexer.nesting = depth := by
  induction h generalizing depth with
  | start =>
    cases hd
    rfl
  | @step lexer b rest _ hr ih =>
    unfold Lexer.step at hd ⊢
    split at hd
    · rw [(AddsLayout.readIndentation lexer).turns_eq] at hd
      rw [if_pos ‹_›, nesting_readIndentation]
      exact ih hd
    · rw [turns_take_eq, Turn.through_append] at hd
      obtain ⟨middle, hm, hd⟩ := Option.bind_eq_some_iff.1 hd
      rw [if_neg ‹_›, nesting_take_eq, ih hm]
      simpa using @nestingAfter_one _ 0 _ _ hd

/-- The tokens of a source are those read and those that come later. -/
theorem exists_later (h : Reached source lexer) (hp : Path next lexer) :
    ∃ later, (tokenize source).tokens = next.tokens.reverse ++ later ∧
      ∀ token ∈ later, next.offset ≤ token.offset := by
  have hprecedes : next.Precedes (Lexer.start source).run.finish := by
    rw [h.run_eq]
    exact .of_path (hp.trans ((Path.run lexer).trans (.finish _)))
  obtain ⟨added, ha, hle⟩ := hprecedes.tokens
  refine ⟨added.reverse, ?_, fun token hm => hle token (List.mem_reverse.1 hm)⟩
  unfold tokenize
  dsimp only
  rw [ha, List.reverse_append]

theorem mem_tokens (h : Reached source lexer) :
    ∀ token ∈ lexer.tokens, token ∈ (tokenize source).tokens := by
  intro token hm
  obtain ⟨later, ht, -⟩ := h.exists_later (.refl lexer)
  rw [ht]
  exact List.mem_append_left _ (List.mem_reverse.2 hm)

theorem faults_eq (h : Reached source lexer) (hf : (tokenize source).faults = []) :
    lexer.faults = [] := by
  refine ((Precedes.run lexer).trans (.finish _)).faults_nil ?_
  rw [← h.run_eq]
  exact List.reverse_eq_nil_iff.1 hf

end Reached

/-- No token that is read ends behind the lexer. -/
theorem Path.stop_le (h : Path lexer next)
    (ht : ∀ token ∈ lexer.tokens, token.stop ≤ lexer.offset) :
    ∀ token ∈ next.tokens, token.stop ≤ next.offset := by
  have hskip {tokens : List Token} {offset : Nat} (ht : ∀ token ∈ tokens, token.stop ≤ offset)
      (n : Nat) : ∀ token ∈ tokens, token.stop ≤ offset + n :=
    fun token hm => Nat.le_add_right_of_le (ht token hm)
  induction h with
  | trans _ _ ih ih' => exact ih' (ih ht)
  | same _ ho _ he _ =>
    rw [he, ho]
    exact ht
  | gap => exact hskip ht _
  | layout => exact List.forall_mem_cons.2 ⟨Nat.le_refl _, ht⟩
  | token => exact List.forall_mem_cons.2 ⟨Nat.le_refl _, hskip ht _⟩
  | unclosed => exact List.forall_mem_cons.2 ⟨Nat.le_refl _, hskip ht _⟩
  | unknown => exact hskip ht _
  | unindent => exact ht

end Lexer

namespace LineByLine

variable {source : Bytes} {lexer : Lexer}

theorem line_eq {token : Token} (hm : token ∈ (tokenize source).tokens) :
    token.span.start.line = (Location.ofOffset source token.offset).line := by
  obtain ⟨unknown, ht, -⟩ := tiling_tokenize source
  obtain ⟨_, _, -, hf⟩ := ht.follows token hm
  rw [hf.span_eq]

/-- The brackets up to the end of a line close each other. -/
theorem through_lines (h : LineByLine source) (line : Nat) :
    Turn.through 0 (((tokenize source).tokens.filter
      (·.span.start.line ≤ line)).filterMap Token.turn?) = some 0 := by
  induction line with
  | zero =>
    have hzero : ∀ token : Token, decide (token.span.start.line ≤ 0) =
      decide (token.span.start.line = 0) := by simp
    simp only [hzero]
    exact h.balanced 0
  | succ line ih =>
    obtain ⟨unknown, ht, -⟩ := tiling_tokenize source
    have hp : (tokenize source).tokens.Pairwise fun token later =>
        token.span.start.line ≤ later.span.start.line := by
      refine ht.pairwise.imp_of_mem fun {token later} hm hl hs => ?_
      rw [line_eq hm, line_eq hl]
      exact Location.line_ofOffset_le (Nat.le_trans (Nat.le_add_right _ _) hs)
    rw [filter_le_succ hp, List.filterMap_append, Turn.through_append, ih]
    exact h.balanced (line + 1)

/-- At the end of a line no bracket is open. -/
theorem nesting_eq_zero (h : LineByLine source) (hr : Lexer.Reached source lexer)
    (hs : lexer.atLineStart = false) {more : Bytes} (hl : lexer.rest = lineFeed :: more) :
    lexer.nesting = 0 := by
  have hpath : Lexer.Path (lexer.skip [lineFeed]) (lexer.step lineFeed more) := by
    have hread : Lexeme.read lineFeed more = ⟨.lineBreak, [lineFeed]⟩ := rfl
    unfold Lexer.step
    rw [if_neg (by simp [hs]), hread]
    unfold Lexer.take
    dsimp only
    split
    · exact (Lexer.Path.endLine _).trans (.same rfl rfl rfl rfl rfl)
    · exact .refl _
  obtain ⟨later, ht, hlater⟩ := (hr.step hl).exists_later hpath
  replace ht : (tokenize source).tokens = lexer.tokens.reverse ++ later := ht
  have hbefore := hr.path.stop_le (List.forall_mem_nil _)
  have hdrop : source.drop lexer.offset = lineFeed :: more := hr.stands.rest_eq ▸ hl
  have hnext := Location.line_ofOffset_succ hdrop
  -- What is read stands on the lines up to this one, and the rest on those behind it.
  have hturns : lexer.turns = ((tokenize source).tokens.filter
      (·.span.start.line ≤ (Location.ofOffset source lexer.offset).line)).filterMap
        Token.turn? := by
    rw [Lexer.turns]
    congr 1
    have hself : lexer.tokens.reverse.filter
        (·.span.start.line ≤ (Location.ofOffset source lexer.offset).line) =
          lexer.tokens.reverse := by
      refine List.filter_eq_self.2 fun token hm => ?_
      have hle : token.offset ≤ lexer.offset :=
        Nat.le_trans (Nat.le_add_right _ _) (hbefore token (List.mem_reverse.1 hm))
      rw [line_eq (by rw [ht]; exact List.mem_append_left _ hm)]
      exact decide_eq_true (Location.line_ofOffset_le hle)
    have hnone : later.filter
        (·.span.start.line ≤ (Location.ofOffset source lexer.offset).line) = [] := by
      refine List.filter_eq_nil_iff.2 fun token hm => ?_
      have hle : lexer.offset + 1 ≤ token.offset := hlater token hm
      have := @Location.line_ofOffset_le source _ _ hle
      rw [line_eq (by rw [ht]; exact List.mem_append_right _ hm), decide_eq_true_eq]
      omega
    rw [ht, List.filter_append, hself, hnone, List.append_nil]
  refine hr.nesting_of_through ?_
  rw [hturns]
  exact h.through_lines _

/-- Lines are joined by backslashes only. -/
theorem of_plain (hf : (tokenize source).faults = [])
    (hb : ∀ b ∈ source, b ∉ [0x0B, formFeed, carriageReturn, backslash])
    (hz : ∀ token ∈ (tokenize source).tokens, Turn.through 0 (((tokenize source).tokens.filter
      (·.span.start.line = token.span.start.line)).filterMap Token.turn?) = some 0)
    (hu : ∀ token ∈ (tokenize source).tokens, lineFeed ∉ token.text) : LineByLine source where
  faults_eq := hf
  blanks b hm := by
    have := hb b hm
    simp_all
  balanced line := by
    cases hl : (tokenize source).tokens.filter (·.span.start.line = line) with
    | nil => rfl
    | cons token rest =>
      have hm : token ∈ (tokenize source).tokens.filter (·.span.start.line = line) := by simp [hl]
      obtain ⟨htoken, he⟩ := List.mem_filter.1 hm
      obtain rfl : token.span.start.line = line := by simpa using he
      rw [← hl]
      exact hz token htoken
  unbroken := hu
  unjoined lexer hr := by
    rintro ⟨behind, he⟩
    have hm : backslash ∈ source := by
      refine List.mem_of_mem_drop (i := lexer.offset) ?_
      rw [← hr.stands.rest_eq, ← he]
      simp
    exact hb backslash hm (by simp)

end LineByLine

end ManifestScan
