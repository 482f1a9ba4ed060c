import ManifestScan.Proofs.Lexing.Lines
import ManifestScan.Proofs.Lexing.Parallel
import ManifestScan.Proofs.Lexing.Tiling
import ManifestScan.Proofs.Lexing.Within
import Mathlib.Logic.Function.Iterate

namespace ManifestScan

/-- A line without a token: blanks, a comment or none, and the end of the line. -/
structure BlankLine where
  blanks : Bytes
  comment : Bytes
  ending : Bytes
  isIndentByte : ∀ b ∈ blanks, Lexer.isIndentByte b = true
  isComment : comment = [] ∨ comment.head? = some hash ∧ lineFeed ∉ comment
  isEnding : ending = [lineFeed] ∨ ending = [carriageReturn, lineFeed]

def BlankLine.text (line : BlankLine) : Bytes := line.blanks ++ (line.comment ++ line.ending)

namespace Lexer

open Lexeme

variable {lexer other : Lexer} {b b' text : Bytes}

theorem skip_skip (lexer : Lexer) (text more : Bytes) :
    (lexer.skip text).skip more = lexer.skip (text ++ more) := by
  simp [skip, location_after_append, Nat.add_assoc]

/-- The start of a line, by the first byte behind its blanks. -/
theorem readIndentation_eq {blanks behind : Bytes} {c : UInt8}
    (hb : ∀ b ∈ blanks, isIndentByte b = true) (hc : isIndentByte c = false)
    (hr : lexer.rest = blanks ++ c :: behind) :
    lexer.readIndentation =
      if c = carriageReturn ∧ behind.head? = some lineFeed then
        (lexer.skip blanks).skip [c, lineFeed]
      else if c = lineFeed then (lexer.skip blanks).skip [c]
      else if c = hash then (lexer.skip blanks).skip (c :: behind.takeWhile (· != lineFeed))
      else (lexer.skip blanks).settle (indentColumn blanks) := by
  have ht : lexer.rest.takeWhile isIndentByte = blanks := by
    rw [hr, List.takeWhile_append_of_pos hb, List.takeWhile_cons_of_neg (by simp [hc]),
      List.append_nil]
  have hd : (lexer.skip blanks).rest = c :: behind := by
    rw [rest_skip, hr, List.drop_left]
  unfold readIndentation
  rw [ht]
  dsimp only
  rw [hd]

/-- A line without a token is passed and nothing else happens. -/
theorem run_blankLine (line : BlankLine) (hs : lexer.atLineStart = true) (hn : lexer.nesting = 0)
    (hr : lexer.rest = line.text ++ b) : lexer.run = (lexer.skip line.text).run := by
  obtain ⟨blanks, comment, ending, hblanks, hcomment, hending⟩ := line
  have hstep {lexer : Lexer} (hs : lexer.atLineStart = true) (hn : lexer.nesting = 0)
      {blanks behind : Bytes} {c : UInt8} (hr : lexer.rest = blanks ++ c :: behind) :
      lexer.run = lexer.readIndentation.run := by
    obtain ⟨d, rest, hd⟩ : ∃ d rest, lexer.rest = d :: rest := by
      rw [hr]
      cases blanks with
      | nil => exact ⟨_, _, rfl⟩
      | cons d blanks => exact ⟨_, _, rfl⟩
    rw [run_cons hd, step, if_pos ⟨hs, hn⟩]
  have hend {lexer : Lexer} (hs : lexer.atLineStart = true) (hn : lexer.nesting = 0)
      {blanks : Bytes} (hb : ∀ b ∈ blanks, isIndentByte b = true)
      (hr : lexer.rest = blanks ++ lineFeed :: b) :
      lexer.run = (lexer.skip (blanks ++ [lineFeed])).run := by
    rw [hstep hs hn hr, readIndentation_eq hb (by decide) hr,
      if_neg (by simp [lineFeed, carriageReturn]), if_pos rfl, skip_skip]
  unfold BlankLine.text at hr ⊢
  dsimp only at hr ⊢
  rcases hcomment with rfl | ⟨hh, hl⟩
  · rcases hending with rfl | rfl
    · exact hend hs hn hblanks (by simpa using hr)
    · have hr' : lexer.rest = blanks ++ carriageReturn :: lineFeed :: b := by simpa using hr
      rw [hstep hs hn hr', readIndentation_eq hblanks (by decide) hr', if_pos ⟨rfl, rfl⟩, skip_skip]
      rfl
  · obtain ⟨more, rfl⟩ := eq_cons_of_head? hh
    -- A carriage return in front of the line end belongs to the comment.
    obtain ⟨last, hlast, he⟩ : ∃ last, ending = last ++ [lineFeed] ∧ lineFeed ∉ last := by
      rcases hending with rfl | rfl
      · exact ⟨[], rfl, by simp⟩
      · exact ⟨[carriageReturn], rfl, by decide⟩
    have hline : lineFeed ∉ more ++ last := by
      rw [List.mem_append, not_or]
      exact ⟨fun hm => hl (List.mem_cons_of_mem _ hm), he⟩
    have hr' : lexer.rest = blanks ++ hash :: (more ++ last ++ lineFeed :: b) := by
      rw [hr, hlast]
      simp
    have htake : (more ++ last ++ lineFeed :: b).takeWhile (· != lineFeed) = more ++ last :=
      takeWhile_ne_append hline rfl
    have hrest : (lexer.skip (blanks ++ hash :: (more ++ last))).rest = lineFeed :: b := by
      rw [rest_skip, hr']
      simp
    rw [hstep hs hn hr', readIndentation_eq hblanks (by decide) hr',
      if_neg (by simp [hash, carriageReturn]), if_neg (by decide), if_pos rfl, htake, skip_skip,
      @hend (lexer.skip (blanks ++ hash :: (more ++ last))) hs hn [] (List.forall_mem_nil _) hrest,
      skip_skip, hlast]
    simp

theorem kind_of_atLineStart_take {lexeme : Lexeme}
    (h : (lexer.take lexeme).atLineStart = true) :
    lexer.atLineStart = true ∨ lexeme.kind = .lineBreak := by
  obtain ⟨kind, text⟩ := lexeme
  cases kind with
  | lineBreak => exact .inr rfl
  | _ => exact .inl h

theorem eq_lineFeed_of_kind {c : UInt8} {rest : Bytes} (h : (read c rest).kind = .lineBreak) :
    c = lineFeed ∧ (read c rest).text = [lineFeed] := by
  have hf := form_read c rest
  generalize read c rest = lexeme at h hf ⊢
  cases hf with
  | lineBreak hb =>
    subst hb
    exact ⟨rfl, rfl⟩
  | _ => cases h

/-- Two lexers that have read the same tokens and are in front of the same text, but that it ends
with `b` for one of them and with `b'` for the other. -/
structure Swapped (b b' text : Bytes) (lexer other : Lexer) : Prop
    extends Parallel id lexer other where
  rest : lexer.rest = text ++ b
  rest' : other.rest = text ++ b'

namespace Swapped

theorem skip (h : Swapped b b' text lexer other) {part : Bytes} (hp : part.length ≤ text.length) :
    Swapped b b' (text.drop part.length) (lexer.skip part) (other.skip part) where
  toParallel := h.toParallel.skip part part
  rest := by rw [rest_skip, h.rest, List.drop_append_of_le_length hp]
  rest' := by rw [rest_skip, h.rest', List.drop_append_of_le_length hp]

theorem settle (h : Swapped b b' text lexer other) (column : Nat) :
    Swapped b b' text (lexer.settle column) (other.settle column) where
  toParallel := h.toParallel.settle column
  rest := (rest_settle _ _).trans h.rest
  rest' := (rest_settle _ _).trans h.rest'

theorem take (h : Swapped b b' text lexer other) {lexeme : Lexeme}
    (hl : lexeme.text.length ≤ text.length) :
    Swapped b b' (text.drop lexeme.text.length) (lexer.take lexeme) (other.take lexeme) where
  toParallel := h.toParallel.take lexeme.kind rfl
  rest := by rw [rest_take, h.rest, List.drop_append_of_le_length hl]
  rest' := by rw [rest_take, h.rest', List.drop_append_of_le_length hl]

/-- The indentation of a line reaches to its end at most. -/
theorem readIndentation {line : Bytes} (h : Swapped b b' (line ++ [lineFeed]) lexer other) :
    ∃ text, Swapped b b' text lexer.readIndentation other.readIndentation := by
  have hblanks : ∀ b ∈ line.takeWhile isIndentByte, isIndentByte b = true :=
    fun _ => List.mem_takeWhile_imp
  obtain ⟨c, behind, hd, hc, hl⟩ : ∃ c behind,
      line.dropWhile isIndentByte ++ [lineFeed] = c :: behind ∧ isIndentByte c = false ∧
        (c = lineFeed ∨ ∃ more, behind = more ++ [lineFeed]) := by
    have hn := List.head?_dropWhile_not isIndentByte line
    cases hw : line.dropWhile isIndentByte with
    | nil => exact ⟨lineFeed, [], rfl, by decide, .inl rfl⟩
    | cons c rest =>
      rw [hw] at hn
      exact ⟨c, rest ++ [lineFeed], rfl, by simpa using hn, .inr ⟨rest, rfl⟩⟩
  have hline : line ++ [lineFeed] = line.takeWhile isIndentByte ++ c :: behind := by
    rw [← hd, ← List.append_assoc, List.takeWhile_append_dropWhile]
  generalize line.takeWhile isIndentByte = blanks at hblanks hline
  rw [hline] at h
  have hle : blanks.length ≤ (blanks ++ c :: behind).length := by simp
  have hskip := h.skip hle
  rw [List.drop_left] at hskip
  have hr : lexer.rest = blanks ++ c :: (behind ++ b) := by
    rw [h.rest, List.append_assoc, List.cons_append]
  have hr' : other.rest = blanks ++ c :: (behind ++ b') := by
    rw [h.rest', List.append_assoc, List.cons_append]
  rw [readIndentation_eq hblanks hc hr, readIndentation_eq hblanks hc hr']
  -- No branch looks behind the line feed, and up to there both texts are the same.
  by_cases hfeed : c = lineFeed
  · have hreturn (more : Bytes) : ¬(c = carriageReturn ∧ more.head? = some lineFeed) := by
      rintro ⟨he, -⟩
      rw [hfeed] at he
      cases he
    rw [if_neg (hreturn _), if_neg (hreturn _), if_pos hfeed, if_pos hfeed]
    exact ⟨_, hskip.skip (by simp)⟩
  · obtain ⟨more, rfl⟩ := hl.resolve_left hfeed
    have hhead (rest : Bytes) :
        (more ++ [lineFeed] ++ rest).head? = (more ++ [lineFeed]).head? := by
      cases more <;> rfl
    have htake (rest : Bytes) : (more ++ [lineFeed] ++ rest).takeWhile (· != lineFeed) =
        more.takeWhile (· != lineFeed) := by
      rw [List.append_assoc]
      exact takeWhile_line more rest
    have hcomment := (@List.takeWhile_prefix _ more (· != lineFeed)).length_le
    rw [hhead, hhead, htake, htake, if_neg hfeed, if_neg hfeed]
    split
    · exact ⟨_, hskip.skip (by simp)⟩
    split
    · refine ⟨_, hskip.skip ?_⟩
      simp only [List.length_cons, List.length_append]
      omega
    · exact ⟨_, hskip.settle _⟩

/-- A lexeme that ends in the text is the same for both, unless it ends with it. -/
theorem read_eq {c : UInt8} {line : Bytes} (hl : (c :: line).getLast? = some lineFeed)
    (ht : (read c (line ++ b)).text.length < (c :: line).length) :
    read c (line ++ b') = read c (line ++ b) := by
  obtain ⟨front, hfront⟩ := List.getLast?_eq_some_iff.1 hl
  have hpos := List.length_pos_iff.2 (read_text_ne_nil c (line ++ b))
  cases front with
  | nil =>
    have := congrArg List.length hfront
    simp only [List.nil_append, List.length_singleton] at this
    omega
  | cons d front =>
    rw [List.cons_append] at hfront
    obtain ⟨rfl, rfl⟩ := List.cons.inj hfront
    rw [List.append_assoc] at ht
    rw [List.append_assoc, List.append_assoc]
    refine read_line b' (List.prefix_of_prefix_length_le (prefix_read _ _) ?_ ?_)
    · exact List.prefix_append (c :: front) (lineFeed :: b)
    · simp only [List.length_cons, List.length_append, List.length_nil] at ht
      exact Nat.le_of_lt_succ ht

/-- The two step together as long as what is read ends in the text, and starts a new line where it
ends with it. -/
theorem step {c : UInt8} {line : Bytes} (h : Swapped b b' (c :: line) lexer other)
    (hl : (c :: line).getLast? = some lineFeed)
    (hs : lexer.atLineStart = true → lexer.nesting = 0)
    (hle : b.length ≤ (lexer.step c (line ++ b)).rest.length)
    (hb : (lexer.step c (line ++ b)).rest = b → (lexer.step c (line ++ b)).atLineStart = true) :
    ∃ text, Swapped b b' text (lexer.step c (line ++ b)) (other.step c (line ++ b')) := by
  unfold Lexer.step at hle hb ⊢
  rw [h.atLineStart, h.nesting]
  by_cases hstart : lexer.atLineStart = true ∧ lexer.nesting = 0
  · rw [if_pos hstart, if_pos hstart]
    obtain ⟨front, hfront⟩ := List.getLast?_eq_some_iff.1 hl
    rw [hfront] at h
    exact h.readIndentation
  rw [if_neg hstart] at hle hb
  rw [if_neg hstart, if_neg hstart]
  have hp := (prefix_read c (line ++ b)).length_le
  rw [rest_take, h.rest, List.length_drop] at hle
  have hlen : (read c (line ++ b)).text.length ≤ (c :: line).length := by
    simp only [List.length_append, List.length_cons] at hle hp ⊢
    omega
  suffices hread : read c (line ++ b') = read c (line ++ b) by
    rw [hread]
    exact ⟨_, h.take hlen⟩
  by_cases hlt : (read c (line ++ b)).text.length < (c :: line).length
  · exact read_eq hl hlt
  -- What ends with the text is the line feed alone.
  have hbreak : (read c (line ++ b)).kind = .lineBreak := by
    have hrest : (lexer.take (read c (line ++ b))).rest = b := by
      rw [rest_take, h.rest, Nat.le_antisymm hlen (Nat.le_of_not_lt hlt), List.drop_left]
    refine (kind_of_atLineStart_take (hb hrest)).resolve_left fun hf => hstart ⟨hf, hs hf⟩
  obtain ⟨rfl, htext⟩ := eq_lineFeed_of_kind hbreak
  rw [htext] at hlt
  have hline : line = [] := by
    by_contra hn
    have := List.length_pos_iff.2 hn
    simp only [List.length_cons, List.length_nil] at hlt
    omega
  rw [hline]
  rfl

end Swapped

theorem nesting_closeBlocks (column : Nat) (lexer : Lexer) (indents : List Nat) :
    (closeBlocks column lexer indents).nesting = lexer.nesting := by
  obtain ⟨_, _, h⟩ := exists_closes column lexer indents
  exact h.nesting_eq

theorem nesting_readIndentation (lexer : Lexer) :
    lexer.readIndentation.nesting = lexer.nesting := by
  have hsettle (lexer : Lexer) (column : Nat) : (lexer.settle column).nesting = lexer.nesting := by
    unfold settle
    dsimp only
    repeat' split
    all_goals first | rfl | exact nesting_closeBlocks _ _ _
  unfold readIndentation
  dsimp only
  repeat' split
  all_goals first | rfl | exact hsettle _ _

theorem nesting_endLine (lexer : Lexer) : lexer.endLine.nesting = lexer.nesting := by
  rw [endLine_eq]
  split <;> rfl

/-- Only outside of all brackets the end of a line starts another. -/
theorem nesting_take {lexeme : Lexeme} (h : (lexer.take lexeme).atLineStart = true)
    (hs : lexer.atLineStart ≠ true) : (lexer.take lexeme).nesting = 0 := by
  have hk := (kind_of_atLineStart_take h).resolve_left hs
  obtain ⟨kind, text⟩ := lexeme
  cases hk
  unfold take at h ⊢
  dsimp only at h ⊢
  by_cases hn : (lexer.skip text).nesting = 0
  · rw [if_pos hn]
    exact (nesting_endLine _).trans hn
  · rw [if_neg hn] at h
    exact absurd h hs

/-- A line starts outside of all brackets. -/
theorem Reached.nesting_eq_zero {source : Bytes} (h : Reached source lexer)
    (hs : lexer.atLineStart = true) : lexer.nesting = 0 := by
  induction h with
  | start => rfl
  | @step lexer b rest _ hr ih =>
    by_cases hstart : lexer.atLineStart = true ∧ lexer.nesting = 0
    · have he : lexer.step b rest = lexer.readIndentation := if_pos hstart
      rw [he, nesting_readIndentation]
      exact hstart.2
    · have he : lexer.step b rest = lexer.take (read b rest) := if_neg hstart
      rw [he] at hs ⊢
      exact nesting_take hs fun hl => hstart ⟨hl, ih hl⟩

theorem Reached.run_eq {source : Bytes} (h : Reached source lexer) :
    (Lexer.start source).run = lexer.run := by
  induction h with
  | start => rfl
  | step _ hr ih => rw [ih, run_cons hr]

/-- One step, if there is something to read. -/
def next (lexer : Lexer) : Lexer :=
  match lexer.rest with
  | [] => lexer
  | b :: rest => lexer.step b rest

theorem Reached.iterate (source : Bytes) (n : Nat) :
    Reached source (next^[n] (Lexer.start source)) := by
  induction n with
  | zero => exact .start
  | succ n ih =>
    rw [Function.iterate_succ_apply']
    generalize next^[n] (Lexer.start source) = lexer at ih
    unfold next
    split
    · exact ih
    · rename_i hr
      exact .step ih hr

/-- On its way to a place where a line starts, a lexer reads nothing behind it. -/
theorem Reached.swap {a : Bytes} (ha : a = [] ∨ a.getLast? = some lineFeed)
    (h : Reached (a ++ b) lexer) (hr : lexer.rest = text ++ b)
    (hs : text = [] → lexer.atLineStart = true) :
    ∃ other, Reached (a ++ b') other ∧ Swapped b b' text lexer other := by
  induction h generalizing text with
  | start =>
    obtain rfl : a = text := List.append_cancel_right hr
    exact ⟨Lexer.start (a ++ b'), .start, ⟨rfl, rfl, rfl, rfl, rfl⟩, rfl, rfl⟩
  | @step lexer c rest h hrest ih =>
    obtain ⟨part, hpart⟩ : ∃ part, lexer.rest = part ++ (lexer.step c rest).rest := by
      have hle := (Precedes.of_path (.step lexer hrest)).offset_le
      have hnext := (Reached.step h hrest).stands.rest_eq
      rw [← Nat.sub_add_cancel hle, Nat.add_comm, ← List.drop_drop, ← h.stands.rest_eq] at hnext
      exact ⟨_, by rw [hnext, List.take_append_drop]⟩
    have hwhole : lexer.rest = (part ++ text) ++ b := by
      rw [hpart, hr, List.append_assoc]
    -- A step that takes nothing leaves the start of a line, so it does not lead to one.
    have hne : part ++ text ≠ [] := by
      intro he
      have hlt := work_step_lt hrest
      have hstart := hs (List.append_eq_nil_iff.1 he).2
      have hlength := congrArg List.length hpart
      rw [(List.append_eq_nil_iff.1 he).1] at hlength
      have hflag := Bool.toNat_le lexer.atLineStart
      simp only [work, hstart, Bool.toNat_true, List.nil_append] at hlt hlength
      omega
    obtain ⟨other, hother, hswapped⟩ := ih hwhole fun he => absurd he hne
    obtain ⟨d, line, hline⟩ := List.exists_cons_of_ne_nil hne
    have hlast : (d :: line).getLast? = some lineFeed := by
      rw [← hline]
      obtain ⟨front, hfront⟩ : part ++ text <:+ a := by
        have hsuffix := h.stands.rest_eq ▸ List.drop_suffix lexer.offset (a ++ b)
        rw [hwhole] at hsuffix
        obtain ⟨front, hf⟩ := hsuffix
        rw [← List.append_assoc] at hf
        exact ⟨front, List.append_cancel_right hf⟩
      rw [← hfront, List.getLast?_append_of_ne_nil _ hne] at ha
      exact ha.resolve_left fun hnil => hne (List.append_eq_nil_iff.1 hnil).2
    rw [hline] at hswapped
    have hcons := hswapped.rest
    rw [hrest, List.cons_append] at hcons
    obtain ⟨rfl, rfl⟩ := List.cons.inj hcons
    obtain ⟨text', hnext⟩ := hswapped.step hlast h.nesting_eq_zero
      (by rw [hr, List.length_append]; omega)
      (fun he => hs (List.append_cancel_right ((hr.symm.trans he).trans (List.nil_append b).symm)))
    obtain rfl : text' = text := List.append_cancel_right (hnext.rest.symm.trans hr)
    exact ⟨_, .step hother hswapped.rest', hnext⟩

end Lexer

/-- Where a line starts outside of all brackets, a line without a token changes no token and no
fault but their places. -/
theorem tokenize_blankLine {a b : Bytes} (ha : a = [] ∨ a.getLast? = some lineFeed)
    (h : ∃ lexer, Lexer.Reached (a ++ b) lexer ∧ lexer.offset = a.length ∧
      lexer.atLineStart = true ∧ lexer.nesting = 0) (line : BlankLine) :
    let stream := tokenize (a ++ b)
    let other := tokenize (a ++ (line.text ++ b))
    other.tokens.map Token.reading = stream.tokens.map Token.reading ∧
      other.faults.map Fault.code = stream.faults.map Fault.code := by
  intro stream other
  obtain ⟨lexer, hlexer, ho, hs, hn⟩ := h
  have hrest : lexer.rest = [] ++ b := by
    rw [hlexer.stands.rest_eq, ho, List.drop_left]
    rfl
  obtain ⟨swapped, hswapped, halike⟩ :=
    @Lexer.Reached.swap lexer b (line.text ++ b) [] a ha hlexer hrest fun _ => hs
  have hpassed := Lexer.run_blankLine line (halike.atLineStart.trans hs) (halike.nesting.trans hn)
    halike.rest'
  have hrun : Lexer.Parallel id lexer.run (swapped.skip line.text).run := by
    refine (halike.toParallel.skip [] line.text).run ?_
    rw [Lexer.rest_skip, halike.rest', List.nil_append, List.drop_left]
    exact hrest.symm
  have hstream : stream = ⟨lexer.run.finish.tokens.reverse, lexer.run.finish.faults.reverse⟩ := by
    rw [← hlexer.run_eq]
    rfl
  have hother : other = ⟨(swapped.skip line.text).run.finish.tokens.reverse,
      (swapped.skip line.text).run.finish.faults.reverse⟩ := by
    rw [← hpassed, ← hswapped.run_eq]
    rfl
  rw [hstream, hother]
  exact hrun.stream_eq

/-- A comment to the left of its block, behind brackets that go over a line end. -/
theorem tokenize_blankLine_comment :
    let a := ascii "if x:\n    f(\n)\n"
    let b := ascii "    g()\nh()\n"
    let line := ascii " \t# (['\r\n"
    a.getLast? = some lineFeed ∧
      (∃ lexer, Lexer.Reached (a ++ b) lexer ∧ lexer.offset = a.length ∧
        lexer.atLineStart = true ∧ lexer.nesting = 0) ∧
      (tokenize (a ++ (line ++ b))).tokens.map Token.reading =
        (tokenize (a ++ b)).tokens.map Token.reading ∧
      (tokenize (a ++ (line ++ b))).faults.map Fault.code =
        (tokenize (a ++ b)).faults.map Fault.code := by
  intro a b line
  have ha : a.getLast? = some lineFeed := by decide
  have hlexer : ∃ lexer, Lexer.Reached (a ++ b) lexer ∧ lexer.offset = a.length ∧
      lexer.atLineStart = true ∧ lexer.nesting = 0 :=
    ⟨_, .iterate (a ++ b) 12, by decide +kernel⟩
  let blank : BlankLine := ⟨ascii " \t", ascii "# (['", ascii "\r\n", by decide +kernel,
    by decide +kernel, by decide +kernel⟩
  exact ⟨ha, hlexer, tokenize_blankLine (.inr ha) hlexer blank⟩

end ManifestScan
