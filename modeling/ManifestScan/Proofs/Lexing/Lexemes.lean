import ManifestScan.Proofs.Lexing.Cut
import ManifestScan.Proofs.Lexing.Order
import ManifestScan.Proofs.Lexing.Parallel
import ManifestScan.Proofs.Text.Comment

/-! The tokens with text are read off the text alone, wherever its lines start. -/

namespace ManifestScan

def lexemes (text : Bytes) : List Lexeme :=
  match text with
  | [] => []
  | b :: rest =>
    Lexeme.read b rest :: lexemes ((b :: rest).drop (Lexeme.read b rest).text.length)
termination_by text.length
decreasing_by
  have := List.length_pos_iff.2 (Lexeme.read_text_ne_nil b rest)
  rw [List.length_drop, List.length_cons]
  omega

namespace Lexeme

/-- The token of a lexeme apart from its place. A literal without an end is a token too. -/
def reading? (lexeme : Lexeme) : Option (TokenKind × Bytes) :=
  match lexeme.kind with
  | .token kind => some (kind, lexeme.text)
  | .unclosed => some (.string, lexeme.text)
  | .filler | .lineBreak | .unknown => none

def isFault (lexeme : Lexeme) : Bool := lexeme.kind == .unclosed || lexeme.kind == .unknown

def isComment (lexeme : Lexeme) : Bool := lexeme.text.head? == some hash

def isGap (lexeme : Lexeme) : Bool := lexeme.kind == .filler || lexeme.kind == .lineBreak

end Lexeme

def Token.readings (tokens : List Token) : List (TokenKind × Bytes) :=
  (tokens.filter (!·.kind.isLayout)).map Token.reading

theorem Token.readings_append (tokens others : List Token) :
    readings (tokens ++ others) = readings tokens ++ readings others := by
  unfold readings
  rw [List.filter_append, List.map_append]

section

variable {b : UInt8} {rest : Bytes}

theorem lexemes_nil : lexemes [] = [] := by
  rw [lexemes]

theorem lexemes_cons (b : UInt8) (rest : Bytes) : lexemes (b :: rest) =
    Lexeme.read b rest :: lexemes ((b :: rest).drop (Lexeme.read b rest).text.length) := by
  rw [lexemes]

theorem lexemes_read {after : Bytes} (h : b :: rest = (Lexeme.read b rest).text ++ after) :
    lexemes (b :: rest) = Lexeme.read b rest :: lexemes after := by
  have hd := congrArg (List.drop (Lexeme.read b rest).text.length) h
  rw [List.drop_left] at hd
  rw [lexemes_cons, hd]

theorem lexemes_filler (h : Lexeme.isFiller b = true) (rest : Bytes) :
    lexemes (b :: rest) = ⟨.filler, [b]⟩ :: lexemes rest := by
  have hr : Lexeme.read b rest = ⟨.filler, [b]⟩ := if_pos h
  rw [lexemes_cons, hr]
  simp

theorem lexemes_blanks {blanks : Bytes} (h : ∀ b ∈ blanks, Lexeme.isFiller b = true)
    (rest : Bytes) : lexemes (blanks ++ rest) = blanks.map (⟨.filler, [·]⟩) ++ lexemes rest := by
  induction blanks with
  | nil => simp
  | cons b blanks ih =>
    obtain ⟨hb, hblanks⟩ := List.forall_mem_cons.1 h
    rw [List.cons_append, lexemes_filler hb, ih hblanks, List.map_cons, List.cons_append]

theorem lexemes_lineFeed (rest : Bytes) :
    lexemes (lineFeed :: rest) = ⟨.lineBreak, [lineFeed]⟩ :: lexemes rest := by
  have hr : Lexeme.read lineFeed rest = ⟨.lineBreak, [lineFeed]⟩ := rfl
  rw [lexemes_cons, hr]
  simp

theorem lexemes_comment {words rest : Bytes} (hw : ∀ b ∈ words, (b != lineFeed) = true)
    (hr : rest.takeWhile (· != lineFeed) = []) :
    lexemes (hash :: words ++ rest) = ⟨.filler, hash :: words⟩ :: lexemes rest := by
  have hread := Lexeme.read_comment (words ++ rest)
  rw [List.takeWhile_append_of_pos hw, hr, List.append_nil] at hread
  rw [List.cons_append, lexemes_cons, hread, ← List.cons_append, List.drop_left]

theorem exists_of_mem_lexemes {text : Bytes} {lexeme : Lexeme} (h : lexeme ∈ lexemes text) :
    ∃ b rest, lexeme = Lexeme.read b rest := by
  fun_induction lexemes text with
  | case1 => cases h
  | case2 b rest ih =>
    rcases List.mem_cons.1 h with rfl | h
    · exact ⟨b, rest, rfl⟩
    · exact ih h

theorem Lexeme.exists_front (b : UInt8) (rest : Bytes) :
    ∃ front, (read b rest).text = b :: front := by
  obtain ⟨c, front, hc⟩ := List.exists_cons_of_ne_nil (read_text_ne_nil b rest)
  have hp := prefix_read b rest
  rw [hc] at hp ⊢
  exact ⟨front, by rw [(List.cons_prefix_cons.1 hp).1]⟩

end

namespace Lexer

open Lexeme

/-- `next` has gone over lexemes in front of `lexer`, and has added their tokens and
maybe layout. -/
structure Goes (lexer next : Lexer) (passed : List Lexeme) : Prop where
  rest : lexemes lexer.rest = passed ++ lexemes next.rest
  tokens : Token.readings next.tokens.reverse =
    Token.readings lexer.tokens.reverse ++ passed.filterMap reading?
  faults : next.faults = [] → lexer.faults = [] ∧ ∀ lexeme ∈ passed, lexeme.isFault = false

variable {lexer next last : Lexer} {passed others : List Lexeme}

namespace Goes

theorem trans (h : Goes lexer next passed) (h' : Goes next last others) :
    Goes lexer last (passed ++ others) := by
  refine ⟨?_, ?_, fun hf => ?_⟩
  · rw [h.rest, h'.rest, List.append_assoc]
  · rw [h'.tokens, h.tokens, List.filterMap_append, List.append_assoc]
  · obtain ⟨hn, ho⟩ := h'.faults hf
    obtain ⟨hl, hp⟩ := h.faults hn
    refine ⟨hl, fun lexeme hm => ?_⟩
    rcases List.mem_append.1 hm with hm | hm
    · exact hp lexeme hm
    · exact ho lexeme hm

/-- Layout is no reading, so a step that adds nothing else stays where it is. -/
theorem layout (hl : lexer.AddsLayout next) (hr : next.rest = lexer.rest)
    (hp : lexer.Path next) : Goes lexer next [] := by
  refine ⟨by rw [hr, List.nil_append], ?_, fun hf => ⟨(Precedes.of_path hp).faults_nil hf, nofun⟩⟩
  obtain ⟨added, ht, ha⟩ := hl
  have hnone : Token.readings added.reverse = [] := by
    unfold Token.readings
    rw [List.filter_eq_nil_iff.2, List.map_nil]
    intro token hm
    simp [ha token (List.mem_reverse.1 hm)]
  rw [ht, List.reverse_append, Token.readings_append, hnone]
  simp

/-- Blanks, comments and line ends are skipped. -/
theorem skip {text : Bytes} (lexer : Lexer)
    (hr : lexemes lexer.rest = passed ++ lexemes (lexer.rest.drop text.length))
    (hg : ∀ lexeme ∈ passed, lexeme.isGap = true) : Goes lexer (lexer.skip text) passed := by
  have hone : ∀ lexeme : Lexeme, lexeme.isGap = true →
      lexeme.reading? = none ∧ lexeme.isFault = false := by
    rintro ⟨kind, text⟩ hk
    cases kind <;> simp_all [isGap, reading?, isFault]
  refine ⟨hr, ?_, fun hf => ⟨hf, fun lexeme hm => (hone lexeme (hg lexeme hm)).2⟩⟩
  rw [List.filterMap_eq_nil_iff.2 fun lexeme hm => (hone lexeme (hg lexeme hm)).1, List.append_nil]
  rfl

theorem endLine (lexer : Lexer) : Goes lexer lexer.endLine [] :=
  layout (.endLine lexer) (rest_endLine lexer) (.endLine lexer)

theorem settle (lexer : Lexer) (column : Nat) : Goes lexer (lexer.settle column) [] :=
  layout (.settle lexer column) (rest_settle lexer column) (.settle lexer column)

/-- A line end outside all brackets adds layout. -/
theorem lineBreak {text : Bytes} (h : Goes lexer (lexer.skip text) passed) :
    Goes lexer (lexer.take ⟨.lineBreak, text⟩) passed := by
  unfold Lexer.take
  dsimp only
  split
  · have hs : Goes (lexer.skip text).endLine
        { (lexer.skip text).endLine with atLineStart := true } [] :=
      layout (.of_eq rfl) rfl (.same rfl rfl rfl rfl rfl)
    have hl := (h.trans (endLine _)).trans hs
    rwa [List.append_nil, List.append_nil] at hl
  · exact h

theorem take {b : UInt8} {rest : Bytes} (hr : lexer.rest = b :: rest) :
    Goes lexer (lexer.take (read b rest)) [read b rest] := by
  have hrest : lexemes lexer.rest =
      [read b rest] ++ lexemes (lexer.rest.drop (read b rest).text.length) := by
    rw [hr, lexemes_cons, List.singleton_append]
  have hlayout (kind : TokenKind) (text : Bytes) (hl : read b rest = ⟨.token kind, text⟩) :
      kind.isLayout = false := by
    have hne := read_text_ne_nil b rest
    rw [hl] at hne
    exact eq_false_of_ne_true (mt (isLayout_token hl).1 hne)
  generalize read b rest = lexeme at hrest hlayout ⊢
  obtain ⟨kind, text⟩ := lexeme
  cases kind with
  | filler => exact skip lexer hrest (by simp [isGap])
  | lineBreak => exact (skip lexer hrest (by simp [isGap])).lineBreak
  | token kind =>
    refine ⟨hrest, ?_, fun hf => ⟨hf, by simp [isFault]⟩⟩
    simp [Lexer.take, Lexer.skip, addToken, Token.readings, Token.reading, reading?,
      hlayout kind text rfl]
  | unclosed =>
    refine ⟨hrest, ?_, fun hf => absurd hf (faults_take_unclosed rfl)⟩
    simp [Lexer.take, Lexer.skip, addToken, report, Token.readings, Token.reading, reading?,
      TokenKind.isLayout]
  | unknown =>
    refine ⟨hrest, ?_, fun hf => absurd hf (faults_take_unknown rfl)⟩
    simp [Lexer.take, Lexer.skip, report, reading?]

/-- The start of a line is made of blanks, and of a comment or a line end where no content is. -/
theorem readIndentation (lexer : Lexer) : ∃ passed, Goes lexer lexer.readIndentation passed := by
  have hfiller : ∀ b, isIndentByte b = true → isFiller b = true := by decide +kernel
  have hblanks : Goes lexer (lexer.skip (lexer.rest.takeWhile isIndentByte))
      ((lexer.rest.takeWhile isIndentByte).map (⟨.filler, [·]⟩)) := by
    refine skip lexer ?_ fun lexeme hm => ?_
    · have hsplit := @List.takeWhile_append_dropWhile _ isIndentByte lexer.rest
      have hd := congrArg (List.drop (lexer.rest.takeWhile isIndentByte).length) hsplit
      rw [List.drop_left] at hd
      rw [← hd, ← lexemes_blanks fun b hb => hfiller b (List.mem_takeWhile_imp hb), hsplit]
    · obtain ⟨b, -, rfl⟩ := List.mem_map.1 hm
      rfl
  unfold Lexer.readIndentation
  dsimp only
  generalize lexer.skip (lexer.rest.takeWhile isIndentByte) = next at hblanks ⊢
  split
  · exact ⟨_, hblanks⟩
  · rename_i b rest hr
    split
    · rename_i he
      obtain ⟨after, rfl⟩ := eq_cons_of_head? he.2
      refine ⟨_, hblanks.trans (@skip [⟨.filler, [b]⟩, ⟨.lineBreak, [lineFeed]⟩] _ next ?_ ?_)⟩
      · rw [hr, lexemes_filler (he.1 ▸ rfl), lexemes_lineFeed]
        rfl
      · simp [isGap]
    split
    · rename_i hl
      subst hl
      refine ⟨_, hblanks.trans (@skip [⟨.lineBreak, [lineFeed]⟩] _ next ?_ (by simp [isGap]))⟩
      rw [hr, lexemes_lineFeed]
      rfl
    split
    · rename_i hh
      subst hh
      refine ⟨_, hblanks.trans (@skip [⟨.filler, hash :: rest.takeWhile (· != lineFeed)⟩] _
        next ?_ (by simp [isGap]))⟩
      rw [hr, lexemes_cons, read_comment]
      rfl
    · exact ⟨_, hblanks.trans (settle next _)⟩

theorem step {b : UInt8} {rest : Bytes} (hr : lexer.rest = b :: rest) :
    ∃ passed, Goes lexer (lexer.step b rest) passed := by
  unfold Lexer.step
  split
  · exact readIndentation lexer
  · exact ⟨_, take hr⟩

theorem refl (lexer : Lexer) : Goes lexer lexer [] := layout (.of_eq rfl) rfl (.refl lexer)

theorem run (lexer : Lexer) : Goes lexer lexer.run (lexemes lexer.rest) := by
  obtain ⟨passed, h⟩ : ∃ passed, Goes lexer lexer.run passed := by
    fun_induction Lexer.run lexer with
    | case1 lexer => exact ⟨[], refl lexer⟩
    | case2 lexer b rest hr ih =>
      obtain ⟨passed, hs⟩ := step hr
      obtain ⟨others, hi⟩ := ih
      exact ⟨passed ++ others, hs.trans hi⟩
  have hr := h.rest
  rw [rest_run, lexemes_nil, List.append_nil] at hr
  rwa [hr]

theorem finish (lexer : Lexer) : Goes lexer lexer.finish [] := by
  refine layout (.finish lexer) ?_ (.finish lexer)
  unfold Lexer.finish addLayout addToken
  exact (rest_closeBlocks _ _ _).trans (rest_endLine lexer)

end Goes

end Lexer

/-- For every source, the tokens with text are those of the lexemes, and without faults all lexemes
are blanks, comments, line ends and tokens. -/
theorem readings_tokenize (source : Bytes) :
    Token.readings (tokenize source).tokens = (lexemes source).filterMap Lexeme.reading? ∧
      ((tokenize source).faults = [] → ∀ lexeme ∈ lexemes source, lexeme.isFault = false) := by
  have h := (Lexer.Goes.run (Lexer.start source)).trans (.finish _)
  rw [List.append_nil] at h
  refine ⟨h.tokens, fun hf => (h.faults ?_).2⟩
  exact List.reverse_eq_nil_iff.1 hf

namespace Lexeme

theorem dropComments_inert {text : Bytes} (h : Inert text) (rest : Bytes) :
    dropComments (text ++ rest) = text ++ dropComments rest := by
  induction text with
  | nil => rfl
  | cons b text ih =>
    obtain ⟨hb, ht⟩ := List.forall_mem_cons.1 h
    have hapart : Literal.isQuote b = false ∧ b ≠ hash := by
      simp only [isInert, Bool.and_eq_true, Bool.not_eq_true', bne_iff_ne] at hb
      exact ⟨hb.1.1.1, hb.1.1.2⟩
    rw [List.cons_append, dropComments_byte hapart.1 hapart.2, ih ht, List.cons_append]

/-- A lexeme that is no comment is left as it is. -/
theorem Sound.dropComments_eq {lexeme : Lexeme} {rest : Bytes} (h : lexeme.Sound rest)
    (hh : lexeme.isComment = false) :
    dropComments (lexeme.text ++ rest) = lexeme.text ++ dropComments rest := by
  cases h with
  | inert hi => exact dropComments_inert hi rest
  | @bracket b _ _ hq hb => exact dropComments_byte hq (by simpa using hb) rest
  | comment => cases hh
  | literal hm hq ha =>
    rw [List.append_assoc, dropComments_inert hm, dropComments_literal hq ha, List.append_assoc]

end Lexeme

/-- A text goes on unchanged up to a comment, and what is left from there on ends every lexeme in
front of it: nothing, or the end of the comment's line. -/
theorem exists_code (text : Bytes) : ∃ code rest, text = code ++ rest ∧
    dropComments text = code ++ dropComments rest ∧ EndsLexeme (dropComments rest) := by
  have hends : EndsLexeme (dropComments []) := by
    rw [dropComments_nil]
    nofun
  have h := uncommented_dropComments text
  generalize dropComments text = kept at h ⊢
  induction h with
  | nil => exact ⟨[], [], rfl, by rw [dropComments_nil, List.append_nil], hends⟩
  | @byte b _ _ _ _ _ ih =>
    obtain ⟨code, rest, rfl, rfl, he⟩ := ih
    exact ⟨b :: code, rest, rfl, rfl, he⟩
  | @literal literal _ _ _ _ ih =>
    obtain ⟨code, rest, rfl, rfl, he⟩ := ih
    exact ⟨literal ++ code, rest, (List.append_assoc ..).symm, (List.append_assoc ..).symm, he⟩
  | @unclosed quote text =>
    exact ⟨quote :: text, [], (List.append_nil _).symm,
      by rw [dropComments_nil, List.append_nil], hends⟩
  | @comment words text kept hw ht h _ =>
    have hkept := (Uncommented.comment hw ht h).eq_dropComments
    refine ⟨[], hash :: words ++ text, rfl, hkept, ?_⟩
    rw [← hkept, h.eq_dropComments]
    cases text with
    | nil => exact hends
    | cons c text =>
      obtain rfl := ht c rfl
      rw [dropComments_byte (by decide) (by decide)]
      exact (IsBoundary.cons (by decide) _).endsLexeme

namespace Lexeme

/-- A lexeme is read again in front of what is left behind it: up to the next comment nothing is
dropped, and there every other lexeme ends. -/
theorem read_dropComments {b : UInt8} {front after : Bytes} (hh : b ≠ hash)
    (ht : (read b (front ++ after)).text = b :: front)
    (hf : (read b (front ++ after)).isFault = false) :
    read b (front ++ dropComments after) = read b (front ++ after) := by
  obtain ⟨code, rest, rfl, hd, he⟩ := exists_code after
  have hcut : read b (front ++ code) = read b (front ++ code ++ rest) := by
    apply read_cut
    rw [List.append_assoc, ht]
    exact List.cons_prefix_cons.2 ⟨rfl, List.prefix_append front code⟩
  rw [← List.append_assoc] at hf ⊢
  rw [← hcut] at hf ⊢
  rw [isFault, Bool.or_eq_false_iff, beq_eq_false_iff_ne, beq_eq_false_iff_ne] at hf
  rw [hd, ← List.append_assoc, read_append he hh hf.1 hf.2]

end Lexeme

theorem isComment_read (b : UInt8) (rest : Bytes) :
    (Lexeme.read b rest).isComment = (b == hash) := by
  obtain ⟨front, hfront⟩ := Lexeme.exists_front b rest
  rw [Lexeme.isComment, hfront]
  rfl

/-- A lexeme that is no comment stays, and behind it the comments of what follows are dropped. -/
theorem exists_behind_lexeme {b : UInt8} {rest : Bytes} (hh : b ≠ hash)
    (hf : (Lexeme.read b rest).isFault = false) : ∃ after, after.length < (b :: rest).length ∧
      lexemes (b :: rest) = Lexeme.read b rest :: lexemes after ∧
      lexemes (dropComments (b :: rest)) = Lexeme.read b rest :: lexemes (dropComments after) := by
  obtain ⟨after, he, hsound⟩ : ∃ after, b :: rest = (Lexeme.read b rest).text ++ after ∧
      (Lexeme.read b rest).Sound after := by
    rw [Lexeme.isFault, Bool.or_eq_false_iff, beq_eq_false_iff_ne, beq_eq_false_iff_ne] at hf
    exact ((Lexeme.sound_read b rest).resolve_left hf.1).resolve_left hf.2
  obtain ⟨front, hfront⟩ := Lexeme.exists_front b rest
  have hcomment : (Lexeme.read b rest).isComment = false := by
    rw [isComment_read, beq_eq_false_iff_ne.2 hh]
  have hl := lexemes_read he
  have hd := hsound.dropComments_eq hcomment
  rw [← he, hfront, List.cons_append] at hd
  rw [hfront, List.cons_append, List.cons.injEq] at he
  obtain rfl := he.2
  have hagain := Lexeme.read_dropComments hh hfront hf
  refine ⟨after, ?_, hl, ?_⟩
  · rw [List.length_cons, List.length_append]
    omega
  · rw [hd, ← hagain]
    apply lexemes_read
    rw [hagain, hfront, List.cons_append]

/-- Without faults, dropping the comments of a text drops its comment lexemes and no other. -/
theorem lexemes_dropComments {text : Bytes} (hf : ∀ lexeme ∈ lexemes text, lexeme.isFault = false) :
    lexemes (dropComments text) = (lexemes text).filter (!·.isComment) := by
  induction hn : text.length using Nat.strong_induction_on generalizing text with
  | _ n ih =>
    subst hn
    cases text with
    | nil => rw [dropComments_nil, lexemes_nil, List.filter_nil]
    | cons b rest =>
      by_cases hh : b = hash
      · subst hh
        obtain ⟨words, behind, rfl, hw, hr⟩ := exists_line rest
        rw [← List.cons_append] at hf ⊢
        rw [lexemes_comment hw hr] at hf ⊢
        rw [dropComments_comment hw hr, List.filter_cons_of_neg (by simp [Lexeme.isComment])]
        apply ih _ _ (fun lexeme hm => hf lexeme (List.mem_cons_of_mem _ hm)) rfl
        rw [List.length_cons, List.length_append]
        omega
      · have hfault := hf _ (lexemes_cons b rest ▸ List.mem_cons_self)
        obtain ⟨after, hlt, hl, hkept⟩ := exists_behind_lexeme hh hfault
        rw [hl] at hf
        have ih := ih _ hlt (fun lexeme hm => hf lexeme (List.mem_cons_of_mem _ hm)) rfl
        rw [hkept, hl, List.filter_cons_of_pos (by simp [isComment_read, hh]), ih]

theorem readings_filter (text : Bytes) : ((lexemes text).filter (!·.isComment)).filterMap
    Lexeme.reading? = (lexemes text).filterMap Lexeme.reading? := by
  rw [List.filterMap_filter]
  apply List.filterMap_congr
  intro lexeme hm
  obtain ⟨b, rest, rfl⟩ := exists_of_mem_lexemes hm
  cases hc : (Lexeme.read b rest).isComment with
  | false => rfl
  | true =>
    -- A comment starts with a hash, and there nothing else is read.
    rw [isComment_read, beq_iff_eq] at hc
    rw [hc, Lexeme.read_comment]
    rfl

/-- What is left of a text are its bytes and literals without the comments between them, and it
holds no comments itself. A source without faults has the same tokens with text before and after. -/
theorem dropComments_exact (text : Bytes) :
    (∀ kept, Uncommented text kept ↔ kept = dropComments text) ∧
    dropComments (dropComments text) = dropComments text ∧
    ((tokenize text).faults = [] →
      Token.readings (tokenize (dropComments text)).tokens =
        Token.readings (tokenize text).tokens) := by
  refine ⟨fun kept => uncommented_iff, dropComments_dropComments text, fun hf => ?_⟩
  obtain ⟨htokens, hfaults⟩ := readings_tokenize text
  rw [(readings_tokenize (dropComments text)).1, htokens, lexemes_dropComments (hfaults hf),
    readings_filter]

/-- The quote in the first comment opens no literal, and hashes in literals start no comment. -/
theorem dropComments_exact_literals :
    let text := ascii "f(1, # a 'b\n  '#', \"\"\"\n# \"\"\") # c"
    (tokenize text).faults = [] ∧
      dropComments text = ascii "f(1, \n  '#', \"\"\"\n# \"\"\") " ∧
      Token.readings (tokenize (dropComments text)).tokens =
        Token.readings (tokenize text).tokens := by
  intro text
  have hf : (tokenize text).faults = [] := by decide +kernel
  exact ⟨hf, by decide +kernel, (dropComments_exact text).2.2 hf⟩

end ManifestScan
