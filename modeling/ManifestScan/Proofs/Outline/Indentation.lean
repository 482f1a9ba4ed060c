import ManifestScan.Proofs.Lexing.Pieces
import ManifestScan.Proofs.Outline.BlockLines
import ManifestScan.Proofs.Outline.Calls
import ManifestScan.Proofs.Outline.Members

namespace ManifestScan

namespace Token

def shift? (token : Token) : Option Turn :=
  match token.kind with
  | .indent => some .opening
  | .dedent => some .closing
  | _ => none

def shifts (tokens : List Token) : List Turn := tokens.filterMap shift?

variable {tokens inner after passed rest others : List Token} {token dedent first other : Token}

theorem shifts_append (tokens others : List Token) :
    shifts (tokens ++ others) = shifts tokens ++ shifts others := List.filterMap_append

theorem shifts_indent (hk : token.kind = .indent) (rest : List Token) :
    shifts (token :: rest) = .opening :: shifts rest :=
  List.filterMap_cons_some (by rw [shift?, hk])

theorem shifts_dedent (hk : token.kind = .dedent) (rest : List Token) :
    shifts (token :: rest) = .closing :: shifts rest :=
  List.filterMap_cons_some (by rw [shift?, hk])

theorem shifts_other (hi : token.kind ≠ .indent) (hd : token.kind ≠ .dedent) (rest : List Token) :
    shifts (token :: rest) = shifts rest := by
  refine List.filterMap_cons_none ?_
  unfold shift?
  split <;> first | rfl | contradiction

theorem shifts_text_append (h : ∀ token ∈ tokens, token.kind.isLayout = false) (rest : List Token) :
    shifts (tokens ++ rest) = shifts rest := by
  induction tokens with
  | nil => rfl
  | cons token tokens ih =>
    obtain ⟨hk, h⟩ := List.forall_mem_cons.1 h
    rw [List.cons_append, shifts_other _ _ _, ih h] <;> intro he <;> rw [he] at hk <;> cases hk

/-- What ends a line changes no depth. -/
theorem Ends.exists_passed (h : Ends tokens rest) :
    ∃ passed, tokens = passed ++ rest ∧ shifts passed = [] := by
  cases h with
  | @newline token _ hk =>
    refine ⟨[token], rfl, ?_⟩
    rw [shifts_other (by simp [hk]) (by simp [hk])]
    rfl
  | last => exact ⟨[], rfl, rfl⟩

theorem through_dedents (h : ∀ token ∈ tokens, token.kind = .dedent) (depth : Nat) :
    Turn.through (depth + tokens.length) (shifts tokens) = some depth := by
  induction tokens with
  | nil => rfl
  | cons token tokens ih =>
    obtain ⟨hk, h⟩ := List.forall_mem_cons.1 h
    rw [shifts_dedent hk]
    exact ih h

/-- A block that closes, behind what is passed of it. -/
theorem exists_inner {depth middle : Nat} (h : inner ++ dedent :: after = passed ++ rest)
    (hd : dedent.kind = .dedent) (hi : Turn.through depth (shifts inner) = some 0)
    (hp : Turn.through depth (shifts passed) = some middle) :
    ∃ others, inner = passed ++ others ∧ rest = others ++ dedent :: after ∧
      Turn.through middle (shifts others) = some 0 := by
  rcases List.append_eq_append_iff.1 h with ⟨more, rfl, hmore⟩ | ⟨others, rfl, hothers⟩
  · cases more with
    | nil =>
      rw [List.append_nil, hi] at hp
      cases hp
      exact ⟨[], by simp, hmore.symm, rfl⟩
    | cons first more =>
      -- Nothing is passed behind the token that closes the block.
      obtain rfl : dedent = first := (List.cons.inj hmore).1
      rw [shifts_append, shifts_dedent hd, Turn.through_append, hi] at hp
      cases hp
  · rw [shifts_append, Turn.through_append, hp] at hi
    exact ⟨others, rfl, hothers, hi⟩

theorem lastText_append (hk : other.kind.isLayout = false) (first : Token)
    (tokens others : List Token) :
    lastText first (tokens ++ other :: others) = lastText other others := by
  unfold lastText
  rw [List.filter_append, List.filter_cons_of_pos (by simp [hk]), List.getLastD_eq_getLast?,
    List.getLast?_append, List.getLast?_cons, List.getLastD_eq_getLast?]
  rfl

theorem lastText_append_layout (h : ∀ token ∈ others, token.kind.isLayout = true) (first : Token)
    (tokens : List Token) : lastText first (tokens ++ others) = lastText first tokens := by
  have hnil : others.filter (!·.kind.isLayout) = [] :=
    List.filter_eq_nil_iff.2 (by simpa using h)
  unfold lastText
  rw [List.filter_append, hnil, List.append_nil]

theorem lastText_of_layout (h : ∀ token ∈ tokens, token.kind.isLayout = true) (first : Token) :
    lastText first tokens = first := lastText_append_layout h first []

/-- Tokens that end at one offset are one token. -/
theorem Ordered.suffix_eq (h : Ordered tokens) (ht : token :: rest <:+ tokens)
    (ho : other :: others <:+ tokens) (hk : token.kind.isLayout = false)
    (hk' : other.kind.isLayout = false) (hs : token.stop = other.stop) :
    token :: rest = other :: others := by
  have hinner {first second : Token} {front behind : List Token} (hf : first :: front <:+ tokens)
      (hlayout : second.kind.isLayout = false) (he : first.stop = second.stop)
      (hb : second :: behind <:+ first :: front) : second :: behind = first :: front := by
    rcases List.suffix_cons_iff.1 hb with he | hb
    · exact he
    · have hm : second ∈ front := hb.subset List.mem_cons_self
      have hle := (List.pairwise_cons.1 (h.of_suffix hf).pairwise).1 second hm
      have hlt := (h.of_suffix hf).offset_lt second (List.mem_cons_of_mem _ hm) hlayout
      omega
  rcases List.suffix_or_suffix_of_suffix ht ho with hb | hb
  · exact hinner ho hk hs.symm hb
  · exact (hinner ht hk' hs hb).symm

end Token

/-- The tokens leave as many blocks open as they open and do not close. -/
theorem Nested.through {tokens : List Token} {blocks : Nat} (h : Nested tokens blocks) :
    Turn.through 0 (Token.shifts tokens.reverse) = some blocks := by
  have hstep {rest : List Token} {before after : Nat}
      (ih : Turn.through 0 (Token.shifts rest.reverse) = some before) (token : Token)
      (ht : Turn.through before (Token.shifts [token]) = some after) :
      Turn.through 0 (Token.shifts (token :: rest).reverse) = some after := by
    rw [List.reverse_cons, Token.shifts_append, Turn.through_append, ih]
    exact ht
  induction h with
  | nil => rfl
  | @text token rest blocks hk _ ih =>
    refine hstep ih token ?_
    rw [← List.append_nil [token], Token.shifts_text_append (by simpa using hk)]
    rfl
  | newline hk _ _ ih =>
    refine hstep ih _ ?_
    rw [Token.shifts_other (by simp [hk]) (by simp [hk])]
    rfl
  | indent hk _ ih =>
    refine hstep ih _ ?_
    rw [Token.shifts_indent hk]
    rfl
  | dedent hk _ ih =>
    refine hstep ih _ ?_
    rw [Token.shifts_dedent hk]
    rfl

/-- All blocks of a source are closed at its end. -/
theorem through_shifts_tokenize {source : Bytes} {tokens : List Token} {final : Token}
    (h : (tokenize source).tokens = tokens ++ [final]) :
    Turn.through 0 (Token.shifts tokens) = some 0 := by
  obtain ⟨closed, last, hfinish, -, hnested, -⟩ := (@Lexer.Reached.start source).run.nests.finish
  have ht : (tokenize source).tokens = (Lexer.start source).run.finish.tokens.reverse := rfl
  rw [ht, hfinish, List.reverse_cons] at h
  rw [← (List.append_inj' h rfl).1]
  exact hnested.through

/-- Where the body of a definition is an indented block among the tokens, the definition ends with
the last token of text in front of the one that closes the block. -/
structure Definition.Blocks (definition : Definition) (tokens : List Token) (colon : Token)
    (left : List Token) : Prop where
  suffix : colon :: left <:+ tokens
  isColon : colon.kind = .colon
  body_eq : definition.body = some colon.stop
  block : ∀ line indent rest, left = line :: indent :: rest → line.kind = .newline →
    indent.kind = .indent → ∃ inner dedent after, rest = inner ++ dedent :: after ∧
      dedent.kind = .dedent ∧ Turn.through 0 (Token.shifts inner) = some 0 ∧
      definition.extent.stop = (Token.lastText colon inner).stop

def Definition.AllBlocks (definitions : List Definition) (tokens : List Token) : Prop :=
  ∀ definition ∈ Definition.allOf definitions, ∃ colon left, definition.Blocks tokens colon left

namespace Definition.AllBlocks

variable {definitions others : List Definition} {definition : Definition}
  {tokens more : List Token}

theorem nil (tokens : List Token) : AllBlocks [] tokens := List.forall_mem_nil _

theorem of_suffix (h : AllBlocks definitions tokens) (hs : tokens <:+ more) :
    AllBlocks definitions more := by
  intro definition hm
  obtain ⟨colon, left, hb⟩ := h definition hm
  exact ⟨colon, left, hb.suffix.trans hs, hb.isColon, hb.body_eq, hb.block⟩

theorem cons {colon : Token} {left : List Token} (hd : definition.Blocks tokens colon left)
    (h : AllBlocks (definition.definitions ++ others) tokens) :
    AllBlocks (definition :: others) tokens := by
  intro other hm
  rw [← List.singleton_append, allOf_append, allOf_singleton, List.cons_append, ← allOf_append,
    List.mem_cons] at hm
  rcases hm with rfl | hm
  · exact ⟨colon, left, hd⟩
  · exact h other hm

end Definition.AllBlocks

namespace Cursor

variable {pending : List Decorator} {keyword : Token} {cursor inside body close next : Cursor}
  {definition : Definition}

/-- A body on the line of its header does not start with the end of that line. -/
theorem past?_newline_of_line (hq : header pending keyword inside = ⟨definition, .line, body⟩) :
    body.past? .newline = none := by
  have hopening {cursor : Cursor} {start : Definition}
      (hq : cursor.opening start = ⟨definition, .line, body⟩) : body.past? .newline = none := by
    unfold opening at hq
    dsimp only at hq
    repeat' split at hq
    · cases hq
    · cases hq
      assumption
    all_goals cases hq
  unfold header at hq
  dsimp only at hq
  split at hq
  · cases hq
  · exact hopening hq

structure Shuts (outermost : Bool) (definitions : List Definition) (tokens rest : List Token) :
    Prop where
  close : outermost = false → ∃ inner dedent, tokens = inner ++ dedent :: rest ∧
    dedent.kind = .dedent ∧ Turn.through 0 (Token.shifts inner) = some 0
  blocks : Definition.AllBlocks definitions tokens

namespace Shuts

variable {outermost : Bool} {definitions others : List Definition}
  {passed tokens rest words left last : List Token}

theorem append (h : Shuts outermost definitions tokens rest)
    (hp : Turn.through 0 (Token.shifts passed) = some 0) :
    Shuts outermost definitions (passed ++ tokens) rest := by
  refine ⟨fun ho => ?_, h.blocks.of_suffix (List.suffix_append _ _)⟩
  obtain ⟨inner, dedent, he, hk, hi⟩ := h.close ho
  refine ⟨passed ++ inner, dedent, by rw [he, List.append_assoc], hk, ?_⟩
  rw [Token.shifts_append, Turn.through_append, hp]
  exact hi

/-- A line of text is passed. -/
theorem line (h : Shuts outermost definitions tokens rest)
    (hw : ∀ token ∈ words, token.kind.isLayout = false) (he : Token.Ends left tokens) :
    Shuts outermost definitions (words ++ left) rest := by
  obtain ⟨ends, rfl, hends⟩ := he.exists_passed
  rw [← List.append_assoc]
  refine h.append ?_
  rw [Token.shifts_text_append hw, hends]
  rfl

theorem passesLine (hl : cursor.PassesLine words left next)
    (h : Shuts outermost definitions next.rest rest) :
    Shuts outermost definitions cursor.rest rest := by
  rw [hl.rest_eq]
  exact h.line hl.text hl.ends

/-- A block and what follows it. -/
theorem block {indent : Token} (hi : Shuts false definitions tokens rest)
    (hk : indent.kind = .indent) (h : Shuts outermost others rest last) :
    Shuts outermost (definitions ++ others) (indent :: tokens) last := by
  obtain ⟨inner, dedent, he, hd, hb⟩ := hi.close rfl
  have hsplit : indent :: tokens = (indent :: (inner ++ [dedent])) ++ rest := by
    rw [he]
    simp
  have hwhole := @append _ _ (indent :: (inner ++ [dedent])) _ _ h (by
    rw [Token.shifts_indent hk, Token.shifts_append, Token.shifts_dedent hd]
    show Turn.through 1 _ = _
    rw [Turn.through_append, Turn.through_add hb 1]
    rfl)
  rw [← hsplit] at hwhole
  refine ⟨hwhole.close, fun definition hm => ?_⟩
  rw [Definition.allOf_append, List.mem_append] at hm
  exact hm.elim (hi.blocks.of_suffix (List.suffix_cons _ _) definition) (hwhole.blocks definition)

end Shuts

theorem through_line {depth : Nat} {words left rest : List Token}
    (h : Turn.through depth (Token.shifts (words ++ left)) = some 0)
    (hw : ∀ token ∈ words, token.kind.isLayout = false) (he : Token.Ends left rest) :
    Turn.through depth (Token.shifts rest) = some 0 := by
  obtain ⟨ends, rfl, hends⟩ := he.exists_passed
  rwa [Token.shifts_text_append hw, Token.shifts_append, hends] at h

theorem PassesLine.through {depth : Nat} {words left : List Token}
    (hl : cursor.PassesLine words left next)
    (h : Turn.through depth (Token.shifts cursor.rest) = some 0) :
    Turn.through depth (Token.shifts next.rest) = some 0 := by
  rw [hl.rest_eq] at h
  exact through_line h hl.text hl.ends

/-- Behind a block that closes the depth is what it was in front of it. -/
theorem Shuts.through {definitions : List Definition} {tokens rest : List Token} {depth : Nat}
    (hi : Shuts false definitions tokens rest)
    (h : Turn.through (depth + 1) (Token.shifts tokens) = some 0) :
    Turn.through depth (Token.shifts rest) = some 0 := by
  obtain ⟨inner, dedent, rfl, hd, hb⟩ := hi.close rfl
  rw [Token.shifts_append, Token.shifts_dedent hd, Turn.through_append,
    Turn.through_add hb (depth + 1)] at h
  exact h

/-- Behind an indented block that is passed, the last token of text is the last one in it, or the
colon in front of it. -/
theorem significant_block {front block : List Token} {colon line indent dedent : Token}
    (hr : cursor.Reaches close)
    (h : cursor.rest = front ++ colon :: line :: indent :: (block ++ dedent :: close.rest))
    (hc : colon.kind = .colon) (hl : line.kind = .newline) (hi : indent.kind = .indent)
    (hd : dedent.kind = .dedent) : close.significant = Token.lastText colon block := by
  have hpasses := @Reaches.passes _ _ (front ++ colon :: (line :: indent :: (block ++ [dedent]))) hr
    (by
      rw [h]
      simp)
  have hlast : close.significant = Token.lastText cursor.significant
      (front ++ colon :: (line :: indent :: (block ++ [dedent]))) := hpasses.significant_eq
  rwa [Token.lastText_append (by rw [hc]; rfl), Token.lastText_layout (by rw [hl]; rfl),
    Token.lastText_layout (by rw [hi]; rfl), Token.lastText_append_layout
      (List.forall_mem_singleton.2 (by rw [hd]; rfl))] at hlast

section

variable {front words left : List Token} {colon : Token}
  (hh : definition.Heads front keyword words colon)

include hh

/-- A body on the line of its header is no block. -/
theorem blocks_of_line {tokens : List Token}
    (hq : header pending keyword inside = ⟨definition, .line, body⟩)
    (hs : colon :: body.rest <:+ tokens) (calls : List Call) :
    (closeDefinition { definition with calls := calls } close).Blocks tokens colon body.rest := by
  refine ⟨hs, hh.isColon, hh.body_eq, fun line indent rest hr hk => ?_⟩
  exact absurd hk (past?_eq_none (past?_newline_of_line hq) line (indent :: rest) hr)

/-- A body below its header is the block that closes where the body ends. -/
theorem blocks_of_block {line indent : Token} {contents : Contents} {definitions : List Definition}
    (h : cursor.rest = (front ++ keyword :: words) ++ colon :: line :: indent :: body.rest)
    (hl : line.kind = .newline) (hi : indent.kind = .indent) (hr : cursor.Reaches close)
    (hb : Shuts false definitions body.rest close.rest) :
    (closeDefinition { definition with
      calls := contents.calls, definitions := contents.definitions } close).Blocks cursor.rest colon
        (line :: indent :: body.rest) := by
  refine ⟨⟨_, h.symm⟩, hh.isColon, hh.body_eq, fun line' indent' rest hr' _ _ => ?_⟩
  cases hr'
  obtain ⟨block, dedent, he, hd, hblock⟩ := hb.close rfl
  refine ⟨block, dedent, close.rest, he, hd, hblock, congrArg Token.stop ?_⟩
  rw [he] at h
  exact significant_block hr h hh.isColon hl hi hd

end

/-- The blocks of a source without faults close one by one. -/
theorem BlockPath.shuts {outermost : Bool} {contents : Contents}
    (h : BlockPath outermost pending cursor contents next) (hf : next.faults = [])
    (hl : Laid true 0 cursor.rest) (hs : cursor.Fresh) {depth : Nat}
    (hd : outermost = true ↔ depth = 0)
    (ht : Turn.through depth (Token.shifts cursor.rest) = some 0) :
    Shuts outermost contents.definitions cursor.rest next.rest := by
  -- The depth counts the blocks that are still open in front of the cursor, so it grows by one
  -- in an inner block, and only the outermost block has none around it.
  induction h generalizing depth with
  | nil h =>
    rw [h] at ht
    cases ht
    exact ⟨fun ho => by simp [ho] at hd, .nil _⟩
  | close h hk =>
    rw [h]
    exact ⟨fun _ => ⟨[], _, rfl, hk, rfl⟩, .nil _⟩
  | @pass outermost pending cursor next token rest contents h hk ho hp ih =>
    have hlayout : token.kind.isLayout = true := by rcases hk with hk | hk <;> rw [hk] <;> rfl
    rw [h] at hl ht ⊢
    rcases hk with hk | hk
    · -- The outermost block has nothing that closes it.
      rw [hd.1 (ho hk), Token.shifts_dedent hk] at ht
      cases ht
    · have hsame := @Token.shifts_other token (by simp [hk]) (by simp [hk])
      rw [hsame] at ht
      exact (ih hf (hl.line_start hlayout) (fresh_of_layout hlayout) hd ht).line
        (List.forall_mem_nil _) (.newline hk)
  | @indent outermost pending cursor close next token rest inner others h hk hi hp ihi ih =>
    have hlayout : token.kind.isLayout = true := by rw [hk]; rfl
    rw [h] at hl ht ⊢
    rw [Token.shifts_indent hk] at ht
    have hfc := hp.faults hf
    have hstart := hl.line_start hlayout
    have hfresh : (cursor.past token rest).Fresh := fresh_of_layout hlayout
    obtain ⟨hlc, hsc, -⟩ := hi.blockLines hfc hstart hfresh
    have hinner := @ihi hfc hstart hfresh (depth + 1) (by simp) ht
    exact hinner.block hk (ih hf hlc hsc hd (hinner.through ht))
  | decorator h hk hq _ ih =>
    obtain ⟨words, left, hline, -⟩ := decorator_line h hk hq hl
    exact .passesLine hline (ih hf hline.laid hline.fresh hd (hline.through ht))
  | missing hk hq hp => exact absurd hq (not_missing hk (hp.faults hf) hl)
  | @line outermost pending cursor inside body close next keyword definition calls others hk hq hi
      hp ih =>
    obtain ⟨front, words, colon, behind, left, hh, hline, hbody, -, -, hn⟩ :=
      definition_line hk hq hi (hp.faults hf) hl
    have hrest := Shuts.passesLine hline (ih hf hline.laid hline.fresh hd (hline.through ht))
    have hsuffix : colon :: body.rest <:+ cursor.rest :=
      ⟨front ++ keyword :: words, by rw [hline.rest_eq, hbody]; simp⟩
    refine ⟨hrest.close, .cons (blocks_of_line hh hq hsuffix calls) ?_⟩
    show Definition.AllBlocks (definition.definitions ++ others.definitions) _
    rw [hn]
    exact hrest.blocks
  | @body outermost pending cursor inside body close next keyword definition inner others hk hq hi
      hp ihi ih =>
    have hfc := hp.faults hf
    obtain ⟨front, words, colon, line, indent, h, hh, hline, hindent, hlb, hfresh, -⟩ :=
      heading_block hk (hi.faults hfc) hl hq
    obtain ⟨hlc, hsc, -⟩ := hi.blockLines hfc hlb hfresh
    have hheader := hh.forall_line (List.forall_mem_nil _)
    have hwhole : cursor.rest =
        (front ++ keyword :: words) ++ [colon] ++ line :: indent :: body.rest := by
      rw [h, List.append_cons]
    have hbelow : Turn.through (depth + 1) (Token.shifts body.rest) = some 0 := by
      rw [hwhole] at ht
      have := through_line ht hheader (.newline hline)
      rwa [Token.shifts_indent hindent] at this
    have hbody := @ihi hfc hlb hfresh (depth + 1) (by simp) hbelow
    have hrest := (hbody.block hindent (ih hf hlc hsc hd (hbody.through hbelow))).line hheader
      (.newline hline)
    rw [← hwhole] at hrest
    have hreaches := (reaches_heading hk hq).trans hi.reaches
    exact ⟨hrest.close,
      .cons (blocks_of_block hh h hline hindent hreaches hbody) hrest.blocks⟩
  | statement h hk ha hi hp ih =>
    obtain ⟨rfl, -⟩ := faults_reportStray (hi.faults (hp.faults hf))
    obtain ⟨words, left, hline, -⟩ := statement_line h ((h ▸ hl).isLayout_of_notMem hk) hi
      (hp.faults hf) hl hs
    exact .passesLine hline (ih hf hline.laid hline.fresh hd (hline.through ht))

end Cursor

/-- The indented body of a definition is a block that closes, and the definition ends with the last
token of text in it. -/
theorem Outline.exists_block {source : Bytes} (hf : (Script.ofSource source).outlineFaults = [])
    {definition : Definition} (hd : definition ∈ (Script.ofSource source).outline.allDefinitions)
    {front rest : List Token} {colon line indent : Token}
    (ht : (tokenize source).tokens = front ++ colon :: line :: indent :: rest)
    (hc : colon.kind = .colon) (hl : line.kind = .newline) (hi : indent.kind = .indent)
    (hb : definition.body = some colon.stop) :
    ∃ inner dedent after, rest = inner ++ dedent :: after ∧ dedent.kind = .dedent ∧
      Turn.through 0 (Token.shifts inner) = some 0 ∧
      definition.extent.stop = (Token.lastText colon inner).stop := by
  obtain ⟨cursor, final, next, he, hfinal, hlaid, hfresh, hpath, hn⟩ := path_ofSource hf
  have hshuts := @Cursor.BlockPath.shuts _ _ _ _ _ hpath hn hlaid hfresh 0 (by simp)
    (through_shifts_tokenize he)
  obtain ⟨colon', left, hsuffix, hcolon, hbody, hblock⟩ := hshuts.blocks definition hd
  have hlayout {token : Token} (h : token.kind = .colon) : token.kind.isLayout = false := by
    rw [h]
    rfl
  have hsame : colon :: line :: indent :: rest = colon' :: (left ++ [final]) := by
    refine (Token.ordered_tokenize source).suffix_eq ⟨front, ht.symm⟩ ?_ (hlayout hc)
      (hlayout hcolon) (Option.some.inj (hb.symm.trans hbody))
    obtain ⟨before, hbefore⟩ := hsuffix
    refine ⟨before, ?_⟩
    rw [he, ← hbefore]
    simp
  obtain ⟨rfl, hleft⟩ := List.cons.inj hsame
  -- The last token marks the end of the source, so it is behind the indentation.
  obtain ⟨rest', rfl⟩ : ∃ rest', left = line :: indent :: rest' := by
    match left, hleft with
    | [], h => cases h
    | [_], h =>
      cases h
      cases hi.symm.trans hfinal
    | _ :: _ :: rest', h =>
      cases h
      exact ⟨rest', rfl⟩
  obtain ⟨inner, dedent, after, rfl, hdedent, hinner, hstop⟩ := hblock line indent rest' rfl hl hi
  refine ⟨inner, dedent, after ++ [final], ?_, hdedent, hinner, hstop⟩
  have := (List.cons.inj (List.cons.inj hleft).2).2
  rw [this]
  simp

end ManifestScan
