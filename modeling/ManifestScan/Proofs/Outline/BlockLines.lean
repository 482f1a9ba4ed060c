import ManifestScan.Proofs.Outline.Heading
import ManifestScan.Proofs.Outline.Passes

namespace ManifestScan

theorem Laid.append_text {first : Bool} {depth : Nat} {passed rest : List Token}
    (h : Laid first depth (passed ++ rest)) (hp : ∀ token ∈ passed, token.kind.isLayout = false)
    (hn : passed ≠ []) : ∃ inner, Laid false inner rest := by
  induction passed generalizing first depth with
  | nil => exact absurd rfl hn
  | cons token passed ih =>
    obtain ⟨hk, hp⟩ := List.forall_mem_cons.1 hp
    have ht := h.tail hk
    cases passed with
    | nil => exact ⟨_, ht⟩
    | cons => exact ih ht hp (List.cons_ne_nil _ _)

theorem Token.called_ends {line left rest : List Token} (h : Ends left rest) :
    called (line ++ left) = called line ++ called rest := by
  cases h with
  | newline hk => exact called_append (by simp [hk]) (by simp [hk]) (by simp [hk]) _ _
  | last => rw [List.append_nil, show called [] = [] from rfl, List.append_nil]

/-- The header of the definition: its keyword, `async` in front or not, the words from its name on,
and the colon behind which its body starts. -/
structure Definition.Heads (definition : Definition) (front : List Token) (keyword : Token)
    (words : List Token) (colon : Token) : Prop where
  async : ∀ token ∈ front, token.kind = .asyncWord
  isKeyword : keyword.kind = .defWord ∨ keyword.kind = .classWord
  kind_eq : definition.kind = if keyword.kind = .classWord then .type else .function
  name : ∃ name others, words = name :: others ∧ definition.name = name.text
  isColon : colon.kind = .colon
  body_eq : definition.body = some colon.stop
  text : ∀ token ∈ words, token.kind.isLayout = false

namespace Definition.Heads

variable {definition : Definition} {front words : List Token} {keyword colon : Token}

/-- What the body holds is no matter of the header. -/
theorem close (h : definition.Heads front keyword words colon) (calls : List Call)
    (definitions : List Definition) (cursor : Cursor) :
    (Cursor.closeDefinition { definition with calls := calls, definitions := definitions }
      cursor).Heads front keyword words colon :=
  ⟨h.async, h.isKeyword, h.kind_eq, h.name, h.isColon, h.body_eq, h.text⟩

/-- A header stands on one line. -/
theorem forall_line (h : definition.Heads front keyword words colon) {behind : List Token}
    (hb : ∀ token ∈ behind, token.kind.isLayout = false) :
    ∀ token ∈ (front ++ keyword :: words) ++ colon :: behind, token.kind.isLayout = false := by
  have hcolon : colon.kind.isLayout = false := by
    rw [h.isColon]
    rfl
  have hheader := List.forall_mem_append.2 ⟨Cursor.forall_keyword h.async h.isKeyword, h.text⟩
  rw [← List.append_cons] at hheader
  exact List.forall_mem_append.2 ⟨hheader, List.forall_mem_cons.2 ⟨hcolon, hb⟩⟩

end Definition.Heads

open Cursor (Contents)

/-- Contents that are read from tokens line by line, up to what is left, with the decorators that no
definition has taken yet. -/
inductive BlockLines : List Decorator → List Token → Contents → List Token → Prop
  | nil {pending : List Decorator} : BlockLines pending [] ⟨[], []⟩ []
  | close {pending : List Decorator} {token : Token} {rest : List Token}
      (hk : token.kind = .dedent) :
    BlockLines pending (token :: rest) ⟨[], []⟩ rest
  | pass {pending : List Decorator} {token : Token} {rest next : List Token} {contents : Contents}
    (hk : token.kind = .dedent ∨ token.kind = .newline)
    (hp : BlockLines pending rest contents next) :
    BlockLines pending (token :: rest) contents next
  | indent {pending : List Decorator} {token : Token} {rest close next : List Token}
    {inner others : Contents} (hk : token.kind = .indent) (hi : BlockLines [] rest inner close)
    (hp : BlockLines pending close others next) :
    BlockLines pending (token :: rest)
      ⟨inner.calls ++ others.calls, inner.definitions ++ others.definitions⟩ next
  | decorator {pending : List Decorator} {mark : Token} {words left rest next : List Token}
    {decorator : Decorator} {contents : Contents} (hk : mark.kind = .at)
    (hw : ∀ token ∈ words, token.kind.isLayout = false) (hr : Token.Ends left rest)
    (he : decorator.extent = ⟨mark.offset, (words.getLastD mark).stop⟩)
    (hp : BlockLines (pending ++ [decorator]) rest contents next) :
    BlockLines pending (mark :: words ++ left) contents next
  | line {pending : List Decorator} {front words behind left close next : List Token}
    {keyword colon : Token} {definition : Definition} {others : Contents}
    (hd : definition.decorators = pending) (hh : definition.Heads front keyword words colon)
    (hb : ∀ token ∈ behind, token.kind.isLayout = false) (hr : Token.Ends left close)
    (hc : Call.names definition.calls = Token.called behind) (hn : definition.definitions = [])
    (hp : BlockLines [] close others next) :
    BlockLines pending ((front ++ keyword :: words) ++ colon :: behind ++ left)
      ⟨others.calls, definition :: others.definitions⟩ next
  | body {pending : List Decorator} {front words below close next : List Token}
    {keyword colon line indent : Token} {definition : Definition} {others : Contents}
    (hd : definition.decorators = pending) (hh : definition.Heads front keyword words colon)
    (hl : line.kind = .newline) (hk : indent.kind = .indent)
    (hi : BlockLines [] below ⟨definition.calls, definition.definitions⟩ close)
    (hp : BlockLines [] close others next) :
    BlockLines pending ((front ++ keyword :: words) ++ [colon] ++ line :: indent :: below)
      ⟨others.calls, definition :: others.definitions⟩ next
  | statement {token : Token} {words left close next : List Token} {calls : List Call}
    {others : Contents} (ha : token.kind ≠ .at)
    (hw : ∀ other ∈ token :: words, other.kind.isLayout = false) (hr : Token.Ends left close)
    (hc : Call.names calls = Token.called (token :: words)) (hp : BlockLines [] close others next) :
    BlockLines [] (token :: words ++ left) ⟨calls ++ others.calls, others.definitions⟩ next

namespace Cursor

/-- The line of a header without faults, up to its colon. -/
theorem heading_reads {pending : List Decorator} {cursor inside body : Cursor} {keyword : Token}
    {definition : Definition} {form : BodyForm}
    (hk : cursor.pastAsync.pastKeyword? = some (keyword, inside))
    (hq : header pending keyword inside = ⟨definition, form, body⟩) (hf : body.faults = [])
    (hl : Laid true 0 cursor.rest) :
    ∃ front words colon left inner, cursor.rest = (front ++ keyword :: words) ++ colon :: left ∧
      definition.Heads front keyword words colon ∧ Laid false inner left ∧
      definition.decorators = pending ∧ definition.definitions = [] ∧
      Opens colon form left body := by
  obtain ⟨front, rest, h, hrest, hasync, hkeyword⟩ := pastKeyword?_reads hk
  have hfront := forall_keyword hasync hkeyword
  rw [h, List.append_cons] at hl
  obtain ⟨depth, hinside⟩ := hl.append_text hfront (by simp)
  rw [← hrest] at hinside
  obtain ⟨colon, left, inner, hx, hcolon, hd, hn, hb, ho⟩ := header_reads hq hf hinside
  obtain ⟨words, he, hw⟩ := hx.exists_passed
  obtain ⟨name, others, hr, hi, hname⟩ := header_name hq hf
  have hwords : ∃ more, words = name :: more := by
    rw [hr] at he
    cases words with
    | nil =>
      cases he
      cases hcolon.symm.trans hi
    | cons word more =>
      cases he
      exact ⟨more, rfl⟩
  obtain ⟨more, hmore⟩ := hwords
  refine ⟨front, words, colon, left, _, ?_, ⟨hasync, hkeyword, (header_takes hq).2.1,
    ⟨name, more, hmore, hname⟩, hcolon, hb, hw⟩, (hx.laid hinside).tail (by rw [hcolon]; rfl),
      hd, hn, ho⟩
  rw [h, ← hrest, he, List.append_assoc, List.cons_append]

section

variable {pending : List Decorator} {cursor inside body : Cursor} {keyword : Token}
  {definition : Definition}
  (hk : cursor.pastAsync.pastKeyword? = some (keyword, inside)) (hf : body.faults = [])
  (hl : Laid true 0 cursor.rest)

include hk hf hl

/-- A header that lacks its colon is a fault. -/
theorem not_missing : header pending keyword inside ≠ ⟨definition, .missing, body⟩ := by
  intro hq
  obtain ⟨front, words, colon, left, inner, -, -, -, -, -, hopens⟩ := heading_reads hk hq hf hl
  cases hopens

/-- The line of a header with its body on it, up to the colon. -/
theorem heading_line (hq : header pending keyword inside = ⟨definition, .line, body⟩) :
    ∃ front words colon inner, cursor.rest = (front ++ keyword :: words) ++ colon :: body.rest ∧
      definition.Heads front keyword words colon ∧ Laid false inner body.rest ∧ body.Fresh ∧
      definition.decorators = pending ∧ definition.definitions = [] := by
  obtain ⟨front, words, colon, left, inner, h, hh, hleft, hd, hn, hopens⟩ :=
    heading_reads hk hq hf hl
  obtain ⟨rfl, hprevious⟩ : body.rest = left ∧ body.previous = colon := by
    cases hopens with
    | line hr hp => exact ⟨hr, hp⟩
  refine ⟨front, words, colon, inner, h, hh, hleft, ?_, hd, hn⟩
  refine fresh_of_ne ?_ ?_ <;> rw [hprevious, hh.isColon] <;> decide

/-- The line of a header with its body in a block below it. -/
theorem heading_block (hq : header pending keyword inside = ⟨definition, .block, body⟩) :
    ∃ front words colon line indent,
      cursor.rest = (front ++ keyword :: words) ++ colon :: line :: indent :: body.rest ∧
      definition.Heads front keyword words colon ∧ line.kind = .newline ∧ indent.kind = .indent ∧
      Laid true 0 body.rest ∧ body.Fresh ∧ definition.decorators = pending := by
  obtain ⟨front, words, colon, left, inner, h, hh, hleft, hd, -, hopens⟩ :=
    heading_reads hk hq hf hl
  obtain ⟨line, indent, rfl, hline, hindent, hprevious⟩ : ∃ line indent,
      left = line :: indent :: body.rest ∧ line.kind = .newline ∧ indent.kind = .indent ∧
        body.previous = indent := by
    cases hopens with
    | block hr hl hi hp => exact ⟨_, _, hr, hl, hi, hp⟩
  have hlinelayout : line.kind.isLayout = true := by rw [hline]; rfl
  have hindentlayout : indent.kind.isLayout = true := by rw [hindent]; rfl
  exact ⟨front, words, colon, line, indent, h, hh, hline, hindent,
    (hleft.line_start hlinelayout).line_start hindentlayout,
    fresh_of_layout (hprevious.symm ▸ hindentlayout), hd⟩

end

/-- A statement is the rest of a line. -/
theorem StatementPath.reads_line {open_ : Nat} {cursor close : Cursor} {calls : List Call}
    (h : StatementPath cursor calls close) (hf : close.faults = [])
    (hl : Laid false open_ cursor.rest) (hs : cursor.Fresh) :
    Laid true 0 close.rest ∧ close.Fresh ∧ ∃ words left, cursor.rest = words ++ left ∧
      Token.Ends left close.rest ∧ (∀ token ∈ words, token.kind.isLayout = false) ∧
      Call.names calls = Token.called words := by
  obtain ⟨left, depth, hx, hend, hfresh, hah⟩ := h.reads hf hl hs.2
  obtain ⟨words, he, hw⟩ := hx.exists_passed
  refine ⟨(hx.laid hl).ends hend, hfresh, words, left, he, hend, hw, ?_⟩
  rw [hs.1, he, Token.called_ends hend] at hah
  exact (List.append_cancel_right hah).symm

/-- The words of one line are passed, and the next cursor starts the line behind them. -/
structure PassesLine (cursor : Cursor) (words left : List Token) (next : Cursor) : Prop where
  rest_eq : cursor.rest = words ++ left
  text : ∀ token ∈ words, token.kind.isLayout = false
  ends : Token.Ends left next.rest
  laid : Laid true 0 next.rest
  fresh : next.Fresh

/-- A decorator is a line of its own. -/
theorem decorator_line {cursor behind : Cursor} {mark : Token} {rest : List Token}
    {decorator : Decorator} (h : cursor.rest = mark :: rest) (hk : mark.kind = .at)
    (hq : cursor.decorator mark rest = (decorator, behind)) (hl : Laid true 0 cursor.rest) :
    ∃ words left, cursor.PassesLine (mark :: words) left behind ∧
      decorator.extent = ⟨mark.offset, (words.getLastD mark).stop⟩ := by
  have hlayout : mark.kind.isLayout = false := by rw [hk]; rfl
  rw [h] at hl
  obtain ⟨words, left, rfl, hw, hend, hfresh, he⟩ := decorator_reads hq (hl.tail hlayout)
  have hwords : ∀ token ∈ mark :: words, token.kind.isLayout = false :=
    List.forall_mem_cons.2 ⟨hlayout, hw⟩
  rw [← List.cons_append] at h hl
  obtain ⟨inner, hleft⟩ := hl.append_text hwords (List.cons_ne_nil _ _)
  exact ⟨words, left, ⟨h, hwords, hend, hleft.ends hend, hfresh⟩, he⟩

/-- A definition whose body stands behind the colon is one line. -/
theorem definition_line {pending : List Decorator} {cursor inside body close : Cursor}
    {keyword : Token} {definition : Definition} {calls : List Call}
    (hk : cursor.pastAsync.pastKeyword? = some (keyword, inside))
    (hq : header pending keyword inside = ⟨definition, .line, body⟩)
    (hi : StatementPath body calls close) (hf : close.faults = []) (hl : Laid true 0 cursor.rest) :
    ∃ front words colon behind left, definition.Heads front keyword words colon ∧
      cursor.PassesLine ((front ++ keyword :: words) ++ colon :: behind) left close ∧
      body.rest = behind ++ left ∧ Call.names calls = Token.called behind ∧
      definition.decorators = pending ∧ definition.definitions = [] := by
  obtain ⟨front, words, colon, inner, h, hh, hleft, hfresh, hd, hn⟩ :=
    heading_line hk (hi.faults hf) hl hq
  obtain ⟨hlc, hsc, behind, left, he, hend, hbehind, hnames⟩ := hi.reads_line hf hleft hfresh
  refine ⟨front, words, colon, behind, left, hh, ⟨?_, hh.forall_line hbehind, hend, hlc, hsc⟩, he,
    hnames, hd, hn⟩
  rw [h, he, List.append_assoc (front ++ keyword :: words), List.cons_append]

/-- A statement where a line starts is that line. -/
theorem statement_line {cursor close : Cursor} {token : Token} {rest : List Token}
    {calls : List Call} (h : cursor.rest = token :: rest) (hk : token.kind.isLayout = false)
    (hi : StatementPath cursor calls close) (hf : close.faults = [])
    (hl : Laid true 0 cursor.rest) (hs : cursor.Fresh) :
    ∃ words left, cursor.PassesLine (token :: words) left close ∧
      Call.names calls = Token.called (token :: words) := by
  have hline : Laid false 0 cursor.rest := by
    rw [h] at hl ⊢
    exact hl.on_line hk
  obtain ⟨hlc, hsc, words, left, he, hend, hw, hnames⟩ := hi.reads_line hf hline hs
  cases words with
  | nil =>
    -- Nothing of the line would be passed, but it starts with a token of text.
    rw [h, List.nil_append] at he
    rw [← he] at hend
    cases hend with
    | newline hn =>
      rw [hn] at hk
      cases hk
  | cons word words =>
    obtain rfl : token = word := List.head_eq_of_cons_eq (h.symm.trans he)
    exact ⟨words, left, ⟨he, hw, hend, hlc, hsc⟩, hnames⟩

/-- A block without faults is read line by line. -/
theorem BlockPath.blockLines {outermost : Bool} {pending : List Decorator} {cursor next : Cursor}
    {contents : Contents} (h : BlockPath outermost pending cursor contents next)
    (hf : next.faults = []) (hl : Laid true 0 cursor.rest) (hs : cursor.Fresh) :
    Laid true 0 next.rest ∧ next.Fresh ∧ BlockLines pending cursor.rest contents next.rest := by
  -- Each line leaves the tokens laid out and the cursor fresh for the line behind it.
  induction h with
  | nil h =>
    refine ⟨hl, hs, ?_⟩
    rw [h]
    exact .nil
  | @close pending cursor token rest h hk =>
    have hlayout : token.kind.isLayout = true := by rw [hk]; rfl
    rw [h] at hl ⊢
    exact ⟨hl.line_start hlayout, fresh_of_layout hlayout, .close hk⟩
  | @pass outermost pending cursor next token rest contents h hk _ _ ih =>
    have hlayout : token.kind.isLayout = true := by rcases hk with hk | hk <;> rw [hk] <;> rfl
    rw [h] at hl ⊢
    obtain ⟨hlo, hso, hp⟩ := ih hf (hl.line_start hlayout) (fresh_of_layout hlayout)
    exact ⟨hlo, hso, .pass hk hp⟩
  | @indent outermost pending cursor close next token rest inner others h hk _ hp ihi ih =>
    have hlayout : token.kind.isLayout = true := by rw [hk]; rfl
    rw [h] at hl ⊢
    obtain ⟨hli, hsi, hi⟩ := ihi (hp.faults hf) (hl.line_start hlayout) (fresh_of_layout hlayout)
    obtain ⟨hlo, hso, ho⟩ := ih hf hli hsi
    exact ⟨hlo, hso, .indent hk hi ho⟩
  | decorator h hk hq _ ih =>
    obtain ⟨words, left, hline, he⟩ := decorator_line h hk hq hl
    obtain ⟨hlo, hso, ho⟩ := ih hf hline.laid hline.fresh
    refine ⟨hlo, hso, ?_⟩
    rw [hline.rest_eq]
    exact .decorator hk (List.forall_mem_cons.1 hline.text).2 hline.ends he ho
  | missing hk hq hp => exact absurd hq (not_missing hk (hp.faults hf) hl)
  | line hk hq hi hp ih =>
    obtain ⟨front, words, colon, behind, left, hh, hline, -, hnames, hd, hn⟩ :=
      definition_line hk hq hi (hp.faults hf) hl
    obtain ⟨hlo, hso, ho⟩ := ih hf hline.laid hline.fresh
    have hbehind := (List.forall_mem_cons.1 (List.forall_mem_append.1 hline.text).2).2
    refine ⟨hlo, hso, ?_⟩
    rw [hline.rest_eq]
    exact .line hd (hh.close _ _ _) hbehind hline.ends hnames hn ho
  | body hk hq hi hp ihi ih =>
    have hfc := hp.faults hf
    obtain ⟨front, words, colon, line, indent, h, hh, hline, hindent, hbelow, hfresh, hd⟩ :=
      heading_block hk (hi.faults hfc) hl hq
    obtain ⟨hlc, hsc, hbody⟩ := ihi hfc hbelow hfresh
    obtain ⟨hlo, hso, ho⟩ := ih hf hlc hsc
    refine ⟨hlo, hso, ?_⟩
    rw [h, List.append_cons]
    exact .body hd (hh.close _ _ _) hline hindent hbody ho
  | statement h hk ha hi hp ih =>
    -- Without faults no decorator is pending where a statement starts.
    obtain ⟨rfl, -⟩ := faults_reportStray (hi.faults (hp.faults hf))
    obtain ⟨words, left, hline, hnames⟩ := statement_line h ((h ▸ hl).isLayout_of_notMem hk) hi
      (hp.faults hf) hl hs
    obtain ⟨hlo, hso, ho⟩ := ih hf hline.laid hline.fresh
    refine ⟨hlo, hso, ?_⟩
    rw [hline.rest_eq]
    exact .statement ha hline.text hline.ends hnames ho

end Cursor

end ManifestScan
