import ManifestScan.Proofs.Outline.Indentation
import ManifestScan.Proofs.Outline.Spread

namespace ManifestScan

namespace Token

/-- Tokens of one line are passed, or all that are left. -/
def Along (tokens rest : List Token) : Prop :=
  rest = [] ∨ ∃ words, tokens = words ++ rest ∧ ∀ token ∈ words, token.kind.isLayout = false

/-- The rest of a line is passed with its end, or all that is left. -/
def Lands (tokens rest : List Token) : Prop :=
  rest = [] ∨ ∃ words left, tokens = words ++ left ∧ Ends left rest ∧
    ∀ token ∈ words, token.kind.isLayout = false

/-- Lines and whole blocks are passed, or all that is left. -/
def Level (tokens rest : List Token) : Prop :=
  rest = [] ∨ Laid true 0 rest ∧ ∃ passed, tokens = passed ++ rest ∧
    Turn.through 0 (shifts passed) = some 0

/-- The rest of a block is passed with the token that closes it, or all that is left. -/
def Leaves (tokens rest : List Token) : Prop :=
  rest = [] ∨ ∃ inner dedent, tokens = inner ++ dedent :: rest ∧ dedent.kind = .dedent ∧
    Turn.through 0 (shifts inner) = some 0

variable {tokens middle rest words : List Token} {token indent : Token} {first : Bool} {depth : Nat}

namespace Along

theorem of_nil (h : Along [] rest) : rest = [] :=
  h.elim id fun ⟨_, he, _⟩ => (List.append_eq_nil_iff.1 he.symm).2

theorem prepend (h : Along tokens rest) (hw : ∀ token ∈ words, token.kind.isLayout = false) :
    Along (words ++ tokens) rest := by
  refine h.imp_right
    fun ⟨others, he, ho⟩ => ⟨words ++ others, ?_, List.forall_mem_append.2 ⟨hw, ho⟩⟩
  rw [he, List.append_assoc]

theorem trans (h : Along tokens middle) (h' : Along middle rest) : Along tokens rest := by
  rcases h with rfl | ⟨words, rfl, hw⟩
  · exact .inl h'.of_nil
  · exact h'.prepend hw

theorem laid (h : Along tokens rest) (hl : Laid false depth tokens) :
    ∃ inner, Laid false inner rest := by
  rcases h with rfl | ⟨words, rfl, hw⟩
  · exact ⟨depth, .nil⟩
  · cases words with
    | nil => exact ⟨depth, hl⟩
    | cons word words => exact hl.append_text hw (List.cons_ne_nil _ _)

end Along

namespace Lands

theorem of_nil (h : Lands [] rest) : rest = [] := by
  rcases h with h | ⟨words, left, he, hend, -⟩
  · exact h
  · obtain ⟨-, rfl⟩ := List.append_eq_nil_iff.1 he.symm
    cases hend
    rfl

theorem prepend (h : Lands tokens rest) (hw : ∀ token ∈ words, token.kind.isLayout = false) :
    Lands (words ++ tokens) rest := by
  refine h.imp_right fun ⟨others, left, he, hend, ho⟩ =>
    ⟨words ++ others, left, ?_, hend, List.forall_mem_append.2 ⟨hw, ho⟩⟩
  rw [he, List.append_assoc]

theorem cons (h : Lands tokens rest) (hk : token.kind.isLayout = false) :
    Lands (token :: tokens) rest := by
  have := @prepend _ _ [token] h (List.forall_mem_singleton.2 hk)
  exact this

/-- A line ends on the level on which it starts. -/
theorem level (h : Lands tokens rest) (hl : Laid first depth tokens) : Level tokens rest := by
  rcases h with h | ⟨words, left, rfl, hend, hw⟩
  · exact .inl h
  · obtain ⟨first, depth, hl⟩ := hl.of_append
    obtain ⟨ends, rfl, hends⟩ := hend.exists_passed
    refine .inr ⟨hl.ends hend, words ++ ends, (List.append_assoc ..).symm, ?_⟩
    rw [shifts_text_append hw, hends]
    rfl

end Lands

theorem Along.lands (h : Along tokens middle) (h' : Lands middle rest) : Lands tokens rest := by
  rcases h with rfl | ⟨words, rfl, hw⟩
  · exact .inl h'.of_nil
  · exact h'.prepend hw

namespace Level

theorem laid (h : Level tokens rest) : Laid true 0 rest := by
  rcases h with rfl | ⟨hl, -⟩
  · exact .nil
  · exact hl

theorem through (h : Level tokens rest) (ht : Turn.through 0 (shifts tokens) = some 0) :
    Turn.through 0 (shifts rest) = some 0 := by
  rcases h with rfl | ⟨-, passed, rfl, hp⟩
  · rfl
  · rwa [shifts_append, Turn.through_append, hp] at ht

theorem trans (h : Level tokens middle) (h' : Level middle rest) : Level tokens rest := by
  rcases h with rfl | ⟨-, passed, rfl, hp⟩
  · refine .inl (h'.elim id fun ⟨_, others, he, _⟩ => (List.append_eq_nil_iff.1 he.symm).2)
  · refine h'.imp_right fun ⟨hl, others, he, ho⟩ => ⟨hl, passed ++ others, ?_, ?_⟩
    · rw [he, List.append_assoc]
    · rw [shifts_append, Turn.through_append, hp]
      exact ho

theorem leaves (h : Level tokens middle) (h' : Leaves middle rest) : Leaves tokens rest := by
  rcases h with rfl | ⟨-, passed, rfl, hp⟩
  · exact h'.imp_right fun ⟨_, _, he, _⟩ => by simp at he
  · refine h'.imp_right fun ⟨inner, dedent, he, hk, hi⟩ => ⟨passed ++ inner, dedent, ?_, hk, ?_⟩
    · rw [he, List.append_assoc]
    · rw [shifts_append, Turn.through_append, hp]
      exact hi

end Level

/-- Behind a block its own level goes on. -/
theorem Leaves.level (h : Leaves tokens rest) (hk : indent.kind = .indent)
    (hl : Laid first depth tokens) : Level (indent :: tokens) rest := by
  refine h.imp_right fun ⟨inner, dedent, he, hd, hi⟩ => ?_
  rw [he] at hl ⊢
  obtain ⟨first, depth, hl⟩ := hl.of_append
  refine ⟨hl.line_start (by rw [hd]; rfl), indent :: (inner ++ [dedent]), by simp, ?_⟩
  rw [shifts_indent hk, shifts_append, shifts_dedent hd]
  show Turn.through 1 _ = _
  rw [Turn.through_append, Turn.through_add hi 1]
  rfl

end Token

open Token (Along Lands Level Leaves)

theorem Crosses.along {tokens rest : List Token} {outer inner : Nat}
    (h : Crosses tokens rest outer inner) : Along tokens rest := .inr h.exists_passed

namespace Cursor

variable {cursor inside body close next : Cursor} {token keyword : Token} {rest : List Token}
  {pending : List Decorator} {definition : Definition} {form : BodyForm} {open_ : Nat}

/-- An argument list is left behind the bracket that closes it, unless nothing does. -/
theorem ArgumentsPath.crosses {depth : Nat} {list : Arguments}
    (h : ArgumentsPath depth cursor list next) (hl : Laid false open_ cursor.rest) (hd : depth ≠ 0)
    (hle : depth ≤ open_) :
    next.rest = [] ∨ Crosses cursor.rest next.rest open_ (open_ - depth) := by
  induction h generalizing open_ with
  | nil h => exact .inl h
  | @uncalled depth cursor behind next token rest callee list hb h hk hq hn _ ih =>
    obtain ⟨-, hcross, -⟩ := named_reads h hk hq
    have hcross := hcross open_
    rw [hn] at hcross
    exact (ih (hcross.laid hl) hd hle).imp_right hcross.trans
  | @called depth cursor behind close next token rest callee inner others hb h hk hq hn hi hp
      ihi ih =>
    obtain ⟨-, hcross, -⟩ := named_reads h hk hq
    have hcross := hcross open_
    rw [hn] at hcross
    rcases ihi (hcross.laid hl) (by decide) (by simp) with hr | hx
    · exact .inl (hp.of_nil hr).2.2
    · have hcross := hcross.trans hx
      exact (ih (hcross.laid hl) hd hle).imp_right hcross.trans
  | @close depth cursor token rest h hclose hone =>
    obtain rfl : depth = 1 := by omega
    obtain ⟨-, hlayout, hopening⟩ := TokenKind.of_isClosing hclose
    rw [h]
    refine .inr (.cons hlayout ?_)
    rw [TokenKind.depthAfter, if_neg (by simp [hopening]), if_pos hclose]
    exact .refl
  | @skip depth cursor next token rest list h hk hcl hp ih =>
    rw [h] at hl ⊢
    by_cases hlayout : token.kind.isLayout = true
    · -- No line ends within brackets, so nothing follows that closes the list.
      have hrest := (hl.layout hlayout).1.resolve_left (by omega)
      exact .inl (hp.takes.unclosed (hp.close_layout hrest)).1
    · have hlayout : token.kind.isLayout = false := by simpa using hlayout
      obtain ⟨hsub, hpos, hmono⟩ := TokenKind.depthAfter_sub hd hle hcl
      refine (ih (hl.tail hlayout) hpos hmono).imp_right fun hx => .cons hlayout ?_
      rwa [hsub] at hx

theorem StatementPath.of_nil {calls : List Call} (h : StatementPath cursor calls next)
    (hr : cursor.rest = []) : next.rest = [] :=
  List.suffix_nil.1 (hr ▸ h.reaches.suffix)

/-- A statement is left behind its line. -/
theorem StatementPath.lands {calls : List Call} (h : StatementPath cursor calls next)
    (hl : Laid false open_ cursor.rest) : Lands cursor.rest next.rest := by
  induction h generalizing open_ with
  | nil h => exact .inl h
  | @newline cursor token rest h hk =>
    rw [h]
    exact .inr ⟨[], token :: rest, rfl, .newline hk, List.forall_mem_nil _⟩
  | @indentation cursor token rest h hk =>
    rw [h] at hl
    exact absurd hk hl.not_indentation
  | @uncalled cursor behind next token rest callee calls hb h hk hq hn _ ih =>
    obtain ⟨-, hcross, -⟩ := named_reads h hk hq
    exact (hcross open_).along.lands (ih ((hcross open_).laid hl))
  | @called cursor behind close next token rest callee inner calls hb h hk hq hn hi hp ih =>
    obtain ⟨-, hcross, -⟩ := named_reads h hk hq
    have hcross := hcross open_
    rw [hn] at hcross
    rcases hi.crosses (hcross.laid hl) (by decide) (by simp) with hr | hx
    · exact .inl (hp.of_nil hr)
    · have hcross := hcross.trans hx
      exact hcross.along.lands (ih (hcross.laid hl))
  | @skip cursor next token rest calls h hl' hk hp ih =>
    rw [h] at hl ⊢
    have hlayout := hl.isLayout_of_notMem hl'
    exact (ih (hl.tail hlayout)).cons hlayout

theorem pastLine_lands (hl : Laid false open_ cursor.rest) :
    Lands cursor.rest cursor.pastLine.rest := by
  fun_induction pastLine cursor generalizing open_ with
  | case1 cursor h => exact .inl h
  | case2 cursor token rest h hk =>
    rw [h]
    exact .inr ⟨[], token :: rest, rfl, .newline hk, List.forall_mem_nil _⟩
  | case3 cursor token rest h hk ih =>
    rw [h] at hl ⊢
    have hlayout := hl.isLayout_of_ne hk
    exact (ih (hl.tail hlayout)).cons hlayout

theorem parameterList_along (definition : Definition) (hl : Laid false open_ cursor.rest) :
    Along cursor.rest (cursor.parameterList definition).2.rest :=
  (parameterList_crosses definition hl).elim (fun hu => .inl hu.2) fun hx => hx.along

theorem returnType_along (definition : Definition) (hl : Laid false open_ cursor.rest) :
    Along cursor.rest (cursor.returnType definition).2.rest :=
  (returnType_crosses definition hl).elim (fun hu => .inl hu.2) fun ⟨_, hx⟩ => hx.along

/-- A header is broken and its line passed, or it ends with its colon. -/
theorem opening_form (definition : Definition) (hl : Laid false open_ cursor.rest) :
    let header := cursor.opening definition
    (header.form = .missing ∧ Lands cursor.rest header.next.rest) ∨
      ∃ colon left, cursor.rest = colon :: left ∧ colon.kind.isLayout = false ∧
        Opens colon header.form left header.next := by
  unfold opening
  split
  · exact .inl ⟨rfl, @pastLine_lands (cursor.report _ _) _ hl⟩
  · rename_i inside hi
    obtain ⟨colon, left, h, hk, rfl⟩ := past?_eq_some hi
    have hlayout : colon.kind.isLayout = false := by rw [hk]; rfl
    dsimp only
    split
    · exact .inr ⟨colon, left, h, hlayout, .line rfl rfl⟩
    · rename_i below hb
      obtain ⟨line, rest, hline, hlk, rfl⟩ := past?_eq_some hb
      split
      · rename_i block hblock
        obtain ⟨indent, others, hind, hik, rfl⟩ := past?_eq_some hblock
        exact .inr ⟨colon, left, h, hlayout,
          .block (hline.trans (congrArg (line :: ·) hind)) hlk hik rfl⟩
      · refine .inl ⟨rfl, .inr ⟨[colon], line :: rest, ?_, .newline hlk, by simpa using hlayout⟩⟩
        rw [h]
        exact congrArg _ hline

theorem header_form (hq : header pending keyword cursor = ⟨definition, form, next⟩)
    (hl : Laid false open_ cursor.rest) :
    (form = .missing ∧ Lands cursor.rest next.rest) ∨
      ∃ colon left inner, Along cursor.rest left ∧ Laid false inner left ∧
        Opens colon form left next := by
  unfold header at hq
  dsimp only at hq
  split at hq
  · cases hq
    exact .inl ⟨rfl, @pastLine_lands (cursor.report _ _) _ hl⟩
  · rename_i named hn
    obtain ⟨name, rest, h, hk, rfl⟩ := past?_eq_some hn
    generalize (⟨_, _, _, _, _, _, _, _, _, _⟩ : Definition) = start at hq
    have hname : Along cursor.rest rest := by
      rw [h]
      exact .inr ⟨[name], rfl, by simp [hk, TokenKind.isLayout]⟩
    obtain ⟨depth, hlname⟩ := hname.laid hl
    have hlist := hname.trans (@parameterList_along (cursor.past name rest) _ start hlname)
    generalize (cursor.past name rest).parameterList start = listed at hq hlist
    obtain ⟨depth, hllist⟩ := hlist.laid hl
    have htype := hlist.trans (returnType_along listed.1 hllist)
    generalize listed.2.returnType listed.1 = typed at hq htype
    obtain ⟨depth, hltype⟩ := htype.laid hl
    rcases opening_form typed.1 hltype with ⟨hform, hland⟩ | ⟨colon, left, he, hcolon, hopens⟩
    · rw [hq] at hform hland
      exact .inl ⟨hform, htype.lands hland⟩
    · rw [hq] at hopens
      rw [he] at htype hltype
      refine .inr ⟨colon, left, _, htype.trans (.inr ⟨[colon], rfl, by simpa using hcolon⟩),
        hltype.tail hcolon, hopens⟩

/-- A line of text starts outside all brackets. -/
theorem statement_level (h : cursor.rest = token :: rest) (hk : token.kind.isLayout = false)
    {calls : List Call} (hp : StatementPath (cursor.reportStray pending) calls close)
    (hl : Laid true 0 cursor.rest) : Level cursor.rest close.rest := by
  rw [← rest_reportStray cursor pending] at hl ⊢
  refine (hp.lands (?_ : Laid false 0 _)).level hl
  rw [rest_reportStray, h] at hl ⊢
  exact hl.on_line hk

theorem decorator_level {decorator : Decorator} (h : cursor.rest = token :: rest)
    (hk : token.kind = .at) (hq : cursor.decorator token rest = (decorator, close))
    (hl : Laid true 0 cursor.rest) : Level cursor.rest close.rest := by
  have hlayout : token.kind.isLayout = false := by rw [hk]; rfl
  rw [h] at hl ⊢
  obtain ⟨words, left, rfl, hw, hend, -, -⟩ := decorator_reads hq (hl.tail hlayout)
  have hland : Lands (words ++ left) close.rest := .inr ⟨words, left, rfl, hend, hw⟩
  exact (hland.cons hlayout).level hl

section

variable (hk : cursor.pastAsync.pastKeyword? = some (keyword, inside))
  (hl : Laid true 0 cursor.rest)

include hk hl

theorem keyword_along : Along cursor.rest inside.rest ∧ ∃ inner, Laid false inner inside.rest := by
  obtain ⟨front, rest, h, hrest, hasync, hkeyword⟩ := pastKeyword?_reads hk
  have hfront := forall_keyword hasync hkeyword
  rw [h, List.append_cons, ← hrest] at hl ⊢
  exact ⟨.inr ⟨_, rfl, hfront⟩, hl.append_text hfront (by simp)⟩

theorem missing_level (hq : header pending keyword inside = ⟨definition, .missing, body⟩) :
    Level cursor.rest body.rest := by
  obtain ⟨hinside, depth, hlinside⟩ := keyword_along hk hl
  rcases header_form hq hlinside with ⟨-, hland⟩ | ⟨colon, left, inner, -, -, hopens⟩
  · exact (hinside.lands hland).level hl
  · cases hopens

theorem line_level (hq : header pending keyword inside = ⟨definition, .line, body⟩)
    {calls : List Call} (hp : StatementPath body calls close) : Level cursor.rest close.rest := by
  obtain ⟨hinside, depth, hlinside⟩ := keyword_along hk hl
  rcases header_form hq hlinside with ⟨hform, -⟩ | ⟨colon, left, inner, halong, hleft, hopens⟩
  · cases hform
  · cases hopens with
    | line hr _ =>
      rw [← hr] at halong hleft
      exact ((hinside.trans halong).lands (hp.lands hleft)).level hl

/-- An indented body starts a block. -/
theorem body_level (hq : header pending keyword inside = ⟨definition, .block, body⟩) :
    ∃ indent, indent.kind = .indent ∧ body.previous = indent ∧
      Level cursor.rest (indent :: body.rest) := by
  obtain ⟨hinside, depth, hlinside⟩ := keyword_along hk hl
  rcases header_form hq hlinside with ⟨hform, -⟩ | ⟨colon, left, inner, halong, hleft, hopens⟩
  · cases hform
  · cases hopens with
    | @block line indent _ _ hr hline hindent hprevious =>
      rw [hr] at halong
      have hland : Lands (line :: indent :: body.rest) (indent :: body.rest) :=
        .inr ⟨[], _, rfl, .newline hline, List.forall_mem_nil _⟩
      exact ⟨indent, hindent, hprevious, ((hinside.trans halong).lands hland).level hl⟩

end

/-- A block that a token of indentation opened is left right behind the one that closes it, whatever
is wrong in it, or at the end of the source. -/
theorem BlockPath.leaves {contents : Contents} (h : BlockPath false pending cursor contents next)
    (hl : Laid true 0 cursor.rest) : Leaves cursor.rest next.rest := by
  -- The induction needs a variable here, and `ho` keeps that the block is an inner one.
  generalize ho : false = outermost at h
  induction h with
  | nil h => exact .inl h
  | @close pending cursor token rest h hk =>
    rw [h]
    exact .inr ⟨[], token, rfl, hk, rfl⟩
  | @pass outermost pending cursor next token rest contents h hk hd _ ih =>
    have hkind : token.kind = .newline :=
      hk.resolve_left fun he => Bool.false_ne_true (ho.trans (hd he))
    rw [h] at hl ⊢
    have hland : Lands (token :: rest) rest :=
      .inr ⟨[], _, rfl, .newline hkind, List.forall_mem_nil _⟩
    have hlevel := hland.level hl
    exact hlevel.leaves (ih hlevel.laid ho)
  | @indent outermost pending cursor close next token rest inner others h hk _ _ ihi ih =>
    rw [h] at hl ⊢
    have hlayout : token.kind.isLayout = true := by rw [hk]; rfl
    have hstart := hl.line_start hlayout
    have hlevel := (ihi hstart rfl).level hk hstart
    exact hlevel.leaves (ih hlevel.laid ho)
  | decorator h hk hq _ ih =>
    have hlevel := decorator_level h hk hq hl
    exact hlevel.leaves (ih hlevel.laid ho)
  | missing hk hq _ ih =>
    have hlevel := missing_level hk hl hq
    exact hlevel.leaves (ih hlevel.laid ho)
  | line hk hq hi _ ih =>
    have hlevel := line_level hk hl hq hi
    exact hlevel.leaves (ih hlevel.laid ho)
  | body hk hq _ _ ihi ih =>
    obtain ⟨indent, hindent, -, hbody⟩ := body_level hk hl hq
    have hstart := hbody.laid.line_start (by rw [hindent]; rfl)
    have hlevel := hbody.trans ((ihi hstart rfl).level hindent hstart)
    exact hlevel.leaves (ih hlevel.laid ho)
  | @statement outermost pending cursor close next token rest calls others h hl' _ hi _ ih =>
    have hlayout := (h ▸ hl).isLayout_of_notMem hl'
    have hlevel := statement_level h hlayout hi hl
    exact hlevel.leaves (ih hlevel.laid ho)

end Cursor

end ManifestScan
