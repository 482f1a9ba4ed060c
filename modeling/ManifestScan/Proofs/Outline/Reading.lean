import ManifestScan.Proofs.Outline.CalledName
import ManifestScan.Proofs.Outline.Path

namespace ManifestScan

mutual

/-- A call and the calls among its arguments, at every depth. -/
def Call.all : Call → List Call
  | ⟨callee, extent, span, closed, nested⟩ =>
    ⟨callee, extent, span, closed, nested⟩ :: Call.allOf nested

def Call.allOf : List Call → List Call
  | [] => []
  | call :: calls => call.all ++ Call.allOf calls

end

namespace Call

def names (calls : List Call) : List (Nat × Bytes) :=
  (allOf calls).map fun call => (call.extent.start, call.callee)

theorem all_eq (call : Call) : call.all = call :: allOf call.nested := by
  cases call
  rw [all]

theorem allOf_append (calls others : List Call) :
    allOf (calls ++ others) = allOf calls ++ allOf others := by
  induction calls with
  | nil => rfl
  | cons call calls ih => rw [List.cons_append, allOf, allOf, ih, List.append_assoc]

theorem names_append (calls others : List Call) :
    names (calls ++ others) = names calls ++ names others := by
  rw [names, allOf_append, List.map_append]
  rfl

theorem names_cons (call : Call) (calls : List Call) :
    names (call :: calls) =
      (call.extent.start, call.callee) :: (names call.nested ++ names calls) := by
  rw [names, allOf, all_eq, List.cons_append, List.map_cons, List.map_append]
  rfl

end Call

/-- Tokens with text lead on, from where `depth` brackets are open to where `inner` are. -/
inductive Crosses : List Token → List Token → Nat → Nat → Prop
  | refl {rest : List Token} {depth : Nat} : Crosses rest rest depth depth
  | cons {token : Token} {rest next : List Token} {depth inner : Nat}
    (hk : token.kind.isLayout = false)
    (h : Crosses rest next (token.kind.depthAfter depth) inner) :
    Crosses (token :: rest) next depth inner

namespace Crosses

variable {rest next last : List Token} {depth inner innermost : Nat}

theorem trans (h : Crosses rest next depth inner) (h' : Crosses next last inner innermost) :
    Crosses rest last depth innermost := by
  induction h with
  | refl => exact h'
  | cons hk _ ih => exact .cons hk (ih h')

theorem laid (h : Crosses rest next depth inner) (hl : Laid false depth rest) :
    Laid false inner next := by
  induction h with
  | refl => exact hl
  | cons hk _ ih => exact ih (hl.tail hk)

theorem exists_passed (h : Crosses rest next depth inner) : ∃ passed, rest = passed ++ next ∧
    ∀ token ∈ passed, token.kind.isLayout = false := by
  induction h with
  | refl => exact ⟨[], rfl, nofun⟩
  | @cons token rest next depth inner hk _ ih =>
    obtain ⟨passed, rfl, hp⟩ := ih
    exact ⟨token :: passed, rfl, List.forall_mem_cons.2 ⟨hk, hp⟩⟩

end Crosses

theorem TokenKind.of_isClosing {kind : TokenKind} (h : kind.isClosing = true) :
    kind ≠ .identifier ∧ kind.isLayout = false ∧ kind.isOpening = false := by
  cases kind <;> first | decide | cases h

/-- Within a list as many brackets are open around it as at its start. -/
theorem TokenKind.depthAfter_sub {kind : TokenKind} {depth open_ : Nat} (hd : depth ≠ 0)
    (hle : depth ≤ open_) (hc : kind.isClosing = true → 1 < depth) :
    kind.depthAfter open_ - kind.depthAfter depth = open_ - depth ∧ kind.depthAfter depth ≠ 0 ∧
      kind.depthAfter depth ≤ kind.depthAfter open_ := by
  unfold depthAfter
  repeat' split
  · omega
  · rename_i hcl
    have := hc hcl
    omega
  · omega

theorem Token.dotted_ends {start : Bytes} {tokens others : List Token} {point name : Token}
    (h : (dotted start tokens).2 = point :: name :: others) :
    ¬(point.kind = .dot ∧ name.kind = .identifier) := by
  induction start, tokens using dotted_induction with
  | link start point' name' rest hk ih =>
    rw [dotted_link hk] at h
    exact ih h
  | stop start tokens hd hn =>
    rw [hd] at h
    exact hn _ _ _ h

namespace Cursor

def calledAhead (cursor : Cursor) : List (Nat × Bytes) :=
  Token.calledNames .newline cursor.previous.kind cursor.rest

/-- A name that ends behind the cursor does not go on in front of it. -/
def NameEnds (cursor : Cursor) : Prop :=
  cursor.previous.kind = .identifier → ∀ point name others,
    cursor.rest = point :: name :: others → ¬(point.kind = .dot ∧ name.kind = .identifier)

variable {cursor behind : Cursor} {token : Token} {rest : List Token}

theorem calledAhead_nil (h : cursor.rest = []) : cursor.calledAhead = [] := by
  rw [calledAhead, h]
  rfl

/-- A token that starts no name. -/
theorem calledAhead_past (h : cursor.rest = token :: rest) (hk : token.kind ≠ .identifier)
    (he : cursor.NameEnds) : cursor.calledAhead = (cursor.past token rest).calledAhead ∧
      (cursor.past token rest).NameEnds := by
  refine ⟨?_, fun hi => absurd hi hk⟩
  show cursor.calledAhead = Token.calledNames .newline token.kind rest
  rw [calledAhead, h, Token.calledNames_skip hk]
  by_cases hd : token.kind = .dot
  · cases rest with
    | nil => rfl
    | cons name others =>
      -- A name behind the dot goes on none.
      have hn : cursor.previous.kind = .identifier → name.kind ≠ .identifier :=
        fun hi hn => he hi token name others h ⟨hd, hn⟩
      by_cases hi : name.kind = .identifier
      · have hp : cursor.previous.kind ≠ .identifier := fun hp => hn hp hi
        simp [Token.calledNames, hp]
      · rw [Token.calledNames_skip hi, Token.calledNames_skip hi]
  · exact Token.calledNames_congr hd _ _

/-- No name goes on from behind the cursor to in front of it. -/
def Fresh (cursor : Cursor) : Prop :=
  cursor.calledAhead = Token.called cursor.rest ∧ cursor.NameEnds

theorem fresh_nil (h : cursor.rest = []) : cursor.Fresh := by
  refine ⟨?_, fun _ point name others he => ?_⟩
  · rw [calledAhead_nil h, h]
    rfl
  · cases h.symm.trans he

theorem fresh_of_ne (hi : cursor.previous.kind ≠ .identifier) (hd : cursor.previous.kind ≠ .dot) :
    cursor.Fresh :=
  ⟨Token.calledNames_fresh hi hd _, fun h => absurd h hi⟩

theorem fresh_of_layout (hl : cursor.previous.kind.isLayout = true) : cursor.Fresh := by
  refine fresh_of_ne ?_ ?_ <;> intro h <;> rw [h] at hl <;> cases hl

/-- At the start of a source the first token counts as the last one passed. -/
theorem fresh_start (h : cursor.rest = cursor.previous :: rest) : cursor.Fresh := by
  refine ⟨?_, fun hi point name others he => ?_⟩
  · unfold calledAhead Token.called
    rw [h]
    by_cases hi : cursor.previous.kind = .identifier
    · simp only [Token.calledNames, hi]
      rw [Token.calledNames_congr (by decide) .newline]
      simp
    · rw [Token.calledNames_skip hi, Token.calledNames_skip hi]
      cases rest with
      | nil => rfl
      | cons => simp [Token.calledNames, hi]
  · cases h.symm.trans he
    exact fun hk => absurd (hi.symm.trans hk.1) (by decide)

theorem callee_reads (start : Bytes) (cursor : Cursor) :
    (callee start cursor).1 = (Token.dotted start cursor.rest).1 ∧
      (callee start cursor).2.rest = (Token.dotted start cursor.rest).2 ∧
      (∀ depth, Crosses cursor.rest (callee start cursor).2.rest depth depth) ∧
      (cursor.previous.kind = .identifier →
        (callee start cursor).2.previous.kind = .identifier) := by
  fun_induction callee start cursor with
  | case1 start cursor point name rest h hk ih =>
    obtain ⟨ht, hr, hc, hp⟩ := ih
    rw [h, Token.dotted, if_pos hk]
    refine ⟨ht, hr, fun depth => .cons (by rw [hk.1]; rfl) (.cons (by rw [hk.2]; rfl) ?_),
      fun _ => hp hk.2⟩
    rw [hk.1, hk.2]
    exact hc depth
  | case2 start cursor point name rest h hk =>
    rw [h, Token.dotted, if_neg hk]
    exact ⟨rfl, rfl, fun _ => .refl, id⟩
  | case3 start cursor hn =>
    have hd : Token.dotted start cursor.rest = (start, cursor.rest) := by
      unfold Token.dotted
      split
      · rename_i h
        exact absurd h (hn _ _ _)
      · rfl
    rw [hd]
    exact ⟨rfl, rfl, fun _ => .refl, id⟩

/-- Ahead of a name there is the name itself, where it is called, and what stands
behind its parts. -/
theorem calledAhead_name (h : cursor.rest = token :: rest) (hk : token.kind = .identifier) :
    cursor.calledAhead =
      (if (Token.dotted token.text rest).2.head?.any (·.kind = .leftParen) = true then
        [(token.offset, if cursor.previous.kind = .dot then dot :: (Token.dotted token.text rest).1
          else (Token.dotted token.text rest).1)] else []) ++
        Token.calledNames .newline .identifier (Token.dotted token.text rest).2 := by
  rw [calledAhead, h, Token.calledNames, hk, Token.calledNames_dotted token.text rest]
  split
  · rename_i hcalled
    rw [if_pos hcalled.2.2]
    rfl
  · rename_i hcalled
    rw [if_neg fun hl => hcalled ⟨rfl, by simp, hl⟩]
    rfl

/-- A name is read up to its end, and where it is called up to the first argument. -/
theorem named_reads {callee : Callee}
    {hb : behind.rest.length ≤ (cursor.past token rest).rest.length}
    (h : cursor.rest = token :: rest) (hk : token.kind = .identifier)
    (hq : cursor.named token rest = ⟨callee, behind, hb⟩) :
    behind.NameEnds ∧
      (∀ depth, Crosses cursor.rest behind.rest depth (depth + callee.isCalled.toNat)) ∧
      cursor.calledAhead =
        (if callee.isCalled then [(token.offset, callee.text)] else []) ++ behind.calledAhead := by
  obtain ⟨ht, hr, hc, hp⟩ := callee_reads token.text (cursor.past token rest)
  replace hp := hp hk
  have hends := @Token.dotted_ends token.text rest
  have hcross : ∀ depth, Crosses cursor.rest
      (Cursor.callee token.text (cursor.past token rest)).2.rest depth depth := by
    intro depth
    rw [h]
    refine .cons (by rw [hk]; rfl) ?_
    rw [hk]
    exact hc depth
  have hahead := calledAhead_name h hk
  have hrest : (Cursor.callee token.text (cursor.past token rest)).2.rest =
    (Token.dotted token.text rest).2 := hr
  -- The name is called where a parenthesis stands behind its parts.
  unfold named at hq
  dsimp only at hq
  split at hq
  · rename_i hpast
    cases hq
    have hn : (Token.dotted token.text rest).2.head?.any (·.kind = .leftParen) = false := by
      have hp := past?_eq_none hpast
      rw [hrest] at hp
      cases hd : (Token.dotted token.text rest).2 with
      | nil => rfl
      | cons paren others => simpa using hp paren others hd
    refine ⟨fun _ point name others he => hends (hrest.symm.trans he), hcross, ?_⟩
    rw [hahead, hn, calledAhead, hp, hrest]
    rfl
  · rename_i inside hpast
    cases hq
    obtain ⟨paren, others, hparen, hkind, rfl⟩ := past?_eq_some hpast
    refine ⟨fun hi => ?_, fun depth => (hcross depth).trans ?_, ?_⟩
    · exact absurd (hkind.symm.trans hi) (by decide)
    · rw [hparen]
      refine .cons (by rw [hkind]; rfl) ?_
      rw [hkind]
      exact .refl
    · rw [hrest] at hparen
      rw [hahead, hparen]
      have hfirst : (paren :: others).head?.any (·.kind = .leftParen) = true := by simp [hkind]
      rw [if_pos hfirst, Token.calledNames_skip (by simp [hkind]), hkind, ht]
      show _ ++ _ = [_] ++ Token.calledNames .newline paren.kind others
      rw [hkind, Token.calledNames_congr (by decide) .newline]
      rfl

/-- Where only layout follows nothing closes an argument list. -/
theorem ArgumentsPath.close_layout {depth : Nat} {cursor next : Cursor} {list : Arguments}
    (h : ArgumentsPath depth cursor list next)
    (hl : ∀ token ∈ cursor.rest, token.kind.isLayout = true) : list.close = none := by
  induction h with
  | nil => rfl
  | uncalled h hk =>
    have := hl _ (h ▸ List.mem_cons_self)
    simp [hk, TokenKind.isLayout] at this
  | called h hk =>
    have := hl _ (h ▸ List.mem_cons_self)
    simp [hk, TokenKind.isLayout] at this
  | @close depth cursor token rest h hc =>
    have := hl _ (h ▸ List.mem_cons_self)
    cases hk : token.kind <;> simp_all [TokenKind.isLayout, TokenKind.isClosing]
  | skip h _ _ _ ih => exact ih fun token hm => hl token (h ▸ List.mem_cons_of_mem _ hm)

/-- An argument list that is closed is read up to its bracket, and every name in it that an argument
list follows is a call. -/
theorem ArgumentsPath.reads {depth open_ : Nat} {cursor next : Cursor} {list : Arguments}
    (h : ArgumentsPath depth cursor list next) (hf : next.faults = [])
    (hc : list.close.isSome = true) (hl : Laid false open_ cursor.rest) (hd : depth ≠ 0)
    (hle : depth ≤ open_) (he : cursor.NameEnds) :
    Crosses cursor.rest next.rest open_ (open_ - depth) ∧ next.NameEnds ∧
      cursor.calledAhead = Call.names list.calls ++ next.calledAhead := by
  -- `depth` counts the open brackets from this list on, and `open_` all those on the line.
  induction h generalizing open_ with
  | nil => cases hc
  | @uncalled depth cursor behind next token rest callee list hb h hk hq hn _ ih =>
    obtain ⟨he, hcross, hahead⟩ := named_reads h hk hq
    have hcross := hcross open_
    rw [hn] at hcross hahead
    obtain ⟨hx, hne, hah⟩ := ih hf hc (hcross.laid hl) hd hle he
    exact ⟨hcross.trans hx, hne, hahead.trans hah⟩
  | @called depth cursor behind close next token rest callee inner others hb h hk hq hn hi hp
      ihi ih =>
    obtain ⟨he, hcross, hahead⟩ := named_reads h hk hq
    have hcross := hcross open_
    rw [hn] at hcross hahead
    obtain ⟨hclosed, hfc⟩ := faults_reportUnclosed (hp.faults hf)
    obtain ⟨hx, hne, hah⟩ := ihi hfc hclosed (hcross.laid hl) (by decide) (by simp) he
    have hcross := hcross.trans hx
    obtain ⟨hx, hne, hah'⟩ := ih hf hc (hcross.laid hl) hd hle hne
    refine ⟨hcross.trans hx, hne, ?_⟩
    have hah' : close.calledAhead = Call.names others.calls ++ next.calledAhead := hah'
    rw [hahead, hah, hah', Call.names_cons, List.cons_append, List.append_assoc]
    rfl
  | @close depth cursor token rest h hclose hone =>
    obtain rfl : depth = 1 := by omega
    obtain ⟨hk, hlayout, hopening⟩ := TokenKind.of_isClosing hclose
    obtain ⟨hahead, hne⟩ := calledAhead_past h hk he
    refine ⟨?_, hne, hahead⟩
    rw [h]
    refine .cons hlayout ?_
    rw [TokenKind.depthAfter, if_neg (by simp [hopening]), if_pos hclose]
    exact .refl
  | @skip depth cursor next token rest list h hk hcl hp ih =>
    obtain ⟨hahead, hne⟩ := calledAhead_past h hk he
    rw [h] at hl ⊢
    by_cases hlayout : token.kind.isLayout = true
    · -- No line ends within brackets, so nothing follows that closes the list.
      have hrest := (hl.layout hlayout).1.resolve_left (by omega)
      rw [hp.close_layout hrest] at hc
      cases hc
    · have hlayout : token.kind.isLayout = false := by simpa using hlayout
      obtain ⟨hsub, hpos, hmono⟩ := TokenKind.depthAfter_sub hd hle hcl
      obtain ⟨hx, hne, hah⟩ := ih hf hc (hl.tail hlayout) hpos hmono hne
      rw [hsub] at hx
      exact ⟨.cons hlayout hx, hne, hahead.trans hah⟩

end Cursor

/-- What is left of a line is its end, or nothing at the end of the source. -/
inductive Token.Ends : List Token → List Token → Prop
  | newline {token : Token} {rest : List Token} (hk : token.kind = .newline) :
    Ends (token :: rest) rest
  | last : Ends [] []

theorem Token.lines_ends {line left rest : List Token} (h : Ends left rest) (hn : line ≠ [])
    (hl : ∀ token ∈ line, token.kind.isLayout = false) :
    lines (line ++ left) = line :: lines rest := by
  cases h with
  | newline hk =>
    rw [lines_append_layout (by rw [hk]; rfl), lines_line hn hl]
    rfl
  | last =>
    rw [List.append_nil, lines_line hn hl]
    rfl

theorem Laid.ends {first : Bool} {depth : Nat} {left rest : List Token} (h : Laid first depth left)
    (he : Token.Ends left rest) : Laid true 0 rest := by
  cases he with
  | newline hk => exact h.line_start (by rw [hk]; rfl)
  | last => exact .nil

namespace Cursor

/-- A statement is read up to its line end, and every name in it that an argument list
follows is a call. -/
theorem StatementPath.reads {open_ : Nat} {cursor next : Cursor} {calls : List Call}
    (h : StatementPath cursor calls next) (hf : next.faults = [])
    (hl : Laid false open_ cursor.rest)
    (he : cursor.NameEnds) :
    ∃ left inner, Crosses cursor.rest left open_ inner ∧ Token.Ends left next.rest ∧ next.Fresh ∧
      cursor.calledAhead = Call.names calls ++ Token.called next.rest := by
  induction h generalizing open_ with
  | nil h =>
    refine ⟨[], open_, ?_, ?_, fresh_nil h, ?_⟩
    · rw [h]
      exact .refl
    · rw [h]
      exact .last
    · rw [calledAhead_nil h, h]
      rfl
  | @newline cursor token rest h hk =>
    refine ⟨token :: rest, open_, h ▸ .refl, .newline hk, ?_, ?_⟩
    · exact fresh_of_layout (show token.kind.isLayout = true by rw [hk]; rfl)
    rw [calledAhead, h, Token.calledNames_skip (by simp [hk]), hk,
      Token.calledNames_fresh (by decide) (by decide)]
    rfl
  | @indentation cursor token rest h hk =>
    rw [h] at hl
    exact absurd hk hl.not_indentation
  | @uncalled cursor behind next token rest callee calls hb h hk hq hn _ ih =>
    obtain ⟨he, hcross, hahead⟩ := named_reads h hk hq
    have hcross := hcross open_
    rw [hn] at hcross hahead
    obtain ⟨left, inner, hx, hend, hfresh, hah⟩ := ih hf (hcross.laid hl) he
    exact ⟨left, inner, hcross.trans hx, hend, hfresh, hahead.trans hah⟩
  | @called cursor behind close next token rest callee inner calls hb h hk hq hn hi hp ih =>
    obtain ⟨he, hcross, hahead⟩ := named_reads h hk hq
    have hcross := hcross open_
    rw [hn] at hcross hahead
    -- A list that is left open is a fault, so this one is closed.
    obtain ⟨hclosed, hfc⟩ := faults_reportUnclosed (hp.faults hf)
    obtain ⟨hx, hne, hah⟩ := hi.reads hfc hclosed (hcross.laid hl) (by decide) (by simp) he
    have hcross := hcross.trans hx
    obtain ⟨left, depth, hx, hend, hfresh, hah'⟩ := ih hf (hcross.laid hl) hne
    refine ⟨left, depth, hcross.trans hx, hend, hfresh, ?_⟩
    have hah' : close.calledAhead = Call.names calls ++ Token.called next.rest := hah'
    rw [hahead, hah, hah', Call.names_cons, List.cons_append, List.append_assoc]
    rfl
  | @skip cursor next token rest calls h hl' hk hp ih =>
    obtain ⟨hahead, hne⟩ := calledAhead_past h hk he
    rw [h] at hl ⊢
    have hlayout := hl.isLayout_of_notMem hl'
    obtain ⟨left, inner, hx, hend, hfresh, hah⟩ := ih hf (hl.tail hlayout) hne
    exact ⟨left, inner, .cons hlayout hx, hend, hfresh, hahead.trans hah⟩

end Cursor

end ManifestScan
