import ManifestScan.Proofs.Outline.Reading

namespace ManifestScan.Cursor

variable {cursor : Cursor} {open_ : Nat}

/-- The end of the source is reached within brackets that nothing closes. -/
def Unbalanced (cursor : Cursor) : Prop := cursor.faults ≠ [] ∧ cursor.rest = []

theorem pastBrackets_layout {span : Span} {depth : Nat} {cursor : Cursor} (hd : depth ≠ 0)
    (hl : ∀ token ∈ cursor.rest, token.kind.isLayout = true) :
    (pastBrackets span depth cursor).Unbalanced := by
  have hkind : ∀ token ∈ cursor.rest, token.kind.depthAfter depth = depth := by
    intro token hm
    have := hl token hm
    cases hk : token.kind <;> simp_all [TokenKind.isLayout, TokenKind.depthAfter,
      TokenKind.isOpening, TokenKind.isClosing]
  fun_induction pastBrackets span depth cursor with
  | case1 depth cursor h => exact ⟨List.cons_ne_nil _ _, h⟩
  | case2 depth cursor token rest h hz =>
    exact absurd ((hkind token (h ▸ List.mem_cons_self)).symm.trans hz) hd
  | case3 depth cursor token rest h inner hi ih =>
    obtain rfl := (hkind token (h ▸ List.mem_cons_self)).symm.trans hi
    exact ih hd (fun token hm => hl token (h ▸ List.mem_cons_of_mem _ hm))
      (fun token hm => hkind token (h ▸ List.mem_cons_of_mem _ hm))

/-- Brackets that close are passed with the tokens between them, all on one line. -/
theorem pastBrackets_crosses (span : Span) {depth : Nat} (hl : Laid false open_ cursor.rest)
    (hd : depth ≠ 0) (hle : depth ≤ open_) :
    (pastBrackets span depth cursor).Unbalanced ∨
      Crosses cursor.rest (pastBrackets span depth cursor).rest open_ (open_ - depth) := by
  fun_induction pastBrackets span depth cursor generalizing open_ with
  | case1 depth cursor h => exact .inl ⟨List.cons_ne_nil _ _, h⟩
  | case2 depth cursor token rest h hz =>
    have hc : token.kind.isClosing = true ∧ depth = 1 := by
      unfold TokenKind.depthAfter at hz
      split at hz
      · omega
      · split at hz
        · rename_i hc
          exact ⟨hc, by omega⟩
        · exact absurd hz hd
    obtain ⟨-, hlayout, hopening⟩ := TokenKind.of_isClosing hc.1
    rw [h, hc.2]
    refine .inr (.cons hlayout ?_)
    rw [TokenKind.depthAfter, if_neg (by simp [hopening]), if_pos hc.1]
    exact .refl
  | case3 depth cursor token rest h inner hi ih =>
    rw [h] at hl ⊢
    by_cases hlayout : token.kind.isLayout = true
    · have hrest := (hl.layout hlayout).1.resolve_left (by omega)
      exact .inl (pastBrackets_layout (Nat.succ_ne_zero _) hrest)
    · have hlayout : token.kind.isLayout = false := by simpa using hlayout
      have hc : token.kind.isClosing = true → 1 < depth := by
        intro hc
        have ho := (TokenKind.of_isClosing hc).2.2
        rw [TokenKind.depthAfter, if_neg (by simp [ho]), if_pos hc] at hi
        omega
      obtain ⟨hsub, hpos, hmono⟩ := TokenKind.depthAfter_sub hd hle hc
      rw [hi] at hsub hpos hmono
      refine (ih (hl.tail hlayout) hpos hmono).imp_right fun hx => .cons hlayout ?_
      rwa [hsub] at hx

theorem pastBrackets_opening {span : Span} {token : Token} {rest : List Token}
    (h : cursor.rest = token :: rest) (ho : token.kind.isOpening = true)
    (hl : Laid false open_ cursor.rest) :
    (pastBrackets span 0 cursor).Unbalanced ∨
      Crosses cursor.rest (pastBrackets span 0 cursor).rest open_ open_ := by
  have hlayout : token.kind.isLayout = false := by
    cases hk : token.kind <;> simp_all [TokenKind.isOpening, TokenKind.isLayout]
  have hopen (depth : Nat) : token.kind.depthAfter depth = depth + 1 := if_pos ho
  have hp : pastBrackets span 0 cursor = pastBrackets span 1 (cursor.past token rest) := by
    rw [pastBrackets]
    split
    · simp_all
    · rename_i he
      cases h.symm.trans he
      rw [hopen]
  rw [hp]
  rw [h] at hl ⊢
  have hl := hl.tail hlayout
  rw [hopen] at hl
  refine (@pastBrackets_crosses (cursor.past token rest) _ span 1 hl (by decide)
    (by omega)).imp_right
    fun hx => .cons hlayout ?_
  rw [hopen]
  exact hx

theorem pastReturnType_crosses (hl : Laid false open_ cursor.rest) :
    cursor.pastReturnType.Unbalanced ∨
      ∃ inner, Crosses cursor.rest cursor.pastReturnType.rest open_ inner := by
  fun_induction pastReturnType cursor generalizing open_ with
  | case1 => exact .inr ⟨open_, .refl⟩
  | case2 => exact .inr ⟨open_, .refl⟩
  | case3 cursor token rest h _ ho ih =>
    rcases @pastBrackets_opening _ _ token.span _ _ h ho hl with hu | hx
    · refine .inl ?_
      rw [pastReturnType]
      split
      · exact hu
      · rename_i he
        cases hu.2.symm.trans he
    · exact (ih (hx.laid hl)).imp_right fun ⟨inner, hi⟩ => ⟨inner, hx.trans hi⟩
  | case4 cursor token rest h hk _ ih =>
    rw [h] at hl ⊢
    have hlayout := hl.isLayout_of_ne fun he => hk (.inr he)
    exact (ih (hl.tail hlayout)).imp_right fun ⟨inner, hi⟩ => ⟨inner, .cons hlayout hi⟩

theorem parameterList_crosses (definition : Definition) (hl : Laid false open_ cursor.rest) :
    (cursor.parameterList definition).2.Unbalanced ∨
      Crosses cursor.rest (cursor.parameterList definition).2.rest open_ open_ := by
  unfold parameterList
  split
  · rename_i hk
    cases h : cursor.rest with
    | nil =>
      have hlength := length_pastBrackets_le cursor.token.span 0 cursor
      have hx := List.length_eq_zero_iff.1 (Nat.le_zero.1 (h ▸ hlength))
      refine .inr ?_
      rw [hx]
      exact .refl
    | cons token rest =>
      rw [Cursor.token, h] at hk
      rw [← h]
      exact pastBrackets_opening h (by rw [show token.kind = .leftParen from hk]; rfl) hl
  · split
    · exact .inr .refl
    · exact .inr .refl

theorem returnType_crosses (definition : Definition) (hl : Laid false open_ cursor.rest) :
    (cursor.returnType definition).2.Unbalanced ∨
      ∃ inner, Crosses cursor.rest (cursor.returnType definition).2.rest open_ inner := by
  unfold returnType
  split
  · exact .inr ⟨open_, .refl⟩
  · rename_i inside hi
    obtain ⟨arrow, rest, h, hk, rfl⟩ := past?_eq_some hi
    rw [h] at hl ⊢
    have hlayout : arrow.kind.isLayout = false := by rw [hk]; rfl
    have hx := (@pastReturnType_crosses (cursor.past arrow rest) _ (hl.tail hlayout)).imp_right
      fun ⟨inner, hx⟩ =>
        (⟨inner, .cons hlayout hx⟩ : ∃ inner, Crosses (arrow :: rest) _ open_ inner)
    dsimp only
    split <;> exact hx

theorem parameterList_reads {definition : Definition}
    (hf : (cursor.parameterList definition).2.faults = []) (hl : Laid false open_ cursor.rest) :
    Crosses cursor.rest (cursor.parameterList definition).2.rest open_ open_ ∧
      (cursor.parameterList definition).1.decorators = definition.decorators ∧
      (cursor.parameterList definition).1.definitions = definition.definitions := by
  refine ⟨(parameterList_crosses definition hl).resolve_left fun hu => hu.1 hf, ?_⟩
  unfold parameterList
  split
  · exact ⟨rfl, rfl⟩
  · split <;> exact ⟨rfl, rfl⟩

theorem returnType_reads {definition : Definition}
    (hf : (cursor.returnType definition).2.faults = []) (hl : Laid false open_ cursor.rest) :
    ∃ inner, Crosses cursor.rest (cursor.returnType definition).2.rest open_ inner ∧
      (cursor.returnType definition).1.decorators = definition.decorators ∧
      (cursor.returnType definition).1.definitions = definition.definitions := by
  obtain ⟨inner, hx⟩ := (returnType_crosses definition hl).resolve_left fun hu => hu.1 hf
  refine ⟨inner, hx, ?_⟩
  unfold returnType
  split
  · exact ⟨rfl, rfl⟩
  · dsimp only
    split <;> exact ⟨rfl, rfl⟩

/-- What follows a header: a statement on its line, or a block on the next. -/
inductive Opens (colon : Token) : BodyForm → List Token → Cursor → Prop
  | line {left : List Token} {next : Cursor} (hr : next.rest = left) (hp : next.previous = colon) :
    Opens colon .line left next
  | block {line indent : Token} {left : List Token} {next : Cursor}
    (hr : left = line :: indent :: next.rest) (hl : line.kind = .newline)
    (hi : indent.kind = .indent) (hp : next.previous = indent) : Opens colon .block left next

theorem opening_reads {definition : Definition}
    (hf : (cursor.opening definition).next.faults = []) :
    ∃ colon left, cursor.rest = colon :: left ∧ colon.kind = .colon ∧
      (cursor.opening definition).definition = { definition with body := some colon.stop } ∧
      Opens colon (cursor.opening definition).form left (cursor.opening definition).next := by
  unfold opening at hf ⊢
  split
  · rename_i hn
    rw [hn] at hf
    dsimp only at hf
    rw [faults_pastLine] at hf
    cases hf
  · rename_i inside hi
    rw [hi] at hf
    obtain ⟨colon, left, h, hk, rfl⟩ := past?_eq_some hi
    refine ⟨colon, left, h, hk, ?_⟩
    dsimp only at hf ⊢
    split
    · exact ⟨rfl, .line rfl rfl⟩
    · rename_i below hb
      rw [hb] at hf
      obtain ⟨line, rest, hline, hlk, rfl⟩ := past?_eq_some hb
      dsimp only at hf ⊢
      split
      · rename_i block hblock
        obtain ⟨indent, others, hind, hik, rfl⟩ := past?_eq_some hblock
        exact ⟨rfl, .block (hline.trans (congrArg (line :: ·) hind)) hlk hik rfl⟩
      · rename_i hnone
        rw [hnone] at hf
        cases hf

/-- A header without faults stands on one line, up to the colon behind which the body begins. -/
theorem header_reads {pending : List Decorator} {keyword : Token} {definition : Definition}
    {form : BodyForm} {next : Cursor}
    (hq : header pending keyword cursor = ⟨definition, form, next⟩)
    (hf : next.faults = []) (hl : Laid false open_ cursor.rest) :
    ∃ colon left inner, Crosses cursor.rest (colon :: left) open_ inner ∧ colon.kind = .colon ∧
      definition.decorators = pending ∧ definition.definitions = [] ∧
      definition.body = some colon.stop ∧ Opens colon form left next := by
  unfold header at hq
  dsimp only at hq
  split at hq
  · cases hq
    rw [faults_pastLine] at hf
    cases hf
  · rename_i named hn
    obtain ⟨name, rest, h, hk, rfl⟩ := past?_eq_some hn
    generalize hstart : (⟨_, _, _, _, _, _, _, _, _, _⟩ : Definition) = start at hq
    have hstart : start.decorators = pending ∧ start.definitions = [] := by
      rw [← hstart]
      exact ⟨rfl, rfl⟩
    generalize hplist : (cursor.past name rest).parameterList start = plist at hq
    obtain ⟨listed, behind⟩ := plist
    generalize hret : behind.returnType listed = returned at hq
    obtain ⟨typed, last⟩ := returned
    have hlast : (last.opening typed).next.faults = [] := by
      rw [hq]
      exact hf
    -- Faults are only added, so from the last stage backwards each one is read without any.
    obtain ⟨colon, left, hr, hcolon, hdef, hopens⟩ := opening_reads hlast
    rw [hq] at hdef hopens
    obtain rfl : definition = { typed with body := some colon.stop } := hdef
    have hbehind : (behind.returnType listed).2.faults = [] := by
      rw [hret]
      exact faults_opening hlast
    have hnamed : ((cursor.past name rest).parameterList start).2.faults = [] := by
      rw [hplist]
      exact faults_returnType hbehind
    have hlayout : name.kind.isLayout = false := by rw [hk]; rfl
    have hname : Crosses cursor.rest rest open_ open_ := by
      rw [h]
      refine .cons hlayout ?_
      rw [hk]
      exact .refl
    obtain ⟨hx, hd, hn⟩ :=
      @parameterList_reads (cursor.past name rest) open_ start hnamed (hname.laid hl)
    rw [hplist] at hx hd hn
    have hx := hname.trans hx
    obtain ⟨inner, hx', hd', hn'⟩ := @returnType_reads behind open_ listed hbehind (hx.laid hl)
    rw [hret] at hx' hd' hn'
    refine ⟨colon, left, inner, ?_, hcolon, hd'.trans (hd.trans hstart.1),
      hn'.trans (hn.trans hstart.2), rfl, hopens⟩
    rw [← hr]
    exact hx.trans hx'

theorem toLineEnd_reads (hl : Laid false open_ cursor.rest) :
    ∃ words, cursor.rest = words ++ cursor.toLineEnd.rest ∧
      (∀ token ∈ words, token.kind.isLayout = false) ∧
      cursor.toLineEnd.previous = words.getLastD cursor.previous ∧
      ∀ token rest, cursor.toLineEnd.rest = token :: rest → token.kind = .newline := by
  fun_induction toLineEnd cursor generalizing open_ with
  | case1 cursor h => exact ⟨[], rfl, List.forall_mem_nil _, rfl, by simp [h]⟩
  | case2 cursor token rest h hk =>
    exact ⟨[], rfl, List.forall_mem_nil _, rfl,
      fun other others he => by cases h.symm.trans he; exact hk⟩
  | case3 cursor token rest h hk ih =>
    rw [h] at hl
    have hlayout := hl.isLayout_of_ne hk
    obtain ⟨words, he, hw, hp, hend⟩ := ih (hl.tail hlayout)
    refine ⟨token :: words, h.trans (congrArg (token :: ·) he),
      List.forall_mem_cons.2 ⟨hlayout, hw⟩, ?_, hend⟩
    rw [hp, List.getLastD_cons]
    rfl

/-- A decorator takes its line. -/
theorem decorator_reads {mark : Token} {rest : List Token} {decorator : Decorator} {next : Cursor}
    (hq : cursor.decorator mark rest = (decorator, next)) (hl : Laid false open_ rest) :
    ∃ words left, rest = words ++ left ∧ (∀ token ∈ words, token.kind.isLayout = false) ∧
      Token.Ends left next.rest ∧ next.Fresh ∧
        decorator.extent = ⟨mark.offset, (words.getLastD mark).stop⟩ := by
  obtain ⟨words, he, hw, hp, hend⟩ := @toLineEnd_reads (cursor.past mark rest) open_ hl
  unfold Cursor.decorator at hq
  cases hq
  refine ⟨words, _, he, hw, ?_⟩
  have hextent : (⟨mark.offset, (cursor.past mark rest).toLineEnd.previous.stop⟩ : Extent) =
      ⟨mark.offset, (words.getLastD mark).stop⟩ := by
    rw [hp]
    rfl
  cases hr : (cursor.past mark rest).toLineEnd.rest with
  | nil =>
    have hn : (cursor.past mark rest).toLineEnd.past? .newline = none := by
      rw [past?, hr]
    rw [hn]
    refine ⟨?_, fresh_nil hr, hextent⟩
    show Token.Ends [] (cursor.past mark rest).toLineEnd.rest
    rw [hr]
    exact .last
  | cons token others =>
    have hk := hend token others hr
    have hs : (cursor.past mark rest).toLineEnd.past? .newline =
        some ((cursor.past mark rest).toLineEnd.past token others) := by
      rw [past?, hr]
      exact if_pos hk
    rw [hs]
    refine ⟨.newline hk, fresh_of_layout ?_, hextent⟩
    show token.kind.isLayout = true
    rw [hk]
    rfl

theorem forall_keyword {front : List Token} {keyword : Token}
    (hasync : ∀ token ∈ front, token.kind = .asyncWord)
    (hkeyword : keyword.kind = .defWord ∨ keyword.kind = .classWord) :
    ∀ token ∈ front ++ [keyword], token.kind.isLayout = false := by
  refine List.forall_mem_append.2 ⟨fun token hm => ?_, List.forall_mem_singleton.2 ?_⟩
  · rw [hasync token hm]
    rfl
  · rcases hkeyword with hk | hk <;> rw [hk] <;> rfl

/-- The keyword of a definition is the first token of its line but for `async`. -/
theorem pastKeyword?_reads {inside : Cursor} {keyword : Token}
    (h : cursor.pastAsync.pastKeyword? = some (keyword, inside)) :
    ∃ front rest, cursor.rest = front ++ keyword :: rest ∧ inside.rest = rest ∧
      (∀ token ∈ front, token.kind = .asyncWord) ∧
      (keyword.kind = .defWord ∨ keyword.kind = .classWord) := by
  unfold pastKeyword? at h
  split at h
  · cases h
  · rename_i token rest hr
    split at h
    · rename_i hk
      cases h
      unfold pastAsync at hr
      split at hr
      · rename_i first second others he
        split at hr
        · rename_i ha
          cases hr
          exact ⟨[first], rest, he, rfl, by simp [ha.1], hk⟩
        · exact ⟨[], rest, hr, rfl, nofun, hk⟩
      · exact ⟨[], rest, hr, rfl, nofun, hk⟩
    · cases h

end ManifestScan.Cursor
