import ManifestScan.Proofs.Outline.Spread

namespace ManifestScan

namespace Token

/-- Tokens one behind the other, of which only those of the layout hold no text. -/
structure Ordered (tokens : List Token) : Prop where
  pairwise : tokens.Pairwise fun token later => token.stop ≤ later.offset
  offset_lt : ∀ token ∈ tokens, token.kind.isLayout = false → token.offset < token.stop

def lastText (first : Token) (others : List Token) : Token :=
  (others.filter (!·.kind.isLayout)).getLastD first

variable {tokens rest passed next others : List Token} {token first : Token}

theorem offset_le_stop (token : Token) : token.offset ≤ token.stop := Nat.le_add_right _ _

theorem ordered_tokenize (source : Bytes) : Ordered (tokenize source).tokens := by
  obtain ⟨unknown, ht, -⟩ := tiling_tokenize source
  refine ⟨ht.pairwise, fun token hm hk => ?_⟩
  obtain ⟨_, _, -, hf⟩ := ht.follows token hm
  have hn : token.text ≠ [] := by
    intro he
    rw [hf.isLayout_iff.2 he] at hk
    cases hk
  exact Nat.lt_add_of_pos_right (List.length_pos_iff.2 hn)

theorem lastText_cons (hk : token.kind.isLayout = false) (first : Token) (others : List Token) :
    lastText first (token :: others) = lastText token others := by
  unfold lastText
  rw [List.filter_cons_of_pos (by simp [hk]), List.getLastD_cons]

theorem lastText_layout (hk : token.kind.isLayout = true) (first : Token) (others : List Token) :
    lastText first (token :: others) = lastText first others := by
  unfold lastText
  rw [List.filter_cons_of_neg (by simp [hk])]

theorem isLayout_lastText (hf : first.kind.isLayout = false) (others : List Token) :
    (lastText first others).kind.isLayout = false ∧ lastText first others ∈ first :: others := by
  induction others generalizing first with
  | nil => exact ⟨hf, List.mem_cons_self⟩
  | cons token others ih =>
    by_cases hk : token.kind.isLayout = true
    · rw [lastText_layout hk]
      obtain ⟨hl, hm⟩ := ih hf
      refine ⟨hl, ?_⟩
      rcases List.mem_cons.1 hm with he | hm
      · rw [he]
        exact List.mem_cons_self
      · exact List.mem_cons_of_mem _ (List.mem_cons_of_mem _ hm)
    · rw [lastText_cons (by simpa using hk)]
      obtain ⟨hl, hm⟩ := ih (by simpa using hk)
      exact ⟨hl, List.mem_cons_of_mem _ hm⟩

namespace Ordered

theorem of_suffix (h : Ordered tokens) (hs : rest <:+ tokens) : Ordered rest :=
  ⟨h.pairwise.sublist hs.sublist, fun token hm => h.offset_lt token (hs.subset hm)⟩

theorem of_prefix (h : Ordered tokens) (hs : passed <+: tokens) : Ordered passed :=
  ⟨h.pairwise.sublist hs.sublist, fun token hm => h.offset_lt token (hs.subset hm)⟩

/-- A token stands behind those in front of it. -/
theorem stop_le (h : Ordered (passed ++ next)) {later : Token} (hp : token ∈ passed)
    (hn : later ∈ next) : token.stop ≤ later.offset :=
  (List.pairwise_append.1 h.pairwise).2.2 token hp later hn

/-- No token with text ends behind the last one. -/
theorem stop_le_lastText (h : Ordered (first :: others)) (hf : first.kind.isLayout = false)
    (hm : token ∈ first :: others) (hk : token.kind.isLayout = false) :
    token.stop ≤ (lastText first others).stop := by
  induction others generalizing first token with
  | nil =>
    rw [List.mem_singleton.1 hm]
    exact Nat.le_refl _
  | cons second others ih =>
    by_cases hs : second.kind.isLayout = true
    · have hsub : (first :: others).Sublist (first :: second :: others) :=
        .cons_cons first (List.sublist_cons_self second others)
      rw [lastText_layout hs]
      refine ih ⟨h.pairwise.sublist hsub, fun token hm => h.offset_lt token (hsub.subset hm)⟩ hf
        ?_ hk
      rcases List.mem_cons.1 hm with rfl | hm
      · exact List.mem_cons_self
      · rcases List.mem_cons.1 hm with rfl | hm
        · rw [hs] at hk
          cases hk
        · exact List.mem_cons_of_mem _ hm
    · have hs : second.kind.isLayout = false := by simpa using hs
      have hrest := h.of_suffix (List.suffix_cons first (second :: others))
      rw [lastText_cons hs]
      rcases List.mem_cons.1 hm with rfl | hm
      · have hle := (List.pairwise_cons.1 h.pairwise).1 second List.mem_cons_self
        have hlt := hrest.offset_lt second List.mem_cons_self hs
        have := ih hrest hs List.mem_cons_self hs
        omega
      · exact ih hrest hs hm hk

end Ordered

end Token

/-- Sibling definitions spread over the tokens of a list, one behind the other, up to where `next`
is left. None starts in front of `lower`, where the body around them starts. Each ends with the last
token of text in front of the next one, and what is in its body spreads over the tokens there. -/
inductive Definition.Spread (stop : Nat) : Nat → List Token → List Token → List Definition → Prop
  | nil {lower : Nat} {rest : List Token} : Spread stop lower rest rest []
  | pass {lower : Nat} {token : Token} {rest next : List Token} {definitions : List Definition}
    (h : Spread stop lower rest next definitions) :
    Spread stop lower (token :: rest) next definitions
  | cons {lower : Nat} {definition : Definition} {definitions : List Definition} {keyword : Token}
    {words behind rest next : List Token} (hl : lower ≤ definition.extent.start)
    (hs : definition.extent.start ≤ keyword.offset) (hk : keyword.kind.isLayout = false)
    (he : definition.extent.stop = (Token.lastText keyword (words ++ behind)).stop)
    (hb : ∀ token ∈ behind, definition.body.getD 0 ≤ token.offset)
    (hc : Call.Spread stop (behind ++ rest) rest definition.calls)
    (hd : Spread stop (definition.body.getD 0) (behind ++ rest) rest definition.definitions)
    (h : Spread stop lower rest next definitions) :
    Spread stop lower (keyword :: (words ++ (behind ++ rest))) next (definition :: definitions)

namespace Definition.Spread

variable {stop lower : Nat} {rest next last more : List Token}
  {definitions others : List Definition}

theorem suffix (h : Spread stop lower rest next definitions) : next <:+ rest := by
  induction h with
  | nil => exact List.suffix_rfl
  | pass _ ih => exact ih.trans (List.suffix_cons _ _)
  | cons _ _ _ _ _ _ _ _ _ ih =>
    refine ih.trans (.trans ?_ (List.suffix_cons _ _))
    exact .trans (List.suffix_append _ _) (List.suffix_append _ _)

theorem of_suffix (h : Spread stop lower rest next definitions) (hs : rest <:+ more) :
    Spread stop lower more next definitions := by
  obtain ⟨front, rfl⟩ := hs
  induction front with
  | nil => exact h
  | cons token front ih => exact .pass ih

theorem append (h : Spread stop lower rest next definitions)
    (h' : Spread stop lower next last others) :
    Spread stop lower rest last (definitions ++ others) := by
  induction h with
  | nil => exact h'
  | pass _ ih => exact .pass (ih h')
  | cons hl hs hk he hb hc hd _ _ ih => exact .cons hl hs hk he hb hc hd (ih h')

end Definition.Spread

/-- The decorators in front of tokens that are in order. Neither start in front of `lower`. -/
structure Decorator.Lead (lower : Nat) (pending : List Decorator) (tokens : List Token) : Prop where
  ordered : Token.Ordered tokens
  lower_le : ∀ token ∈ tokens, lower ≤ token.offset
  starts : ∀ decorator ∈ pending, lower ≤ decorator.extent.start ∧
    ∀ token ∈ tokens, decorator.extent.start ≤ token.offset

namespace Decorator.Lead

variable {lower : Nat} {pending : List Decorator} {tokens rest : List Token}

theorem of_suffix (h : Lead lower pending tokens) (hs : rest <:+ tokens) :
    Lead lower pending rest := by
  refine ⟨h.ordered.of_suffix hs, fun token hm => h.lower_le token (hs.subset hm), ?_⟩
  intro decorator hd
  obtain ⟨hle, hstart⟩ := h.starts decorator hd
  exact ⟨hle, fun token hm => hstart token (hs.subset hm)⟩

theorem nil (h : Lead lower pending tokens) : Lead lower [] tokens :=
  ⟨h.ordered, h.lower_le, nofun⟩

theorem concat {mark : Token} {decorator : Decorator} (h : Lead lower pending (mark :: tokens))
    (hs : decorator.extent.start = mark.offset) (hr : rest <:+ tokens) :
    Lead lower (pending ++ [decorator]) rest := by
  have hrest := h.of_suffix (hr.trans (List.suffix_cons mark tokens))
  refine ⟨hrest.ordered, hrest.lower_le, List.forall_mem_append.2 ⟨hrest.starts, ?_⟩⟩
  refine List.forall_mem_singleton.2 ⟨?_, fun token hm => ?_⟩
  · rw [hs]
    exact h.lower_le mark List.mem_cons_self
  · rw [hs]
    exact Nat.le_trans mark.offset_le_stop
      ((List.pairwise_cons.1 h.ordered.pairwise).1 token (hr.subset hm))

/-- A definition starts with its first decorator, or with its keyword. -/
theorem head? {keyword : Token} (h : Lead lower pending (keyword :: tokens)) :
    let start := (pending.head?.map (·.extent.start)).getD keyword.offset
    lower ≤ start ∧ start ≤ keyword.offset := by
  cases pending with
  | nil => exact ⟨h.lower_le keyword List.mem_cons_self, Nat.le_refl _⟩
  | cons decorator pending =>
    obtain ⟨hle, hstart⟩ := h.starts decorator List.mem_cons_self
    exact ⟨hle, hstart keyword List.mem_cons_self⟩

end Decorator.Lead

namespace Cursor

variable {cursor inside body close : Cursor} {keyword : Token} {definition : Definition}
  {pending : List Decorator} {form : BodyForm}

theorem pastKeyword?_eq_some (h : cursor.pastAsync.pastKeyword? = some (keyword, inside)) :
    keyword.kind.isLayout = false ∧ keyword :: inside.rest <:+ cursor.rest ∧
      inside.final = cursor.final ∧ inside.significant = keyword := by
  have hr := reaches_pastAsync cursor
  unfold pastKeyword? at h
  split at h
  · cases h
  · rename_i token rest he
    split at h
    · rename_i hk
      cases h
      have hl : keyword.kind.isLayout = false := by
        rcases hk with hk | hk <;> rw [hk] <;> rfl
      refine ⟨hl, he ▸ hr.suffix, hr.final_eq, ?_⟩
      show (if keyword.kind.isLayout then _ else keyword) = keyword
      rw [hl]
      rfl
    · cases h

/-- A header leaves the start of its definition as it is. -/
theorem start_header (pending : List Decorator) (keyword : Token) (cursor : Cursor) :
    (header pending keyword cursor).definition.extent.start =
      (pending.head?.map (·.extent.start)).getD keyword.offset := by
  refine @header_keeps (fun definition => definition.extent.start =
    (pending.head?.map (·.extent.start)).getD keyword.offset) _ _ (fun _ _ h => h) (fun _ _ h => h)
    (fun _ _ h => h) cursor fun _ _ => ?_
  cases pending <;> rfl

/-- A definition with a body has a colon behind which that starts. -/
theorem body_header (hq : header pending keyword inside = ⟨definition, form, body⟩)
    (hf : form ≠ .missing) :
    ∃ colon rest, colon :: rest <:+ inside.rest ∧ body.rest <:+ rest ∧
      definition.body = some colon.stop := by
  have hopening {cursor : Cursor} {start : Definition} (h : cursor.rest <:+ inside.rest)
      (hq : cursor.opening start = ⟨definition, form, body⟩) :
      ∃ colon rest, colon :: rest <:+ inside.rest ∧ body.rest <:+ rest ∧
        definition.body = some colon.stop := by
    unfold opening at hq
    dsimp only at hq
    split at hq
    · cases hq
      exact absurd rfl hf
    · rename_i below hb
      obtain ⟨colon, rest, hr, -, rfl⟩ := past?_eq_some hb
      refine ⟨colon, rest, hr ▸ h, ?_⟩
      repeat' split at hq
      · cases hq
        exact ⟨List.suffix_rfl, rfl⟩
      · rename_i hline _ block hblock
        cases hq
        exact ⟨((reaches_past? hline).trans (reaches_past? hblock)).suffix, rfl⟩
      · cases hq
        exact absurd rfl hf
  unfold header at hq
  dsimp only at hq
  split at hq
  · cases hq
    exact absurd rfl hf
  · rename_i named hn
    refine hopening ?_ hq
    exact (((reaches_past? hn).trans (reaches_parameterList _ _)).trans
      (reaches_returnType _ _)).suffix

structure Contents.Spread (contents : Contents) (stop lower : Nat) (tokens rest : List Token) :
    Prop where
  calls : Call.Spread stop tokens rest contents.calls
  definitions : Definition.Spread stop lower tokens rest contents.definitions

namespace Contents.Spread

variable {contents others : Contents} {stop lower : Nat} {tokens rest last more : List Token}

theorem nil (h : rest <:+ tokens) : Spread ⟨[], []⟩ stop lower tokens rest :=
  ⟨Call.Spread.of_suffix .nil h, Definition.Spread.of_suffix .nil h⟩

theorem of_suffix (h : contents.Spread stop lower tokens rest) (hs : tokens <:+ more) :
    contents.Spread stop lower more rest :=
  ⟨h.calls.of_suffix hs, h.definitions.of_suffix hs⟩

theorem append (h : contents.Spread stop lower tokens rest)
    (h' : others.Spread stop lower rest last) :
    Spread ⟨contents.calls ++ others.calls, contents.definitions ++ others.definitions⟩ stop lower
      tokens last :=
  ⟨h.calls.append h'.calls, h.definitions.append h'.definitions⟩

end Contents.Spread

/-- A definition is added in front of what is behind it: its header up to `body`, and behind that
what is directly in it up to `close`. -/
theorem spread_definition {stop lower : Nat} {others : Contents} {last : List Token}
    (contents : Contents)
    (hlead : Decorator.Lead lower pending cursor.rest)
    (hk : cursor.pastAsync.pastKeyword? = some (keyword, inside))
    (hq : header pending keyword inside = ⟨definition, form, body⟩) (hr : body.Reaches close)
    (hf : form = .missing → close = body)
    (hi : contents.Spread stop (definition.body.getD 0) body.rest close.rest)
    (h : others.Spread stop lower close.rest last) :
    Contents.Spread ⟨others.calls, closeDefinition { definition with
      calls := contents.calls, definitions := contents.definitions } close :: others.definitions⟩
      stop lower cursor.rest last := by
  obtain ⟨hlayout, hsuffix, -, hsignificant⟩ := pastKeyword?_eq_some hk
  have hheader := reaches_header pending keyword inside
  have hstart := start_header pending keyword inside
  rw [hq] at hheader hstart
  obtain ⟨words, hwords⟩ := hheader
  obtain ⟨behind, hbehind⟩ := hr
  have hpassed := hwords.trans hbehind
  have hrest : inside.rest = words ++ (behind ++ close.rest) := by
    rw [hwords.rest_eq, hbehind.rest_eq]
  have hstop : close.significant = Token.lastText keyword (words ++ behind) := by
    rw [hpassed.significant_eq, hsignificant]
    rfl
  obtain ⟨hlower, hle⟩ := (hlead.of_suffix hsuffix).head?
  rw [← hstart] at hlower hle
  have hclose : close.rest <:+ cursor.rest := by
    refine .trans ?_ (.trans (List.suffix_cons keyword _) hsuffix)
    rw [hrest, ← List.append_assoc]
    exact List.suffix_append _ _
  -- Without a colon nothing is passed behind the header.
  have hbody : ∀ token ∈ behind, definition.body.getD 0 ≤ token.offset := by
    intro token hm
    by_cases hmissing : form = .missing
    · rw [hf hmissing] at hbehind
      have hnil : behind = [] := hbehind.eq_of_rest rfl
      rw [hnil] at hm
      cases hm
    · obtain ⟨colon, rest, hcolon, hrest', hb⟩ := body_header hq hmissing
      have hordered := hlead.ordered.of_suffix
        (hcolon.trans (.trans (List.suffix_cons keyword _) hsuffix))
      rw [hb]
      refine (List.pairwise_cons.1 hordered.pairwise).1 token (hrest'.subset ?_)
      rw [hbehind.rest_eq]
      exact List.mem_append_left _ hm
  refine ⟨h.calls.of_suffix hclose, ?_⟩
  refine Definition.Spread.of_suffix ?_ hsuffix
  rw [hrest]
  obtain ⟨hcalls, hdefinitions⟩ := hi
  rw [hbehind.rest_eq] at hcalls hdefinitions
  exact .cons hlower hle hlayout (congrArg Token.stop hstop) hbody hcalls hdefinitions h.definitions

/-- Behind a header no decorator is pending, and the tokens of its body start behind the colon. -/
theorem lead_heading {lower : Nat} (hlead : Decorator.Lead lower pending cursor.rest)
    (hk : cursor.pastAsync.pastKeyword? = some (keyword, inside))
    (hq : header pending keyword inside = ⟨definition, form, body⟩) :
    body.final = cursor.final ∧ Decorator.Lead lower [] body.rest ∧
      (form ≠ .missing → Decorator.Lead (definition.body.getD 0) [] body.rest) := by
  have hr := reaches_heading hk hq
  refine ⟨hr.final_eq, (hlead.of_suffix hr.suffix).nil, fun hf => ?_⟩
  obtain ⟨colon, rest, hcolon, hrest, hb⟩ := body_header hq hf
  have hordered := hlead.ordered.of_suffix (hcolon.trans (reaches_pastKeyword? hk).suffix)
  rw [hb]
  refine ⟨hlead.ordered.of_suffix hr.suffix, fun token hm => ?_, nofun⟩
  exact (List.pairwise_cons.1 hordered.pairwise).1 token (hrest.subset hm)

/-- What a block holds spreads over its tokens, also where something is wrong with them. -/
theorem BlockPath.spread {outermost : Bool} {next : Cursor} {contents : Contents}
    (h : BlockPath outermost pending cursor contents next) {lower : Nat}
    (hlead : Decorator.Lead lower pending cursor.rest) :
    contents.Spread cursor.final.stop lower cursor.rest next.rest := by
  -- A body bounds the starts in it more tightly than what is around it, so `lower` is generalized.
  induction h generalizing lower with
  | nil => exact .nil List.suffix_rfl
  | close h => exact .nil (suffix_past h)
  | pass h _ _ _ ih =>
    have hs := suffix_past h
    exact (ih (hlead.of_suffix hs)).of_suffix hs
  | indent h _ hi _ ihi ih =>
    have hs := suffix_past h
    have hinner := ihi (hlead.of_suffix hs).nil
    have hfinal := hi.reaches.final_eq
    have hothers := ih (hlead.of_suffix (hi.reaches.suffix.trans hs))
    rw [hfinal] at hothers
    exact (hinner.append hothers).of_suffix hs
  | @decorator outermost pending cursor behind next token rest decorator contents h _ hq _ ih =>
    have hr := reaches_decorator h hq
    have hsuffix : behind.rest <:+ rest := (reaches_behind_mark hq).suffix
    have hstart : decorator.extent.start = token.offset := by
      unfold Cursor.decorator at hq
      cases hq
      rfl
    rw [h] at hlead
    have hothers := ih (hlead.concat hstart hsuffix)
    rw [hr.final_eq] at hothers
    exact hothers.of_suffix hr.suffix
  | @missing outermost pending cursor inside body next keyword definition others hk hq _ ih =>
    obtain ⟨hfinal, hbody, -⟩ := lead_heading hlead hk hq
    have hbare := header_bare pending keyword inside
    rw [hq] at hbare
    have hothers := ih hbody
    rw [hfinal] at hothers
    have hall := spread_definition ⟨[], []⟩ hlead hk hq (.refl body) (fun _ => rfl)
      (.nil List.suffix_rfl) hothers
    rw [← hbare.1, ← hbare.2] at hall
    exact hall
  | @line outermost pending cursor inside body close next keyword definition calls others hk hq
      hi _ ih =>
    obtain ⟨hfinal, hbody, -⟩ := lead_heading hlead hk hq
    have hbare := header_bare pending keyword inside
    rw [hq] at hbare
    have hinner := hi.spread
    have hothers := ih (hbody.of_suffix hi.reaches.suffix)
    rw [hi.reaches.final_eq, hfinal] at hothers
    rw [hfinal] at hinner
    have hall := spread_definition ⟨calls, []⟩ hlead hk hq hi.reaches nofun
      ⟨hinner, .of_suffix .nil hi.reaches.suffix⟩ hothers
    rw [← hbare.2] at hall
    exact hall
  | @body outermost pending cursor inside body close next keyword definition inner others hk hq hi _
      ihi ih =>
    obtain ⟨hfinal, hbody, hinside⟩ := lead_heading hlead hk hq
    have hinner := ihi (hinside nofun)
    have hothers := ih (hbody.of_suffix hi.reaches.suffix)
    rw [hi.reaches.final_eq, hfinal] at hothers
    rw [hfinal] at hinner
    exact spread_definition inner hlead hk hq hi.reaches nofun hinner hothers
  | @statement outermost pending cursor close next token rest calls others h _ _ hi _ ih =>
    have hr := (reaches_reportStray cursor pending).trans hi.reaches
    have hcalls := hi.spread
    rw [rest_reportStray, (reaches_reportStray cursor pending).final_eq] at hcalls
    have hothers := ih (hlead.of_suffix hr.suffix).nil
    rw [hr.final_eq] at hothers
    have hstatement : Contents.Spread ⟨calls, []⟩ cursor.final.stop lower cursor.rest close.rest :=
      ⟨hcalls, .of_suffix .nil hr.suffix⟩
    exact hstatement.append hothers

end Cursor

end ManifestScan
