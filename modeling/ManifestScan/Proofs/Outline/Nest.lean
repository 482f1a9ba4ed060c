import ManifestScan.Proofs.Lexing.Bracket
import ManifestScan.Proofs.Outline.Calls
import ManifestScan.Proofs.Outline.Members

namespace ManifestScan

namespace Call

def firstName (call : Call) : Bytes := (call.callee.dropWhile (· == dot)).takeWhile (· != dot)

/-- Of two siblings one ends before the other starts. -/
def Apart (calls : List Call) : Prop :=
  calls.Pairwise fun call later => call.extent.stop ≤ later.extent.start

/-- A call that something closes takes up the tokens from its name to the closing bracket, which is
the first one that brings the brackets from its parenthesis on back to zero. -/
structure ClosesAt (call : Call) (source : Bytes) (tokens : List Token) (paren : Token)
    (inner : List Token) (close : Token) : Prop where
  encloses : paren.Encloses inner close
  /-- The bracket is the last byte. -/
  stop_eq : call.extent.stop = close.stop ∧ close.stop = close.offset + 1
  inner_text : ∀ token ∈ inner, token.kind.isLayout = false
  layout : ∀ token ∈ tokens, token.kind.isLayout = true →
    token.stop ≤ call.extent.start ∨ call.extent.stop ≤ token.offset
  first : call.firstName ≠ [] ∧ call.firstName <+: call.extent.of source

/-- The range of a call in a source: from its name on, with the calls among its arguments one behind
the other between its parenthesis and its end. -/
def Nests (call : Call) (source : Bytes) (tokens : List Token) : Prop :=
  ∃ front name links paren behind, tokens = front ++ name :: (links ++ paren :: behind) ∧
    call.Heads name links paren ∧ Apart call.nested ∧
    (∀ inner ∈ call.nested,
      paren.stop ≤ inner.extent.start ∧ inner.extent.stop ≤ call.extent.stop) ∧
    if call.closed then ∃ inner close rest, behind = inner ++ close :: rest ∧
      call.ClosesAt source tokens paren inner close
    else call.extent.stop = source.length

end Call

/-- The range of a definition: what is directly in its body stands between the start of the body and
its end, and its members end one behind the other. -/
structure Definition.Nests (definition : Definition) : Prop where
  start_lt : definition.extent.start < definition.extent.stop
  calls : Call.Apart definition.calls
  members : definition.definitions.Pairwise fun member later =>
    member.extent.stop < later.extent.stop
  holds_calls : ∀ body ∈ definition.body, ∀ call ∈ definition.calls, call.closed = true →
    body ≤ call.extent.start ∧ call.extent.stop ≤ definition.extent.stop
  holds_members : ∀ body ∈ definition.body, ∀ member ∈ definition.definitions,
    body ≤ member.extent.start ∧ member.extent.stop ≤ definition.extent.stop

namespace Call

variable {call : Call} {calls : List Call} {name paren : Token}
  {links rest next passed tokens : List Token} {stop : Nat}

theorem Heads.firstName_eq (h : call.Heads name links paren) (hn : name.text ≠ [])
    (hw : name.text.all Lexeme.isWordByte = true) : call.firstName = name.text := by
  have hb : ∀ b, Lexeme.isWordByte b = true → (b == dot) = false := by decide +kernel
  have hdot : ∀ b ∈ name.text, (b == dot) = false :=
    fun b hm => hb b (List.all_eq_true.1 hw b hm)
  obtain ⟨more, hmore, hc⟩ := h.callee_eq
  obtain ⟨b, text, ht⟩ := List.exists_cons_of_ne_nil hn
  have hdrop : call.callee.dropWhile (· == dot) = name.text ++ more := by
    have hstart : (name.text ++ more).dropWhile (· == dot) = name.text ++ more := by
      rw [ht, List.cons_append, List.dropWhile_cons_of_neg]
      have := hdot b (by rw [ht]; exact List.mem_cons_self)
      simp [this]
    rcases hc with hc | hc
    · rw [hc, hstart]
    · rw [hc, List.dropWhile_cons_of_pos (by rfl), hstart]
  have htake : more.takeWhile (· != dot) = [] := by
    rcases hmore with rfl | hm
    · rfl
    · cases more with
      | nil => rfl
      | cons b more =>
        cases hm
        exact List.takeWhile_cons_of_neg (by simp)
  unfold firstName
  rw [hdrop, List.takeWhile_append_of_pos, htake, List.append_nil]
  intro b hm
  rw [bne, hdot b hm]
  rfl

/-- A call with nothing but text in its parentheses is a piece of a line. -/
theorem Heads.forall_call (h : call.Heads name links paren) {inner : List Token} {close : Token}
    (hi : ∀ token ∈ inner, token.kind.isLayout = false) (hc : close.kind.isLayout = false) :
    ∀ token ∈ name :: (links ++ paren :: (inner ++ [close])), token.kind.isLayout = false := by
  have hpart : ∀ token : Token, token.IsPart → token.kind.isLayout = false := by
    rintro token (hk | hk) <;> rw [hk] <;> rfl
  simp only [List.forall_mem_cons, List.forall_mem_append]
  refine ⟨hpart name (.inl h.name_eq), fun token hm => hpart token (h.parts token hm), ?_, hi, hc,
    nofun⟩
  rw [h.paren_eq]
  rfl

theorem mem_allOf (h : call ∈ calls) : call ∈ allOf calls := by
  induction calls with
  | nil => cases h
  | cons other calls ih =>
    rw [allOf, List.mem_append, all_eq]
    rcases List.mem_cons.1 h with rfl | h
    · exact .inl List.mem_cons_self
    · exact .inr (ih h)

/-- A call starts with one of the tokens that are passed, and ends with one if something closes it;
else it ends at `stop`, and no token is left. -/
structure EndsIn (stop : Nat) (passed next : List Token) (call : Call) : Prop where
  start : ∃ name ∈ passed, call.extent.start = name.offset
  closed : call.closed = true → ∃ close ∈ passed, close.kind.isClosing = true ∧
    call.extent.stop = close.stop
  unclosed : call.closed = false → call.extent.stop = stop ∧ next = []

theorem EndsIn.of_subset {inner left : List Token} (h : call.EndsIn stop inner left)
    (hs : inner ⊆ passed) (hl : left = [] → next = []) : call.EndsIn stop passed next := by
  obtain ⟨⟨name, hn, hstart⟩, hclosed, hunclosed⟩ := h
  refine ⟨⟨name, hs hn, hstart⟩, fun hc => ?_, fun hu => ?_⟩
  · obtain ⟨close, hm, hk, he⟩ := hclosed hc
    exact ⟨close, hs hm, hk, he⟩
  · obtain ⟨he, hl'⟩ := hunclosed hu
    exact ⟨he, hl hl'⟩

/-- A call takes up no more than the tokens that are passed, or than `stop` where no
token is left. -/
theorem EndsIn.within {lower upper : Nat} (h : call.EndsIn stop passed next)
    (hp : ∀ token ∈ passed, lower ≤ token.offset ∧ token.stop ≤ upper)
    (hn : next = [] → stop ≤ upper) : lower ≤ call.extent.start ∧ call.extent.stop ≤ upper := by
  obtain ⟨⟨name, hname, hstart⟩, hclosed, hunclosed⟩ := h
  refine ⟨hstart ▸ (hp name hname).1, ?_⟩
  cases hc : call.closed with
  | true =>
    obtain ⟨close, hm, -, hstop⟩ := hclosed hc
    exact hstop ▸ (hp close hm).2
  | false =>
    obtain ⟨hstop, hnext⟩ := hunclosed hc
    exact hstop ▸ hn hnext

namespace Spread

/-- Each call among the tokens, at every depth, ends in them. -/
theorem exists_ends (h : Spread stop rest next calls) (hp : rest = passed ++ next) :
    ∀ call ∈ allOf calls, call.EndsIn stop passed next := by
  induction h generalizing passed with
  | nil => exact List.forall_mem_nil _
  | @pass token rest next calls h ih =>
    obtain ⟨front, rfl⟩ := h.suffix
    obtain rfl : passed = token :: front :=
      List.append_cancel_right (hp.symm.trans (List.cons_append ..).symm)
    exact fun call hm => (ih rfl call hm).of_subset (List.subset_cons_self _ _) id
  | @closed call calls name paren close links inner rest next hh he hc hs _ h ihn ih =>
    obtain ⟨front, rfl⟩ := h.suffix
    obtain rfl : passed = name :: (links ++ paren :: (inner ++ close :: front)) := by
      refine List.append_cancel_right (hp.symm.trans ?_)
      simp
    intro other hm
    rw [allOf, all_eq, List.cons_append, List.mem_cons, List.mem_append] at hm
    -- The call itself, one that is nested in it, or one behind it.
    rcases hm with rfl | hm | hm
    · refine ⟨⟨name, List.mem_cons_self, hh.start_eq⟩, fun _ => ⟨close, by simp, he.2.1, hs⟩,
        fun hopen => ?_⟩
      rw [hc] at hopen
      cases hopen
    · exact (ihn rfl other hm).of_subset (fun token hm => by simp [hm])
        fun hnil => absurd hnil (List.cons_ne_nil _ _)
    · exact (ih rfl other hm).of_subset (fun token hm => by simp [hm]) id
  | @unclosed call name paren links rest hh hc hs _ ihn =>
    rw [List.append_nil] at hp
    subst hp
    intro other hm
    rw [allOf, allOf, List.append_nil, all_eq, List.mem_cons] at hm
    rcases hm with rfl | hm
    · refine ⟨⟨name, List.mem_cons_self, hh.start_eq⟩, fun hclosed => ?_, fun _ => ⟨hs, rfl⟩⟩
      rw [hc] at hclosed
      cases hclosed
    · exact (ihn (List.append_nil rest).symm other hm).of_subset (fun token hm => by simp [hm]) id

/-- One sibling ends before the next one starts. -/
theorem apart (h : Spread stop rest next calls) (ho : Token.Ordered rest) : Apart calls := by
  induction h with
  | nil => exact .nil
  | pass _ ih => exact ih (ho.of_suffix (List.suffix_cons _ _))
  | @closed call calls name paren close links inner rest next _ _ _ hs _ h _ ih =>
    have hsplit : name :: (links ++ paren :: (inner ++ close :: rest)) =
        (name :: (links ++ paren :: (inner ++ [close]))) ++ rest := by simp
    rw [hsplit] at ho
    refine List.pairwise_cons.2 ⟨fun later hm => ?_, ih (ho.of_suffix (List.suffix_append _ _))⟩
    obtain ⟨front, rfl⟩ := h.suffix
    obtain ⟨⟨name', hn, he⟩, -⟩ := h.exists_ends rfl later (mem_allOf hm)
    rw [hs, he]
    exact ho.stop_le (by simp) (List.mem_append_left _ hn)
  | unclosed => exact List.pairwise_singleton _ _

/-- The calls at every depth stand in the tokens one by one. -/
theorem of_mem_all (h : Spread stop rest next calls) :
    ∀ call ∈ allOf calls, ∃ own left, own <:+ rest ∧ Spread stop own left [call] := by
  induction h with
  | nil => exact nofun
  | @pass token rest next calls _ ih =>
    intro call hm
    obtain ⟨own, left, hs, hcall⟩ := ih call hm
    exact ⟨own, left, hs.trans (List.suffix_cons _ _), hcall⟩
  | @closed call calls name paren close links inner rest next hh he hc hs hn h ihn ih =>
    have hinner := suffix_paren name paren links (inner ++ close :: rest)
    intro other hm
    rw [allOf, all_eq, List.cons_append, List.mem_cons, List.mem_append] at hm
    rcases hm with rfl | hm | hm
    · exact ⟨_, rest, List.suffix_rfl, .closed hh he hc hs hn .nil⟩
    · obtain ⟨own, left, hown, hcall⟩ := ihn other hm
      exact ⟨own, left, hown.trans hinner, hcall⟩
    · obtain ⟨own, left, hown, hcall⟩ := ih other hm
      exact ⟨own, left, hown.trans ((suffix_close inner close rest).trans hinner), hcall⟩
  | @unclosed call name paren links rest hh hc hs hn ihn =>
    intro other hm
    rw [allOf, allOf, List.append_nil, all_eq, List.mem_cons] at hm
    rcases hm with rfl | hm
    · exact ⟨_, [], List.suffix_rfl, .unclosed hh hc hs hn⟩
    · obtain ⟨own, left, hown, hcall⟩ := ihn other hm
      exact ⟨own, left, hown.trans (suffix_paren _ _ _ _), hcall⟩

/-- A single call is found behind tokens that are passed. -/
theorem of_singleton (h : Spread stop rest next [call]) :
    ∃ front name links paren behind, rest = front ++ name :: (links ++ paren :: behind) ∧
      call.Heads name links paren ∧
      ((call.closed = true ∧ ∃ inner close after, behind = inner ++ close :: after ∧
        paren.Encloses inner close ∧ call.extent.stop = close.stop ∧
        Spread stop (inner ++ close :: after) (close :: after) call.nested) ∨
      (call.closed = false ∧ call.extent.stop = stop ∧ Spread stop behind [] call.nested)) := by
  generalize hcalls : [call] = calls at h
  induction h with
  | nil => cases hcalls
  | @pass token rest next calls _ ih =>
    obtain ⟨front, name, links, paren, behind, rfl, hcall⟩ := ih hcalls
    exact ⟨token :: front, name, links, paren, behind, rfl, hcall⟩
  | closed hh he hc hs hn =>
    cases hcalls
    exact ⟨[], _, _, _, _, rfl, hh, .inl ⟨hc, _, _, _, rfl, he, hs, hn⟩⟩
  | unclosed hh hc hs hn =>
    cases hcalls
    exact ⟨[], _, _, _, _, rfl, hh, .inr ⟨hc, hs, hn⟩⟩

end Spread

end Call

/-- The last token ends with the source. -/
theorem Tiling.stop_last {source : Bytes} {offset : Nat} {tokens : List Token} {unknown : List Nat}
    (h : Tiling source offset tokens unknown) :
    ∀ final ∈ tokens.getLast?, final.stop = source.length := by
  induction h with
  | last _ hs =>
    intro final hf
    cases hf
    exact hs
  | @cons offset token tokens unknown others h ht ih =>
    intro final hf
    refine ih final ?_
    cases ht <;> exact hf

section

variable {source : Bytes} {tokens : List Token} {final : Token}
  (ht : (tokenize source).tokens = tokens ++ [final])

include ht

theorem stop_final : final.stop = source.length := by
  obtain ⟨unknown, htiling, -⟩ := tiling_tokenize source
  rw [ht] at htiling
  exact htiling.stop_last final (by simp)

/-- What a call that something closes takes up. -/
theorem Call.closesAt {call : Call} {name paren close : Token} {front links inner rest : List Token}
    (hl : Laid true 0 tokens)
    (he : tokens = front ++ name :: (links ++ paren :: (inner ++ close :: rest)))
    (hh : call.Heads name links paren) (henclose : paren.Encloses inner close)
    (hs : call.extent.stop = close.stop) :
    call.ClosesAt source (tokenize source).tokens paren inner close := by
  have hordered := Token.ordered_tokenize source
  have hinner : ∀ token ∈ inner, token.kind.isLayout = false := by
    refine @Laid.enclosed true 0 (front ++ name :: links) inner rest paren close ?_ henclose
    rw [List.append_assoc, List.cons_append, ← he]
    exact hl
  have hown := hh.forall_call hinner (TokenKind.isLayout_of_isClosing henclose.2.1)
  have hsplit : (tokenize source).tokens =
      front ++ (name :: (links ++ paren :: (inner ++ [close])) ++ (rest ++ [final])) := by
    rw [ht, he]
    simp
  have hmem : name ∈ (tokenize source).tokens := by
    rw [hsplit]
    simp
  rw [hsplit] at hordered
  have hbehind := hordered.of_suffix (List.suffix_append _ _)
  have hlast : close.stop = close.offset + 1 := by
    refine (apt_tokenize source close ?_).stop_eq henclose.2.1
    rw [hsplit]
    simp
  -- No token of layout is among the call's own, so each stands in front of it or behind it.
  refine ⟨henclose, ⟨hs, hlast⟩, hinner, fun token hm hk => ?_, ?_⟩
  · rw [hh.start_eq, hs]
    rw [hsplit, List.mem_append, List.mem_append] at hm
    rcases hm with hm | hm | hm
    · exact .inl (hordered.stop_le hm (by simp))
    · rw [hown token hm] at hk
      cases hk
    · exact .inr (hbehind.stop_le (by simp) hm)
  · obtain ⟨unknown, htiling, -⟩ := tiling_tokenize source
    obtain ⟨_, _, -, hf⟩ := htiling.follows name hmem
    have hlt := hbehind.offset_lt name (by simp) (hown name List.mem_cons_self)
    have hn : name.text ≠ [] := by
      intro hn
      rw [Token.stop, Token.length, hn] at hlt
      exact Nat.lt_irrefl _ hlt
    rw [hh.firstName_eq hn (isWord_tokenize source name hmem hh.name_eq), Extent.of,
      hh.start_eq, hs]
    refine ⟨hn, ?_⟩
    have hle : name.stop ≤ close.stop := by
      have hsub := (List.pairwise_append.1 hbehind.pairwise).1
      have := (List.pairwise_cons.1 hsub).1 close (by simp)
      exact Nat.le_trans this close.offset_le_stop
    rw [← slice_append name.offset_le_stop hle, ← hf.text_eq]
    exact List.prefix_append _ _

/-- Calls that spread over the tokens of a source nest there. -/
theorem Call.Spread.nests {own left : List Token} {calls : List Call}
    (h : Call.Spread final.stop own left calls) (hl : Laid true 0 tokens) (hs : own <:+ tokens) :
    ∀ call ∈ Call.allOf calls, call.Nests source (tokenize source).tokens := by
  intro call hm
  obtain ⟨start, left, hstart, hcall⟩ := h.of_mem_all call hm
  obtain ⟨front, name, links, paren, behind, rfl, hh, hcases⟩ := hcall.of_singleton
  obtain ⟨before, hbefore⟩ := hstart.trans hs
  have hordered := Token.ordered_tokenize source
  have hsplit : (tokenize source).tokens =
      (before ++ front ++ name :: links) ++ paren :: (behind ++ [final]) := by
    rw [ht, ← hbefore]
    simp
  rw [hsplit] at hordered
  have hparen := hordered.of_suffix (List.suffix_append _ _)
  have hbehind := hparen.of_suffix (List.suffix_cons _ _)
  refine ⟨before ++ front, name, links, paren, behind ++ [final], by rw [hsplit]; simp, hh, ?_⟩
  -- A list that is closed has its calls in front of its bracket, an open one up to the end.
  rcases hcases with ⟨hclosed, inner, close, rest, rfl, he, hstop, hnested⟩ |
    ⟨hopen, hstop, hnested⟩
  · have hinner := hbehind.of_prefix (List.prefix_append _ _)
    refine ⟨hnested.apart hinner, fun other hm => ?_, ?_⟩
    · have hends := hnested.exists_ends rfl other (Call.mem_allOf hm)
      rw [hstop]
      refine hends.within (fun token hm => ⟨?_, ?_⟩) nofun
      · exact (List.pairwise_cons.1 hparen.pairwise).1 token (by simp [hm])
      · exact Nat.le_trans (hinner.stop_le hm List.mem_cons_self) close.offset_le_stop
    · rw [if_pos hclosed]
      refine ⟨inner, close, rest ++ [final], by simp, ?_⟩
      have hplace : tokens = (before ++ front) ++
          name :: (links ++ paren :: (inner ++ close :: rest)) := by
        rw [← hbefore, List.append_assoc]
      exact Call.closesAt ht hl hplace hh he hstop
  · refine ⟨hnested.apart (hbehind.of_prefix (List.prefix_append _ _)), fun other hm => ?_, ?_⟩
    · have hends := hnested.exists_ends (List.append_nil behind).symm other (Call.mem_allOf hm)
      rw [hstop]
      refine hends.within (fun token hm => ⟨?_, ?_⟩) fun _ => Nat.le_refl _
      · exact (List.pairwise_cons.1 hparen.pairwise).1 token (by simp [hm])
      · exact Nat.le_trans (hbehind.stop_le hm List.mem_cons_self) final.offset_le_stop
    · rw [if_neg (by simp [hopen]), hstop]
      exact stop_final ht

end

namespace Definition.Spread

variable {stop lower : Nat} {rest next passed : List Token} {definitions : List Definition}

/-- Each definition among the tokens has a keyword there and ends with one of them. -/
theorem exists_ends (h : Spread stop lower rest next definitions) (ho : Token.Ordered rest)
    (hp : rest = passed ++ next) :
    ∀ definition ∈ definitions, lower ≤ definition.extent.start ∧
      (∃ keyword ∈ passed, keyword.kind.isLayout = false ∧
        definition.extent.start ≤ keyword.offset ∧ keyword.stop ≤ definition.extent.stop) ∧
      ∃ last ∈ passed, last.kind.isLayout = false ∧ definition.extent.stop = last.stop := by
  induction h generalizing passed with
  | nil => exact nofun
  | @pass lower token rest next definitions h ih =>
    obtain ⟨front, rfl⟩ := h.suffix
    obtain rfl : passed = token :: front :=
      List.append_cancel_right (hp.symm.trans (List.cons_append ..).symm)
    intro definition hm
    obtain ⟨hl, ⟨keyword, hk, hkeyword⟩, last, hm', hlast⟩ :=
      ih (ho.of_suffix (List.suffix_cons _ _)) rfl definition hm
    exact ⟨hl, ⟨keyword, List.mem_cons_of_mem _ hk, hkeyword⟩, last,
      List.mem_cons_of_mem _ hm', hlast⟩
  | @cons lower definition definitions keyword words behind rest next hl hs hk he _ _ _ h _ ih =>
    obtain ⟨front, rfl⟩ := h.suffix
    have hsplit : keyword :: (words ++ (behind ++ (front ++ next))) =
        (keyword :: (words ++ behind)) ++ (front ++ next) := by simp
    obtain rfl : passed = keyword :: (words ++ behind) ++ front := by
      refine List.append_cancel_right (hp.symm.trans ?_)
      simp
    rw [hsplit] at ho
    have hown := ho.of_prefix (List.prefix_append _ _)
    obtain ⟨hlast, hmem⟩ := Token.isLayout_lastText hk (words ++ behind)
    refine List.forall_mem_cons.2 ⟨⟨hl, ⟨keyword, by simp, hk, hs, ?_⟩, ?_⟩, fun other hm => ?_⟩
    · rw [he]
      exact hown.stop_le_lastText hk List.mem_cons_self hk
    · exact ⟨_, List.mem_append_left _ hmem, hlast, he⟩
    · obtain ⟨hl, ⟨keyword', hk, hkeyword⟩, last, hm', hlast⟩ :=
        ih (ho.of_suffix (List.suffix_append _ _)) rfl other hm
      exact ⟨hl, ⟨keyword', List.mem_append_right _ hk, hkeyword⟩, last,
        List.mem_append_right _ hm', hlast⟩

/-- One sibling ends before the next one does. -/
theorem pairwise (h : Spread stop lower rest next definitions) (ho : Token.Ordered rest) :
    definitions.Pairwise fun definition later => definition.extent.stop < later.extent.stop := by
  induction h with
  | nil => exact .nil
  | pass _ ih => exact ih (ho.of_suffix (List.suffix_cons _ _))
  | @cons lower definition definitions keyword words behind rest next _ _ hk he _ _ _ h _ ih =>
    have hsplit :
        keyword :: (words ++ (behind ++ rest)) = (keyword :: (words ++ behind)) ++ rest := by
      simp
    rw [hsplit] at ho
    have hrest := ho.of_suffix (List.suffix_append _ _)
    refine List.pairwise_cons.2 ⟨fun later hm => ?_, ih hrest⟩
    obtain ⟨front, rfl⟩ := h.suffix
    obtain ⟨-, ⟨keyword', hk', hlayout, -, hstop⟩, -⟩ := h.exists_ends hrest rfl later hm
    have hmem := (Token.isLayout_lastText hk (words ++ behind)).2
    have hle := ho.stop_le hmem (List.mem_append_left next hk')
    have hlt := hrest.offset_lt keyword' (List.mem_append_left _ hk') hlayout
    rw [he]
    omega

/-- The definitions at every depth nest. -/
theorem nests (h : Spread stop lower rest next definitions) (ho : Token.Ordered rest) :
    ∀ definition ∈ allOf definitions, definition.Nests := by
  induction h with
  | nil => exact nofun
  | pass _ ih => exact ih (ho.of_suffix (List.suffix_cons _ _))
  | @cons lower definition definitions keyword words behind rest next hl hs hk he hb hc hd h
      ihd ih =>
    have hown : Token.Ordered (keyword :: (words ++ behind)) := by
      refine ho.of_prefix ⟨rest, ?_⟩
      simp
    have hbehind : Token.Ordered (behind ++ rest) :=
      ho.of_suffix (.trans (List.suffix_append _ _) (List.suffix_cons _ _))
    have hlast :
        ∀ token ∈ behind, token.kind.isLayout = false → token.stop ≤ definition.extent.stop := by
      intro token hm hl
      rw [he]
      exact hown.stop_le_lastText hk (by simp [hm]) hl
    have hstart : definition.extent.start < definition.extent.stop := by
      have hlt := hown.offset_lt keyword List.mem_cons_self hk
      have := hown.stop_le_lastText hk List.mem_cons_self hk
      rw [he]
      omega
    have hbody : ∀ body ∈ definition.body, definition.body.getD 0 = body := by
      intro body hm
      rw [Option.mem_def.1 hm]
      rfl
    -- Calls and members are in `behind`, with whose last token with text the definition ends.
    have hnests : definition.Nests := by
      refine ⟨hstart, hc.apart hbehind, hd.pairwise hbehind, fun body hm call hcall hclosed => ?_,
        fun body hm member hmember => ?_⟩
      · obtain ⟨⟨name, hn, hs⟩, hclose, -⟩ := hc.exists_ends rfl call (Call.mem_allOf hcall)
        obtain ⟨close, hm', hkind, hstop⟩ := hclose hclosed
        rw [← hbody body hm, hs, hstop]
        exact ⟨hb name hn, hlast close hm' (TokenKind.isLayout_of_isClosing hkind)⟩
      · obtain ⟨hlower, -, last, hm', hkind, hstop⟩ := hd.exists_ends hbehind rfl member hmember
        rw [← hbody body hm, hstop]
        exact ⟨hlower, hlast last hm' hkind⟩
    intro other hm
    rw [← List.singleton_append, allOf_append, allOf_singleton, List.cons_append, List.mem_cons,
      List.mem_append] at hm
    rcases hm with rfl | hm | hm
    · exact hnests
    · exact ihd hbehind other hm
    · exact ih (hbehind.of_suffix (List.suffix_append _ _)) other hm

/-- The calls directly in a definition at any depth spread over tokens. -/
theorem spread_calls (h : Spread stop lower rest next definitions) :
    ∀ definition ∈ allOf definitions, ∃ own left, own <:+ rest ∧
      Call.Spread stop own left definition.calls := by
  induction h with
  | nil => exact nofun
  | @pass lower token rest next definitions _ ih =>
    intro definition hm
    obtain ⟨own, left, hs, hcalls⟩ := ih definition hm
    exact ⟨own, left, hs.trans (List.suffix_cons _ _), hcalls⟩
  | @cons lower definition definitions keyword words behind rest next _ _ _ _ _ hc _ _ ihd ih =>
    have hbehind : behind ++ rest <:+ keyword :: (words ++ (behind ++ rest)) :=
      .trans (List.suffix_append _ _) (List.suffix_cons _ _)
    intro other hm
    rw [← List.singleton_append, allOf_append, allOf_singleton, List.cons_append, List.mem_cons,
      List.mem_append] at hm
    rcases hm with rfl | hm | hm
    · exact ⟨_, rest, hbehind, hc⟩
    · obtain ⟨own, left, hs, hcalls⟩ := ihd other hm
      exact ⟨own, left, hs.trans hbehind, hcalls⟩
    · obtain ⟨own, left, hs, hcalls⟩ := ih other hm
      exact ⟨own, left, hs.trans (.trans (List.suffix_append _ _) hbehind), hcalls⟩

end Definition.Spread

/-- The outline of a source spreads over the source's tokens, whatever is wrong with them. -/
theorem Outline.spread_ofSource (source : Bytes) : ∃ tokens final,
    (tokenize source).tokens = tokens ++ [final] ∧ Laid true 0 tokens ∧
      Cursor.Contents.Spread ⟨(Script.ofSource source).outline.calls,
        (Script.ofSource source).outline.definitions⟩ final.stop 0 tokens [] := by
  obtain ⟨tokens, final, he, hk, hl⟩ := laid_tokenize source
  obtain ⟨cursor, hcursor, hrest, -, -, hfinal⟩ :=
    @Cursor.ofTokens?_snoc source tokens final hl.not_endOfFile hk
  have hparsed : (Script.ofSource source).outline =
      ⟨(cursor.block true []).value.calls, (cursor.block true []).value.definitions⟩ := by
    show (Outline.ofTokens source (tokenize source).tokens).outline = _
    rw [he, Outline.ofTokens, hcursor]
  have hordered := Token.ordered_tokenize source
  rw [he] at hordered
  have hlead : Decorator.Lead 0 [] cursor.rest := by
    rw [hrest]
    exact ⟨hordered.of_prefix (List.prefix_append _ _), fun _ _ => Nat.zero_le _,
      List.forall_mem_nil _⟩
  have hpath := Cursor.blockPath true [] cursor
  have hspread := hpath.spread hlead
  rw [hpath.rest_nil, hrest, hfinal] at hspread
  rw [hparsed]
  exact ⟨tokens, final, he, hl, hspread⟩

/-- Each call of an outline, at every depth, nests in the tokens of the source. -/
theorem Outline.calls_nest (source : Bytes) : ∀ call ∈ (Script.ofSource source).outline.allCalls,
    call.Nests source (tokenize source).tokens := by
  obtain ⟨tokens, final, ht, hl, hcalls, hdefinitions⟩ := spread_ofSource source
  intro call hm
  rw [allCalls, List.mem_append] at hm
  rcases hm with hm | hm
  · exact hcalls.nests ht hl List.suffix_rfl call hm
  · obtain ⟨definition, hd, hm⟩ := List.mem_flatMap.1 hm
    obtain ⟨own, left, hs, hown⟩ := hdefinitions.spread_calls definition hd
    exact hown.nests ht hl hs call hm

/-- The outline of a source nests, whatever the source: siblings stand one behind the other, what
is in a call stands between its parenthesis and its end, and what is in a body before the end of
its definition. -/
theorem Outline.nests_ofSource (source : Bytes) :
    let outline := (Script.ofSource source).outline
    Call.Apart outline.calls ∧
      (outline.definitions.Pairwise fun definition later =>
        definition.extent.stop < later.extent.stop) ∧
      (∀ call ∈ outline.allCalls, call.Nests source (tokenize source).tokens) ∧
      ∀ definition ∈ outline.allDefinitions, definition.Nests := by
  intro outline
  obtain ⟨tokens, final, ht, -, hcalls, hdefinitions⟩ := spread_ofSource source
  have hordered := Token.ordered_tokenize source
  rw [ht] at hordered
  replace hordered := hordered.of_prefix (List.prefix_append _ _)
  exact ⟨hcalls.apart hordered, hdefinitions.pairwise hordered, calls_nest source,
    hdefinitions.nests hordered⟩

end ManifestScan
