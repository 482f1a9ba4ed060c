import ManifestScan.Proofs.Lexing.Order

namespace ManifestScan

def Token.turn? (token : Token) : Option Turn := token.kind.turn?

/-- Layout has no brackets. -/
theorem Token.turns_layout {tokens : List Token}
    (h : ∀ token ∈ tokens, token.kind.isLayout = true) :
    tokens.filterMap Token.turn? = [] := by
  have hnone : ∀ kind : TokenKind, kind.isLayout = true → kind.turn? = none := by
    intro kind hk
    cases kind <;> first | rfl | cases hk
  exact List.filterMap_eq_nil_iff.2 fun token hm => hnone token.kind (h token hm)

theorem TokenKind.depthAfter_of_through {kind : TokenKind} {base depth next : Nat}
    (h : Turn.through depth kind.turn?.toList = some next) :
    kind.depthAfter (base + depth) = base + next := by
  unfold turn? at h
  unfold depthAfter
  by_cases ho : kind.isOpening = true
  · rw [if_pos ho] at h ⊢
    cases h
    rfl
  · rw [if_neg ho] at h ⊢
    by_cases hc : kind.isClosing = true
    · rw [if_pos hc] at h ⊢
      cases depth with
      | zero => cases h
      | succ depth => cases h; rfl
    · rw [if_neg hc] at h ⊢
      cases h
      rfl

namespace Lexeme

theorem Sound.kind_cases {rest : Bytes} {lexeme : Lexeme} (h : lexeme.Sound rest) :
    lexeme.kind = .filler ∨ lexeme.kind = .lineBreak ∨ ∃ kind, lexeme.kind = .token kind := by
  cases h with
  | inert hi hf =>
    unfold isFlat at hf
    split at hf <;> simp_all
  | bracket => exact .inr (.inr ⟨_, rfl⟩)
  | comment => exact .inl rfl
  | literal => exact .inr (.inr ⟨_, rfl⟩)

theorem nestingAfter_cons (nesting : Nat) (lexeme : Lexeme) (others : List Lexeme) :
    nestingAfter nesting (lexeme :: others) =
      nestingAfter (nestingAfter nesting [lexeme]) others := by
  simp only [nestingAfter]
  split <;> rfl

theorem turnsOf_cons (lexeme : Lexeme) (others : List Lexeme) :
    turnsOf (lexeme :: others) = lexeme.turn?.toList ++ turnsOf others := by
  unfold turnsOf
  cases h : lexeme.turn? <;> simp [h]

theorem nestingAfter_one {lexeme : Lexeme} {base depth next : Nat}
    (h : Turn.through depth lexeme.turn?.toList = some next) :
    nestingAfter (base + depth) [lexeme] = base + next := by
  obtain ⟨kind, text⟩ := lexeme
  cases kind with
  | token kind => exact TokenKind.depthAfter_of_through h
  | _ => cases h; rfl

theorem nestingAfter_of_through {lexemes : List Lexeme} {base depth next : Nat}
    (h : Turn.through depth (turnsOf lexemes) = some next) :
    nestingAfter (base + depth) lexemes = base + next := by
  induction lexemes generalizing depth with
  | nil => cases h; rfl
  | cons lexeme others ih =>
    rw [turnsOf_cons, Turn.through_append] at h
    obtain ⟨middle, hm, h⟩ := Option.bind_eq_some_iff.1 h
    rw [nestingAfter_cons, nestingAfter_one hm, ih h]

/-- No line ends inside a bracket. -/
theorem flow_of_through {text rest : Bytes} {lexemes : List Lexeme} (hl : Lexes rest text lexemes)
    {base depth next : Nat} (hb : base ≠ 0) (h : Turn.through depth (turnsOf lexemes) = some next) :
    flow (base + depth) lexemes = true := by
  induction hl generalizing depth with
  | nil => rfl
  | @cons b front text lexeme others _ _ hs _ ih =>
    rw [turnsOf_cons, Turn.through_append] at h
    obtain ⟨middle, hm, h⟩ := Option.bind_eq_some_iff.1 h
    have hi := ih h
    have hn := @nestingAfter_one _ base _ _ hm
    simp only [flow]
    obtain hk | hk | ⟨kind, hk⟩ := hs.kind_cases
    · simp only [nestingAfter, hk] at hn
      simpa only [hk, hn] using hi
    · simp only [nestingAfter, hk] at hn
      -- The brackets around the text stay open, since it closes no more than it opens.
      have hz : base + middle ≠ 0 := by omega
      simp [hk, hn, hi, hb]
    · simp only [nestingAfter, hk] at hn
      simpa only [hk, hn] using hi

def AllFlat (lexemes : List Lexeme) : Prop :=
  ∀ lexeme ∈ lexemes, lexeme.isFlat = true ∧ lexeme.kind ≠ .lineBreak

theorem AllFlat.nil : AllFlat [] := nofun

theorem AllFlat.append {lexemes others : List Lexeme} (h : AllFlat lexemes) (h' : AllFlat others) :
    AllFlat (lexemes ++ others) := by
  intro lexeme hm
  rcases List.mem_append.1 hm with hm | hm
  · exact h lexeme hm
  · exact h' lexeme hm

theorem AllFlat.cons {lexeme : Lexeme} {others : List Lexeme} (hf : lexeme.isFlat = true)
    (hk : lexeme.kind ≠ .lineBreak) (h : AllFlat others) : AllFlat (lexeme :: others) := by
  intro other hm
  rcases List.mem_cons.1 hm with rfl | hm
  · exact ⟨hf, hk⟩
  · exact h other hm

theorem AllFlat.turnsOf_eq {lexemes : List Lexeme} (h : AllFlat lexemes) :
    turnsOf lexemes = [] := by
  unfold turnsOf
  rw [List.filterMap_eq_nil_iff]
  intro lexeme hm
  have hf := (h lexeme hm).1
  unfold isFlat at hf
  unfold turn?
  split at hf
  all_goals simp_all [turn?_of_isFlat]

theorem AllFlat.nestingAfter_eq {lexemes : List Lexeme} (h : AllFlat lexemes) (nesting : Nat) :
    nestingAfter nesting lexemes = nesting := by
  have ht : Turn.through 0 (turnsOf lexemes) = some 0 := by
    rw [h.turnsOf_eq]
    rfl
  exact @nestingAfter_of_through _ nesting _ _ ht

theorem AllFlat.flow_eq {lexemes : List Lexeme} (h : AllFlat lexemes) (nesting : Nat) :
    flow nesting lexemes = true := by
  induction lexemes with
  | nil => rfl
  | cons lexeme others ih =>
    have ho : AllFlat others := fun other hm => h other (List.mem_cons_of_mem _ hm)
    obtain ⟨hf, hk⟩ := h lexeme List.mem_cons_self
    have hn : nestingAfter nesting [lexeme] = nesting :=
      AllFlat.nestingAfter_eq (.cons hf hk .nil) nesting
    unfold isFlat at hf
    unfold flow
    simp only [nestingAfter] at hn
    split at hf <;> simp_all

theorem turn?_tokenAt? (offset : Nat) (location : Location) (lexeme : Lexeme) :
    (lexeme.tokenAt? offset location).toList.filterMap Token.turn? = lexeme.turn?.toList := by
  obtain ⟨kind, text⟩ := lexeme
  cases kind with
  | token kind => cases h : kind.turn? <;> simp [tokenAt?, turn?, Token.turn?, h]
  | _ => rfl

theorem offset_tokenAt? {offset : Nat} {location : Location} {lexeme : Lexeme} {token : Token}
    (h : token ∈ (lexeme.tokenAt? offset location).toList) : token.offset = offset := by
  unfold tokenAt? at h
  split at h
  · rw [Option.toList_some, List.mem_singleton] at h
    rw [h]
  · cases h

end Lexeme

namespace Lexer

open Lexeme

variable {lexer : Lexer}

/-- What a lexeme without fault does inside brackets. -/
theorem take_of_sound {lexeme : Lexeme} {rest : Bytes} (hs : lexeme.Sound rest)
    (hn : lexer.nesting ≠ 0) :
    (lexer.take lexeme).offset = lexer.offset + lexeme.text.length ∧
      (lexer.take lexeme).atLineStart = lexer.atLineStart ∧
      (lexer.take lexeme).tokens =
        (lexeme.tokenAt? lexer.offset lexer.location).toList ++ lexer.tokens ∧
      (lexer.take lexeme).nesting = nestingAfter lexer.nesting [lexeme] := by
  obtain hk | hk | ⟨kind, hk⟩ := hs.kind_cases
  · simp [take, tokenAt?, nestingAfter, hk, skip]
  · simp [take, tokenAt?, nestingAfter, hk, skip, hn]
  · simp [take, tokenAt?, nestingAfter, hk, skip, addToken]

theorem faults_take_unclosed {lexeme : Lexeme} (h : lexeme.kind = .unclosed) :
    (lexer.take lexeme).faults ≠ [] := by
  simp [take, h, skip, addToken, report]

theorem faults_take_unknown {lexeme : Lexeme} (h : lexeme.kind = .unknown) :
    (lexer.take lexeme).faults ≠ [] := by
  simp [take, h, skip, report]

/-- The lexeme read in front of a token does not reach behind it. -/
theorem exists_take {b : UInt8} {tail rest : Bytes} {future : List Token}
    (hl : lexer.atLineStart = false) (hr : lexer.rest = b :: tail ++ rest)
    (hn : lexer.nesting ≠ 0) (ht : lexer.run.tokens = future ++ lexer.tokens)
    (hf : lexer.run.faults = [])
    (hs : ∃ token ∈ future, token.offset = lexer.offset + (b :: tail).length) :
    ∃ lexeme front text later, read b (tail ++ rest) = lexeme ∧ lexeme.text = b :: front ∧
      tail = front ++ text ∧ lexeme.Sound (text ++ rest) ∧
      lexer.run = (lexer.take lexeme).run ∧
      (lexer.take lexeme).run.tokens = later ++ (lexer.take lexeme).tokens ∧
      future = later ++ (lexeme.tokenAt? lexer.offset lexer.location).toList ∧
      ∃ token ∈ later, token.offset = lexer.offset + (b :: tail).length := by
  have hrun : lexer.run = (lexer.take (read b (tail ++ rest))).run := by
    rw [run_cons hr, step, if_neg (by simp [hl])]
    rfl
  have hprec := Precedes.run (lexer.take (read b (tail ++ rest)))
  have hclean := hprec.faults_nil (hrun ▸ hf)
  obtain hu | hu | ⟨after, he, hsound⟩ := sound_read b (tail ++ rest)
  · exact absurd hclean (faults_take_unclosed hu)
  · exact absurd hclean (faults_take_unknown hu)
  have hne := read_text_ne_nil b (tail ++ rest)
  generalize read b (tail ++ rest) = lexeme at hrun hprec he hsound hne ⊢
  obtain ⟨hno, -, hnt, -⟩ := @take_of_sound lexer _ _ hsound hn
  obtain ⟨later, hft, hge⟩ := hprec.tokens
  have hfuture : future = later ++ (lexeme.tokenAt? lexer.offset lexer.location).toList := by
    rw [hrun, hft, hnt, ← List.append_assoc] at ht
    exact (List.append_cancel_right ht).symm
  -- The lexeme's own token starts with it, so the token at the end of the text comes later.
  obtain ⟨token, hmem, hoff⟩ := hs
  have hlater : token ∈ later := by
    rw [hfuture, List.mem_append] at hmem
    refine hmem.resolve_right fun hm => ?_
    have := offset_tokenAt? hm
    rw [List.length_cons] at hoff
    omega
  have hle : lexeme.text.length ≤ (b :: tail).length := by
    have := hge token hlater
    omega
  obtain ⟨text, htext⟩ : lexeme.text <+: b :: tail :=
    List.prefix_of_prefix_length_le ⟨after, he.symm⟩ ⟨rest, rfl⟩ hle
  have hafter : after = text ++ rest := by
    rw [← List.cons_append, ← htext, List.append_assoc] at he
    exact (List.append_cancel_left he).symm
  subst hafter
  cases hx : lexeme.text with
  | nil => exact absurd hx hne
  | cons c front =>
    rw [hx] at htext
    cases htext
    exact ⟨lexeme, front, text, later, rfl, hx, rfl, hsound, hrun, hft, hfuture,
      token, hlater, hoff⟩

/-- The turns in front of a position are those of the lexeme read and then the later ones. -/
theorem turns_take {lexeme : Lexeme} {later : List Token} {stop : Nat}
    (hs : lexer.offset < stop) :
    ((later ++ (lexeme.tokenAt? lexer.offset lexer.location).toList).reverse.filter
      (·.offset < stop)).filterMap Token.turn? =
        lexeme.turn?.toList ++ (later.reverse.filter (·.offset < stop)).filterMap Token.turn? := by
  rw [List.reverse_append, List.filter_append, List.filterMap_append]
  congr 1
  rw [List.filter_eq_self.2, List.filterMap_reverse, turn?_tokenAt?]
  · cases lexeme.turn? <;> rfl
  · intro token hm
    rw [offset_tokenAt? (List.mem_reverse.1 hm)]
    exact decide_eq_true hs

/-- The tokens of a text tell where it ends: it is made of whole lexemes when a token starts behind
it and the brackets of its tokens close each other. -/
theorem exists_lexes {text rest : Bytes} {base depth : Nat} (hb : base ≠ 0)
    (hl : lexer.atLineStart = false) (hr : lexer.rest = text ++ rest)
    (hn : lexer.nesting = base + depth) {future : List Token}
    (ht : lexer.run.tokens = future ++ lexer.tokens) (hf : lexer.run.faults = [])
    (hs : ∃ token ∈ future, token.offset = lexer.offset + text.length)
    (hd : Turn.through depth ((future.reverse.filter
      (·.offset < lexer.offset + text.length)).filterMap Token.turn?) = some 0) :
    ∃ lexemes, Lexes rest text lexemes ∧ Turn.through depth (turnsOf lexemes) = some 0 := by
  induction hk : text.length using Nat.strong_induction_on generalizing lexer text depth future with
  | _ n ih =>
    subst hk
    -- Not structural: the text is cut where the lexeme that is read ends.
    cases text with
    | nil =>
      obtain ⟨added, ha, hge⟩ := (Precedes.run lexer).tokens
      obtain rfl := List.append_cancel_right (ht.symm.trans ha)
      have he : future.reverse.filter
          (fun token => decide (token.offset < lexer.offset + ([] : Bytes).length)) = [] := by
        rw [List.filter_eq_nil_iff]
        intro token hm
        have := hge token (List.mem_reverse.1 hm)
        simp only [List.length_nil, decide_eq_true_eq]
        omega
      rw [he] at hd
      exact ⟨[], .nil, hd⟩
    | cons b tail =>
      obtain ⟨lexeme, front, text, later, hread, hx, rfl, hsound, hrun, hft, rfl, hlater⟩ :=
        exists_take hl hr (by omega) ht hf hs
      obtain ⟨hno, hnl, -, hnn⟩ := @take_of_sound lexer _ _ hsound (by omega)
      rw [turns_take (by simp), Turn.through_append] at hd
      obtain ⟨middle, hm, hd⟩ := Option.bind_eq_some_iff.1 hd
      -- What is left of the text stops at the same token.
      have hstop : (lexer.take lexeme).offset + text.length =
          lexer.offset + (b :: (front ++ text)).length := by
        rw [hno, hx, List.length_cons, List.length_cons, List.length_append]
        omega
      have hnext : (lexer.take lexeme).rest = text ++ rest := by
        rw [rest_take, hr, hx, ← List.cons_append, List.append_assoc, List.drop_left]
      have hshort : text.length < (b :: (front ++ text)).length := by
        rw [List.length_cons, List.length_append]
        omega
      obtain ⟨others, ho, ht'⟩ := ih text.length hshort (hnl.trans hl) hnext
        (by rw [hnn, hn, nestingAfter_one hm]) hft (hrun ▸ hf) (hstop ▸ hlater)
        (by rw [hstop]; exact hd) rfl
      refine ⟨lexeme :: others, ?_, ?_⟩
      · rw [← List.cons_append, ← hx]
        refine .cons ?_ hx hsound ho
        rw [← List.append_assoc]
        exact hread
      · rw [turnsOf_cons, Turn.through_append, hm]
        exact ht'

end Lexer

end ManifestScan
