import ManifestScan.Proofs.Lexing.Context

namespace ManifestScan.Lexeme

/-- What `f` takes from the start of a text, it takes from each part of the text that holds it: the
text behind decides only how far it goes. -/
def IsLocal (f : Bytes → Bytes) : Prop :=
  ∀ part more : Bytes, f (part ++ more) <+: part → f part = f (part ++ more)

theorem isFigure_of_isDigit {b : UInt8} (h : isDigit b = true) : isFigure b = true := by
  unfold isFigure
  rw [h, Bool.true_or]

section

variable {part more : Bytes} {b : UInt8}

theorem head?_of_prefix_cons {text : Bytes} (h : b :: text <+: part) : part.head? = some b := by
  obtain ⟨rest, rfl⟩ := h
  rfl

theorem head?_append_of_head? (h : part.head? = some b) : (part ++ more).head? = some b := by
  obtain ⟨rest, rfl⟩ := eq_cons_of_head? h
  rfl

theorem any_append_of_any {p : UInt8 → Bool} (h : part.head?.any p = true) :
    (part ++ more).head?.any p = true := by
  cases part with
  | nil => cases h
  | cons b part => exact h

end

namespace IsLocal

variable {f g : Bytes → Bytes}

theorem takeWhile (p : UInt8 → Bool) : IsLocal (List.takeWhile p) := by
  intro part more h
  rw [List.takeWhile_append] at h ⊢
  split
  · rename_i hp
    rw [if_pos hp] at h
    have hl := h.length_le
    rw [List.length_append] at hl
    have hm : more.takeWhile p = [] := List.eq_nil_of_length_eq_zero (by omega)
    rw [hm, List.append_nil]
    exact (List.takeWhile_prefix p).eq_of_length hp
  · rfl

/-- One part of a lexeme behind another. -/
theorem append (hf : IsLocal f) (hg : IsLocal g) :
    IsLocal fun text => f text ++ g (text.drop (f text).length) := by
  intro part more h
  dsimp only at h ⊢
  have hfront := (List.prefix_append _ _).trans h
  rw [hf part more hfront]
  generalize f (part ++ more) = front at h hfront ⊢
  have hdrop : (part ++ more).drop front.length = part.drop front.length ++ more :=
    List.drop_append_of_le_length hfront.length_le
  rw [hdrop] at h ⊢
  obtain ⟨behind, rfl⟩ := hfront
  rw [List.drop_left] at h ⊢
  rw [hg behind more ((List.prefix_append_right_inj front).1 h)]

theorem fraction : IsLocal fraction := by
  intro part more h
  cases part with
  | nil => exact (List.prefix_nil.1 h).symm
  | cons b part =>
    rw [List.cons_append] at h ⊢
    unfold Lexeme.fraction at h ⊢
    dsimp only at h ⊢
    split
    · rename_i hb
      rw [if_pos hb] at h
      rw [takeWhile _ part more (List.cons_prefix_cons.1 h).2]
    · rfl

theorem exponent : IsLocal exponent := by
  intro part more h
  match part with
  | [] => exact (List.prefix_nil.1 h).symm
  | [e] =>
    -- An exponent has two bytes at least.
    have hn (text : Bytes) : Lexeme.exponent text = [] ∨ 2 ≤ (Lexeme.exponent text).length := by
      unfold Lexeme.exponent
      split
      · split
        · rename_i hd
          have hfigure := isFigure_of_isDigit hd.2
          simp [hfigure]
        · split <;> simp
      · exact .inl rfl
    rcases hn ([e] ++ more) with he | hl
    · rw [he]
      rfl
    · have := hl.trans h.length_le
      exact absurd this (by simp)
  | e :: d :: part =>
    rw [List.cons_append, List.cons_append] at h ⊢
    unfold Lexeme.exponent at h ⊢
    dsimp only at h ⊢
    by_cases hd : isExponent e = true ∧ isDigit d = true
    · rw [if_pos hd] at h ⊢
      rw [if_pos hd, takeWhile _ (d :: part) more (List.cons_prefix_cons.1 h).2]
      rfl
    rw [if_neg hd] at h ⊢
    rw [if_neg hd]
    by_cases hs : isExponent e = true ∧ isSign d = true ∧ (part ++ more).head?.any isDigit = true
    · rw [if_pos hs] at h ⊢
      have htail := (List.cons_prefix_cons.1 (List.cons_prefix_cons.1 h).2).2
      rw [if_pos, takeWhile _ part more htail]
      refine ⟨hs.1, hs.2.1, ?_⟩
      cases part with
      | nil =>
        have hb := hs.2.2
        cases more with
        | nil => cases hb
        | cons b more =>
          rw [List.nil_append, List.takeWhile_cons_of_pos (isFigure_of_isDigit hb)] at htail
          exact absurd (List.prefix_nil.1 htail) (List.cons_ne_nil _ _)
      | cons b part => exact hs.2.2
    · rw [if_neg hs, if_neg]
      rintro ⟨he, hsign, hdigit⟩
      exact hs ⟨he, hsign, any_append_of_any hdigit⟩

theorem unit : IsLocal fun text => (text.take 1).takeWhile isImaginary := by
  intro part more h
  cases part with
  | nil => exact (List.prefix_nil.1 h).symm
  | cons b part => rfl

theorem decimalNumber : IsLocal decimalNumber :=
  (((takeWhile isFigure).append fraction).append exponent).append unit

theorem number : IsLocal number := by
  intro part more h
  match part with
  | [] => exact (List.prefix_nil.1 h).symm
  | [zero] =>
    cases more with
    | nil => rfl
    | cons radix rest =>
      rw [List.singleton_append] at h ⊢
      unfold Lexeme.number at h ⊢
      dsimp only at h ⊢
      by_cases hr : zero = 0x30 ∧ isRadix radix = true
      · rw [if_pos hr] at h
        exact absurd h.length_le (by simp)
      · rw [if_neg hr] at h ⊢
        exact decimalNumber [zero] _ h
  | zero :: radix :: part =>
    rw [List.cons_append, List.cons_append] at h ⊢
    unfold Lexeme.number at h ⊢
    dsimp only at h ⊢
    split
    · rename_i hr
      rw [if_pos hr] at h
      rw [takeWhile _ part more (List.cons_prefix_cons.1 (List.cons_prefix_cons.1 h).2).2]
    · rename_i hr
      rw [if_neg hr] at h
      exact decimalNumber (zero :: radix :: part) more h

end IsLocal

variable {part more : Bytes} {b quote : UInt8}

theorem plainBody_of_ne {rest : Bytes} (hb : b ≠ backslash) (hl : b ≠ lineFeed) (hq : b ≠ quote) :
    plainBody quote (b :: rest) = (plainBody quote rest).prepend [b] := by
  rw [plainBody.eq_def]
  dsimp only
  rw [if_neg hb, if_neg hl, if_neg hq]

theorem tripleBody_of_ne {rest : Bytes} (hb : b ≠ backslash)
    (hq : ¬(b = quote ∧ startsWith [quote, quote] rest = true)) :
    tripleBody quote (b :: rest) = (tripleBody quote rest).prepend [b] := by
  rw [tripleBody.eq_def]
  dsimp only
  rw [if_neg hb, if_neg hq]

theorem plainBody_cut (h : (plainBody quote (part ++ more)).text <+: part) :
    plainBody quote part = plainBody quote (part ++ more) := by
  -- Only a line feed adds nothing to the body.
  have hcons (b : UInt8) (rest : Bytes) (hb : b ≠ lineFeed) :
      (plainBody quote (b :: rest)).text ≠ [] := by
    rw [plainBody.eq_def]
    dsimp only
    repeat' split
    all_goals simp_all [Body.prepend]
  fun_induction plainBody quote part with
  | case1 =>
    cases more with
    | nil => rw [List.append_nil, plainBody]
    | cons b more =>
      by_cases hb : b = lineFeed
      · subst hb
        rw [List.nil_append, plainBody.eq_def]
        rfl
      · exact absurd (List.prefix_nil.1 h) (hcons b more hb)
  | case2 =>
    cases more with
    | nil => rfl
    | cons c more =>
      rw [List.singleton_append, plainBody, if_pos rfl] at h
      exact absurd h.length_le (by simp [Body.prepend])
  | case3 c escaped ih =>
    rw [List.cons_append, List.cons_append, plainBody, if_pos rfl] at h ⊢
    rw [ih ((List.prefix_append_right_inj [backslash, c]).1 h)]
  | case4 =>
    rw [List.cons_append, plainBody.eq_def]
    rfl
  | case5 rest hb hl =>
    rw [List.cons_append, plainBody.eq_def]
    dsimp only
    rw [if_neg hb, if_neg hl, if_pos rfl]
  | case6 b rest hb hl hq ih =>
    rw [List.cons_append, plainBody_of_ne hb hl hq] at h ⊢
    rw [ih ((List.prefix_append_right_inj [b]).1 h)]

theorem tripleBody_cut (h : (tripleBody quote (part ++ more)).text <+: part) :
    tripleBody quote part = tripleBody quote (part ++ more) := by
  have hcons (b : UInt8) (rest : Bytes) : (tripleBody quote (b :: rest)).text ≠ [] := by
    rw [tripleBody.eq_def]
    dsimp only
    repeat' split
    all_goals simp_all [Body.prepend]
  fun_induction tripleBody quote part with
  | case1 =>
    cases more with
    | nil => rw [List.append_nil, tripleBody]
    | cons b more => exact absurd (List.prefix_nil.1 h) (hcons b more)
  | case2 =>
    cases more with
    | nil => rfl
    | cons c more =>
      rw [List.singleton_append, tripleBody, if_pos rfl] at h
      exact absurd h.length_le (by simp [Body.prepend])
  | case3 c escaped ih =>
    rw [List.cons_append, List.cons_append, tripleBody, if_pos rfl] at h ⊢
    rw [ih ((List.prefix_append_right_inj [backslash, c]).1 h)]
  | case4 b rest hb hq =>
    rw [List.cons_append, tripleBody.eq_def]
    dsimp only
    rw [if_neg hb, if_pos ⟨hq.1, startsWith_append hq.2 more⟩]
  | case5 b rest hb hq ih =>
    rw [List.cons_append] at h ⊢
    by_cases hn : b = quote ∧ startsWith [quote, quote] (rest ++ more) = true
    · -- The closing quotes are in the text, so they are in the part.
      rw [tripleBody.eq_def] at h
      dsimp only at h
      rw [if_neg hb, if_pos hn] at h
      obtain ⟨behind, hr⟩ := (List.cons_prefix_cons.1 h).2
      refine absurd ⟨hn.1, ?_⟩ hq
      rw [← hr]
      exact congrArg Option.isSome (afterWord?_self [quote, quote] behind)
    · rw [tripleBody_of_ne hb hn] at h ⊢
      rw [ih ((List.prefix_append_right_inj [b]).1 h)]

theorem literalBody_cut (h : (literalBody quote (part ++ more)).text <+: quote :: part) :
    literalBody quote part = literalBody quote (part ++ more) := by
  unfold literalBody at h ⊢
  cases ht : afterWord? [quote, quote] (part ++ more) with
  | some body =>
    rw [ht] at h
    obtain ⟨behind, hr⟩ := (List.cons_prefix_cons.1 h).2
    have hpart : part = [quote, quote] ++ ((tripleBody quote body).text ++ behind) := hr.symm
    have hbody : body = ((tripleBody quote body).text ++ behind) ++ more := by
      have he := eq_append_of_afterWord? ht
      rw [hpart, List.append_assoc] at he
      exact (List.append_cancel_left he).symm
    have hclosed : tripleBody quote ((tripleBody quote body).text ++ behind) =
        tripleBody quote body := by
      conv_rhs => rw [hbody]
      refine tripleBody_cut ?_
      rw [← hbody]
      exact List.prefix_append _ _
    rw [hpart, afterWord?_self]
    dsimp only
    rw [hclosed]
  | none =>
    rw [ht] at h
    have hn : afterWord? [quote, quote] part = none := by
      by_contra hs
      obtain ⟨rest, hr⟩ := Option.ne_none_iff_exists'.1 hs
      rw [afterWord?_append hr] at ht
      cases ht
    rw [hn]
    dsimp only
    rw [plainBody_cut (List.cons_prefix_cons.1 h).2]

theorem ofLiteral_cut {mark : Bytes}
    (h : (ofLiteral mark quote (part ++ more)).text <+: mark ++ quote :: part) :
    ofLiteral mark quote part = ofLiteral mark quote (part ++ more) := by
  unfold ofLiteral
  rw [literalBody_cut ((List.prefix_append_right_inj mark).1 h)]

theorem unlessAssigned_cut {kind : TokenKind} {mark : Bytes}
    (h : (unlessAssigned kind mark (part ++ more)).text <+: mark ++ part) :
    unlessAssigned kind mark part = unlessAssigned kind mark (part ++ more) := by
  unfold unlessAssigned at h ⊢
  by_cases he : (part ++ more).head? = some equals
  · rw [if_pos he] at h ⊢
    rw [if_pos (head?_of_prefix_cons ((List.prefix_append_right_inj mark).1 h))]
  · rw [if_neg he, if_neg fun hp => he (head?_append_of_head? hp)]

theorem prefix_unlessAssigned (kind : TokenKind) (mark rest : Bytes) :
    mark <+: (unlessAssigned kind mark rest).text := by
  unfold unlessAssigned
  split
  · exact List.prefix_append mark [equals]
  · exact List.prefix_rfl

/-- A mark that may stand twice. -/
theorem twice_cut {kind kind' : TokenKind}
    (h : (if (part ++ more).head? = some b then
      unlessAssigned kind [b, b] ((part ++ more).drop 1)
      else unlessAssigned kind' [b] (part ++ more)).text <+: b :: part) :
    (if part.head? = some b then unlessAssigned kind [b, b] (part.drop 1)
      else unlessAssigned kind' [b] part) =
    if (part ++ more).head? = some b then unlessAssigned kind [b, b] ((part ++ more).drop 1)
      else unlessAssigned kind' [b] (part ++ more) := by
  by_cases hd : (part ++ more).head? = some b
  · -- Both marks are in the text, so the second one is in the part.
    rw [if_pos hd] at h ⊢
    have hmarks : [b, b] <+: b :: part := (prefix_unlessAssigned kind [b, b] _).trans h
    have hb := head?_of_prefix_cons (List.cons_prefix_cons.1 hmarks).2
    obtain ⟨rest, rfl⟩ := eq_cons_of_head? hb
    rw [if_pos hb]
    exact unlessAssigned_cut h
  · rw [if_neg hd] at h ⊢
    rw [if_neg fun hp => hd (head?_append_of_head? hp)]
    exact unlessAssigned_cut h

theorem punctuation_cut (h : (punctuation b (part ++ more)).text <+: b :: part) :
    punctuation b part = punctuation b (part ++ more) := by
  -- One case a branch, as they stand in the definition.
  unfold punctuation at h ⊢
  cases hmark : TokenKind.marks.lookup b with
  | some kind => rfl
  | none => ?_
  rw [hmark] at h
  dsimp only at h ⊢
  split
  · rename_i hb
    rw [if_pos hb] at h
    exact unlessAssigned_cut h
  rename_i hat
  rw [if_neg hat] at h
  split
  · rename_i hb
    rw [if_pos hb] at h
    exact unlessAssigned_cut h
  rename_i hcolon
  rw [if_neg hcolon] at h
  split
  · rename_i hb
    rw [if_pos hb] at h
    exact unlessAssigned_cut h
  rename_i hequals
  rw [if_neg hequals] at h
  split
  · rename_i hb
    rw [if_pos hb] at h
    exact twice_cut h
  rename_i hasterisk
  rw [if_neg hasterisk] at h
  by_cases ha : b = 0x2D ∧ (part ++ more).head? = some 0x3E
  · rw [if_pos ha] at h ⊢
    rw [if_pos ⟨ha.1, head?_of_prefix_cons (List.cons_prefix_cons.1 h).2⟩]
  rw [if_neg ha] at h ⊢
  rw [if_neg fun hp => ha ⟨hp.1, head?_append_of_head? hp.2⟩]
  split
  · rename_i hb
    rw [if_pos hb] at h
    by_cases ho : (operators.take 3).contains b = true
    · simp only [ho, true_and] at h ⊢
      exact twice_cut h
    · rw [if_neg fun hp => ho hp.1] at h ⊢
      rw [if_neg fun hp => ho hp.1]
      exact unlessAssigned_cut h
  · rfl

theorem read_word_cut (hw : startsWord b = true) (h : (read b (part ++ more)).text <+: b :: part) :
    read b part = read b (part ++ more) := by
  have hword : b :: (part ++ more).takeWhile isWordByte <+: (read b (part ++ more)).text := by
    by_cases hn : ∀ quote ∈ ((part ++ more).dropWhile isWordByte).head?,
        ¬(Literal.isQuote quote = true ∧
          isStringMark (b :: (part ++ more).takeWhile isWordByte) = true)
    · have ht := congrArg Lexeme.text (read_unmarked hw hn)
      exact ⟨[], (List.append_nil _).trans ht.symm⟩
    · push Not at hn
      obtain ⟨quote, hm, hq⟩ := hn
      obtain ⟨after, hd⟩ := eq_cons_of_head? (Option.mem_def.1 hm)
      rw [read_marked hw hd hq]
      exact List.prefix_append _ _
  have htake := IsLocal.takeWhile isWordByte part more (List.cons_prefix_cons.1 (hword.trans h)).2
  have hdrop : (part ++ more).dropWhile isWordByte = part.dropWhile isWordByte ++ more := by
    have hfront := @List.takeWhile_append_dropWhile _ isWordByte (part ++ more)
    rw [← htake] at hfront
    refine List.append_cancel_left (hfront.trans ?_)
    rw [← List.append_assoc, List.takeWhile_append_dropWhile]
  by_cases hn : ∀ quote ∈ ((part ++ more).dropWhile isWordByte).head?,
      ¬(Literal.isQuote quote = true ∧
        isStringMark (b :: (part ++ more).takeWhile isWordByte) = true)
  · rw [read_unmarked hw hn, read_unmarked hw, htake]
    intro quote hm
    rw [htake]
    exact hn quote (hdrop ▸ head?_append_of_head? hm)
  · push Not at hn
    obtain ⟨quote, hm, hq⟩ := hn
    obtain ⟨after, hd⟩ := eq_cons_of_head? (Option.mem_def.1 hm)
    rw [read_marked hw hd hq, ← htake] at h ⊢
    -- The text of the literal goes on behind its mark with the quote, so the part does.
    have hpart : b :: part = (b :: part.takeWhile isWordByte) ++ part.dropWhile isWordByte := by
      rw [List.cons_append, List.takeWhile_append_dropWhile]
    have hquote : ∃ body, (literalBody quote after).text = quote :: body := by
      unfold literalBody
      split <;> exact ⟨_, rfl⟩
    obtain ⟨body, hb⟩ := hquote
    rw [hpart] at h
    have hbehind : quote :: body <+: part.dropWhile isWordByte := by
      rw [← hb]
      exact (List.prefix_append_right_inj _).1 h
    obtain ⟨rest, hr⟩ := hbehind
    rw [hdrop, ← hr] at hd
    obtain rfl : after = body ++ rest ++ more := (List.cons.inj hd).2.symm
    rw [read_marked hw hr.symm (htake.symm ▸ hq)]
    rw [← hr] at h
    exact ofLiteral_cut h

theorem read_backslash_cut (h : (read backslash (part ++ more)).text <+: backslash :: part) :
    read backslash part = read backslash (part ++ more) := by
  by_cases hl : (part ++ more).head? = some lineFeed
  · obtain ⟨rest, hr⟩ := eq_cons_of_head? hl
    rw [hr] at h ⊢
    obtain ⟨behind, rfl⟩ := (List.cons_prefix_cons.1 h).2
    rfl
  by_cases hj : startsWith [carriageReturn, lineFeed] (part ++ more) = true
  · obtain ⟨rest, hr⟩ := Option.isSome_iff_exists.1 hj
    rw [eq_append_of_afterWord? hr] at h ⊢
    obtain ⟨behind, rfl⟩ := (List.cons_prefix_cons.1 h).2
    rfl
  rw [read_backslash hl hj, read_backslash fun hp => hl (head?_append_of_head? hp)]
  exact fun hp => hj (startsWith_append hp more)

theorem read_comment (text : Bytes) :
    read hash text = ⟨.filler, hash :: text.takeWhile (· != lineFeed)⟩ := rfl

/-- A point that starts a number is not read without the digit behind it. -/
theorem startsNumber_cut (h : number (b :: (part ++ more)) <+: b :: part)
    (hd : isDigit b = true ∨ b = dot ∧ (part ++ more).head?.any isDigit = true) :
    isDigit b = true ∨ b = dot ∧ part.head?.any isDigit = true := by
  refine hd.imp_right fun hp => ⟨hp.1, ?_⟩
  obtain ⟨rfl, hdigit⟩ := hp
  cases part with
  | cons c part => exact hdigit
  | nil =>
    cases more with
    | nil => cases hdigit
    | cons c more =>
      have hradix : ¬(dot = 0x30 ∧ isRadix c = true) := fun hz => absurd hz.1 (by decide)
      have hwhole : (dot :: c :: more).takeWhile isFigure = [] := rfl
      rw [List.nil_append, number, if_neg hradix, decimalNumber, hwhole] at h
      refine absurd h.length_le ?_
      simp [fraction, isFigure_of_isDigit hdigit]

/-- A lexeme is read from each part of a text that holds it. -/
theorem read_cut (h : (read b (part ++ more)).text <+: b :: part) :
    read b part = read b (part ++ more) := by
  -- In the order in which the first byte is judged.
  by_cases hw : startsWord b = true
  · exact read_word_cut hw h
  by_cases hb : b = backslash
  · subst hb
    exact read_backslash_cut h
  by_cases hh : b = hash
  · subst hh
    rw [read_comment] at h
    rw [read_comment, read_comment, IsLocal.takeWhile _ part more (List.cons_prefix_cons.1 h).2]
  have hread := read_of_ne hb hh hw
  rw [hread] at h
  rw [hread, hread]
  split
  · rfl
  rename_i hf
  rw [if_neg hf] at h
  split
  · rfl
  rename_i hl
  rw [if_neg hl] at h
  by_cases hd : isDigit b = true ∨ b = dot ∧ (part ++ more).head?.any isDigit = true
  · rw [if_pos hd] at h ⊢
    have hnumber := IsLocal.number (b :: part) more h
    rw [if_pos (startsNumber_cut h hd), hnumber]
    rfl
  rw [if_neg hd] at h ⊢
  rw [if_neg fun hp => hd (hp.imp_right (And.imp_right any_append_of_any))]
  split
  · rename_i hq
    rw [if_pos hq] at h
    exact ofLiteral_cut h
  · rename_i hq
    rw [if_neg hq] at h
    exact punctuation_cut h

end ManifestScan.Lexeme
