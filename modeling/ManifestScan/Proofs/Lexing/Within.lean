import ManifestScan.Proofs.Lexing.Cut

/-! What is read within a line does not depend on the lines behind it. -/

namespace ManifestScan.Lexeme

variable {b quote : UInt8}

/-- A literal of three quotes without an end has the whole text. -/
theorem tripleBody_open {text : Bytes} (h : (tripleBody quote text).closed = false) :
    (tripleBody quote text).text = text := by
  fun_induction tripleBody quote text with
  | case1 => rfl
  | case2 => rfl
  | case3 c escaped ih => exact congrArg ([backslash, c] ++ ·) (ih h)
  | case4 => cases h
  | case5 b rest hb hq ih => exact congrArg ([b] ++ ·) (ih h)

variable {line rest : Bytes} (rest' : Bytes)

theorem endsLexeme_lineFeed (rest : Bytes) : EndsLexeme (lineFeed :: rest) :=
  (IsBoundary.cons (by decide) rest).endsLexeme

theorem head?_line (h : line ≠ []) : (line ++ lineFeed :: rest).head? = line.head? := by
  obtain ⟨b, more, rfl⟩ := List.exists_cons_of_ne_nil h
  rfl

theorem takeWhile_line (line rest : Bytes) :
    (line ++ lineFeed :: rest).takeWhile (· != lineFeed) = line.takeWhile (· != lineFeed) := by
  rw [List.takeWhile_append]
  split
  · rename_i hl
    rw [List.takeWhile_cons_of_neg (by simp), List.append_nil]
    exact ((List.takeWhile_prefix _).eq_of_length hl).symm
  · rfl

/-- Two bytes are in the line unless the second is its end. -/
theorem startsWith_line {a b : UInt8} (ha : a ≠ lineFeed) (hl : [a, b] ≠ line ++ [lineFeed])
    (h : startsWith [a, b] (line ++ lineFeed :: rest) = true) : startsWith [a, b] line = true := by
  match line with
  | [] => simp [startsWith, afterWord?, ha.symm] at h
  | [c] =>
    rw [List.singleton_append, Literal.startsWith_pair, Bool.and_eq_true, beq_iff_eq,
      beq_iff_eq] at h
    exact absurd (by rw [h.1, h.2]; rfl) hl
  | c :: d :: line =>
    rwa [List.cons_append, List.cons_append, Literal.startsWith_pair,
      ← Literal.startsWith_pair a b c d line] at h

theorem startsWith_quotes_line (hq : quote ≠ lineFeed)
    (h : startsWith [quote, quote] (line ++ lineFeed :: rest) = true) :
    startsWith [quote, quote] line = true := by
  refine startsWith_line hq (fun he => hq ?_) h
  have hlast := congrArg List.getLast? he
  rw [List.getLast?_concat] at hlast
  exact Option.some.inj hlast

theorem plainBody_line (h : (plainBody quote (line ++ lineFeed :: rest)).text <+: line) :
    plainBody quote (line ++ lineFeed :: rest') = plainBody quote (line ++ lineFeed :: rest) := by
  fun_induction plainBody quote line with
  | case1 =>
    rw [List.nil_append, plainBody.eq_def, List.nil_append, plainBody.eq_def]
    rfl
  | case2 =>
    rw [List.singleton_append, plainBody, if_pos rfl] at h
    exact absurd h.length_le (by simp [Body.prepend])
  | case3 c escaped ih =>
    rw [List.cons_append, List.cons_append, plainBody, if_pos rfl] at h
    rw [List.cons_append, List.cons_append, plainBody, if_pos rfl, List.cons_append,
      List.cons_append, plainBody, if_pos rfl,
      ih ((List.prefix_append_right_inj [backslash, c]).1 h)]
  | case4 =>
    rw [List.cons_append, plainBody.eq_def, List.cons_append, plainBody.eq_def]
    rfl
  | case5 more hb hl =>
    rw [List.cons_append, plainBody.eq_def, List.cons_append, plainBody.eq_def]
    dsimp only
    rw [if_neg hb, if_neg hl, if_pos rfl, if_neg hb, if_neg hl, if_pos rfl]
  | case6 b more hb hl hq ih =>
    rw [List.cons_append, plainBody_of_ne hb hl hq] at h
    rw [List.cons_append, plainBody_of_ne hb hl hq, List.cons_append, plainBody_of_ne hb hl hq,
      ih ((List.prefix_append_right_inj [b]).1 h)]

theorem tripleBody_line (h : (tripleBody quote (line ++ lineFeed :: rest)).text <+: line) :
    tripleBody quote (line ++ lineFeed :: rest') = tripleBody quote (line ++ lineFeed :: rest) := by
  have hcut := tripleBody_cut h
  by_cases hc : (tripleBody quote line).closed = true
  · rw [tripleBody_append hc, hcut]
  · rw [hcut, Bool.not_eq_true] at hc
    rw [tripleBody_open hc] at h
    exact absurd h.length_le (by simp)

theorem ofLiteral_line {mark : Bytes} (hq : Literal.isQuote quote = true)
    (h : (ofLiteral mark quote (line ++ lineFeed :: rest)).text <+: mark ++ quote :: line) :
    ofLiteral mark quote (line ++ lineFeed :: rest') =
      ofLiteral mark quote (line ++ lineFeed :: rest) := by
  have hline : quote ≠ lineFeed := by
    rintro rfl
    cases hq
  have hbody := (List.prefix_append_right_inj mark).1 h
  suffices literalBody quote (line ++ lineFeed :: rest') =
      literalBody quote (line ++ lineFeed :: rest) by
    unfold ofLiteral
    rw [this]
  have hthree {text : Bytes} (ht : startsWith [quote, quote] (line ++ lineFeed :: text) = true) :
      ∃ more, line = [quote, quote] ++ more := by
    obtain ⟨more, hm⟩ := Option.isSome_iff_exists.1 (startsWith_quotes_line hline ht)
    exact ⟨more, eq_append_of_afterWord? hm⟩
  unfold literalBody at hbody ⊢
  cases ht : afterWord? [quote, quote] (line ++ lineFeed :: rest) with
  | some body =>
    obtain ⟨more, rfl⟩ := hthree (Option.isSome_iff_exists.2 ⟨body, ht⟩)
    rw [ht] at hbody
    rw [List.append_assoc, afterWord?_self] at ht ⊢
    cases ht
    dsimp only at hbody ⊢
    rw [tripleBody_line rest' ((List.prefix_append_right_inj [quote, quote, quote]).1 hbody)]
  | none =>
    rw [ht] at hbody
    have hn : afterWord? [quote, quote] (line ++ lineFeed :: rest') = none := by
      by_contra hs
      obtain ⟨more, rfl⟩ := hthree (Option.isSome_iff_ne_none.2 hs)
      rw [List.append_assoc, afterWord?_self] at ht
      cases ht
    rw [hn]
    dsimp only
    rw [plainBody_line rest' (List.cons_prefix_cons.1 hbody).2]

theorem read_word_line (hw : startsWord b = true)
    (h : (read b (line ++ lineFeed :: rest)).text <+: b :: line) :
    read b (line ++ lineFeed :: rest') = read b (line ++ lineFeed :: rest) := by
  have htake (rest : Bytes) : (line ++ lineFeed :: rest).takeWhile isWordByte =
      line.takeWhile isWordByte := (endsLexeme_lineFeed rest).takeWhile_append (by decide) line
  have hdrop (rest : Bytes) : (line ++ lineFeed :: rest).dropWhile isWordByte =
      line.dropWhile isWordByte ++ lineFeed :: rest :=
    (endsLexeme_lineFeed rest).dropWhile_append (by decide) line
  by_cases hm : ∃ quote after, line.dropWhile isWordByte = quote :: after ∧
      Literal.isQuote quote = true ∧ isStringMark (b :: line.takeWhile isWordByte) = true
  · obtain ⟨quote, after, hd, hq⟩ := hm
    have hread (rest : Bytes) : read b (line ++ lineFeed :: rest) =
        ofLiteral (b :: line.takeWhile isWordByte) quote (after ++ lineFeed :: rest) := by
      have hbehind := hdrop rest
      rw [hd, List.cons_append] at hbehind
      rw [read_marked hw hbehind ((htake rest).symm ▸ hq), htake]
    have hline : b :: line = (b :: line.takeWhile isWordByte) ++ quote :: after := by
      rw [← hd, List.cons_append, List.takeWhile_append_dropWhile]
    rw [hread, hline] at h
    rw [hread, hread, ofLiteral_line rest' hq.1 h]
  · have hread (rest : Bytes) : read b (line ++ lineFeed :: rest) =
        ⟨.token (TokenKind.ofWord (b :: line.takeWhile isWordByte)),
          b :: line.takeWhile isWordByte⟩ := by
      rw [read_unmarked hw, htake]
      intro quote hh hq
      rw [hdrop] at hh
      rw [htake] at hq
      cases hd : line.dropWhile isWordByte with
      | nil =>
        rw [hd] at hh
        cases hh
        cases hq.1
      | cons first after =>
        rw [hd] at hh
        cases hh
        exact hm ⟨quote, after, hd, hq⟩
    rw [hread, hread]

theorem read_backslash_line
    (h : (read backslash (line ++ lineFeed :: rest)).text <+: backslash :: line) :
    read backslash (line ++ lineFeed :: rest') = read backslash (line ++ lineFeed :: rest) := by
  have hn : line ≠ [] := by
    rintro rfl
    have hle : 2 ≤ 1 := h.length_le
    omega
  have hr : line ≠ [carriageReturn] := by
    rintro rfl
    have hle : 3 ≤ 2 := h.length_le
    omega
  have hjoin {text : Bytes}
      (hj : startsWith [carriageReturn, lineFeed] (line ++ lineFeed :: text) = true) :
      startsWith [carriageReturn, lineFeed] line = true := by
    refine startsWith_line (by decide) (fun he => hr ?_) hj
    exact (List.append_cancel_right (he : [carriageReturn] ++ [lineFeed] = _)).symm
  by_cases hl : line.head? = some lineFeed
  · obtain ⟨more, rfl⟩ := eq_cons_of_head? hl
    rfl
  by_cases hj : startsWith [carriageReturn, lineFeed] line = true
  · obtain ⟨more, hm⟩ := Option.isSome_iff_exists.1 hj
    rw [eq_append_of_afterWord? hm]
    rfl
  · rw [read_backslash (head?_line hn ▸ hl) (mt hjoin hj),
      read_backslash (head?_line hn ▸ hl) (mt hjoin hj)]

/-- A lexeme within a line is read whatever stands behind the line. -/
theorem read_line (h : (read b (line ++ lineFeed :: rest)).text <+: b :: line) :
    read b (line ++ lineFeed :: rest') = read b (line ++ lineFeed :: rest) := by
  by_cases hw : startsWord b = true
  · exact read_word_line rest' hw h
  by_cases hb : b = backslash
  · subst hb
    exact read_backslash_line rest' h
  by_cases hh : b = hash
  · subst hh
    rw [read_comment, read_comment, takeWhile_line, takeWhile_line]
  have hany (rest : Bytes) := (endsLexeme_lineFeed rest).any_append (p := isDigit) (by decide) line
  have hnumber (rest : Bytes) : number (b :: (line ++ lineFeed :: rest)) = number (b :: line) :=
    number_append (endsLexeme_lineFeed rest) b line
  have hmark (rest : Bytes) := punctuation_append (endsLexeme_lineFeed rest) b line
  have hread := read_of_ne hb hh hw
  rw [hread] at h
  rw [hread, hread, hany, hany, hnumber, hnumber, hmark, hmark]
  rw [hany, hnumber, hmark] at h
  split
  · rfl
  rename_i hf
  rw [if_neg hf] at h
  split
  · rfl
  rename_i hl
  rw [if_neg hl] at h
  split
  · rfl
  rename_i hd
  rw [if_neg hd] at h
  split
  · rename_i hq
    rw [if_pos hq] at h
    exact ofLiteral_line rest' hq h
  · rfl

end ManifestScan.Lexeme
