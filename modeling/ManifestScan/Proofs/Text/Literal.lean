import ManifestScan.Text.Literal

namespace ManifestScan

theorem afterWord?_append {word text rest : Bytes} (h : afterWord? word text = some rest)
    (more : Bytes) : afterWord? word (text ++ more) = some (rest ++ more) := by
  fun_induction afterWord? word text with
  | case1 => cases h; simp [afterWord?]
  | case2 => cases h
  | case3 w word text ih => rw [List.cons_append, afterWord?, if_pos rfl, ih h]
  | case4 => cases h

theorem afterWord?_self (word rest : Bytes) : afterWord? word (word ++ rest) = some rest := by
  induction word with
  | nil => rfl
  | cons w word ih => rw [List.cons_append, afterWord?, if_pos rfl, ih]

theorem startsWith_append {word text : Bytes} (h : startsWith word text = true) (more : Bytes) :
    startsWith word (text ++ more) = true := by
  obtain ⟨rest, hr⟩ := Option.isSome_iff_exists.1 h
  rw [startsWith, afterWord?_append hr]
  rfl

theorem occursIn_of_isInfix {word text : Bytes} (h : word <:+: text) :
    occursIn word text = true := by
  obtain ⟨front, behind, rfl⟩ := h
  induction front with
  | nil =>
    rw [List.nil_append]
    cases hw : word ++ behind with
    | nil => rw [occursIn, (List.append_eq_nil_iff.1 hw).1, List.isEmpty_nil]
    | cons b rest =>
      rw [occursIn, ← hw, startsWith, afterWord?_self, Option.isSome_some, Bool.true_or]
  | cons b front ih => rw [List.cons_append, List.cons_append, occursIn, ih, Bool.or_true]

namespace Literal

variable {quote : UInt8}

theorem afterPlain?_append {text after : Bytes} (h : afterPlain? quote text = some after)
    (more : Bytes) : afterPlain? quote (text ++ more) = some (after ++ more) := by
  fun_induction afterPlain? quote text with
  | case1 => cases h
  | case2 => cases h
  | case3 c escaped ih =>
    rw [List.cons_append, List.cons_append, afterPlain?, if_pos rfl]
    exact ih h
  | case4 rest hb =>
    cases h
    rw [List.cons_append, afterPlain?.eq_def]
    dsimp only
    rw [if_neg hb, if_pos rfl]
  | case5 => cases h
  | case6 b rest hb hq hl ih =>
    rw [List.cons_append, afterPlain?.eq_def]
    dsimp only
    rw [if_neg hb, if_neg hq, if_neg hl]
    exact ih h

/-- Nothing closes with less than three bytes. -/
theorem afterTriple?_short {b : UInt8} : afterTriple? quote [b] = none := by
  unfold afterTriple?
  split
  · rfl
  · split
    · rename_i h
      cases h.2
    · rfl

theorem startsWith_pair (a b c d : UInt8) (text : Bytes) :
    startsWith [a, b] (c :: d :: text) = (c == a && d == b) := by
  by_cases hc : c = a
  · by_cases hd : d = b
    · simp [startsWith, afterWord?, hc, hd]
    · simp [startsWith, afterWord?, hc, hd]
  · simp [startsWith, afterWord?, hc]

theorem afterTriple?_append {text after : Bytes} (h : afterTriple? quote text = some after)
    (more : Bytes) : afterTriple? quote (text ++ more) = some (after ++ more) := by
  fun_induction afterTriple? quote text with
  | case1 => cases h
  | case2 => cases h
  | case3 c escaped ih =>
    rw [List.cons_append, List.cons_append, afterTriple?, if_pos rfl]
    exact ih h
  | case4 b rest hb hq =>
    obtain ⟨behind, ht⟩ := Option.isSome_iff_exists.1 hq.2
    have hr := eq_append_of_afterWord? ht
    cases h
    rw [List.cons_append, afterTriple?.eq_def]
    dsimp only
    rw [if_neg hb, if_pos ⟨hq.1, startsWith_append hq.2 more⟩, hr]
    rfl
  | case5 b rest hb hq ih =>
    have hs := ih h
    rw [List.cons_append, afterTriple?.eq_def]
    dsimp only
    rw [if_neg hb]
    -- A scan that goes on has two bytes more, so the text behind decides nothing here.
    rw [if_neg fun hn => hq ⟨hn.1, ?_⟩]
    · exact hs
    · cases rest with
      | nil => cases h
      | cons c rest =>
        cases rest with
        | nil =>
          rw [afterTriple?_short] at h
          cases h
        | cons d rest =>
          have := hn.2
          rw [List.cons_append, List.cons_append, startsWith_pair] at this
          rwa [startsWith_pair]

theorem afterPlain?_lt {text after : Bytes} (h : afterPlain? quote text = some after) :
    after.length < text.length := by
  fun_induction afterPlain? quote text with
  | case1 => cases h
  | case2 => cases h
  | case3 c escaped ih => exact Nat.lt_succ_of_lt (Nat.lt_succ_of_lt (ih h))
  | case4 => cases h; exact Nat.lt_succ_self _
  | case5 => cases h
  | case6 b rest _ _ _ ih => exact Nat.lt_succ_of_lt (ih h)

theorem afterTriple?_lt {text after : Bytes} (h : afterTriple? quote text = some after) :
    after.length + 2 < text.length := by
  fun_induction afterTriple? quote text with
  | case1 => cases h
  | case2 => cases h
  | case3 c escaped ih => exact Nat.lt_succ_of_lt (Nat.lt_succ_of_lt (ih h))
  | case4 b rest _ hq =>
    obtain ⟨behind, ht⟩ := Option.isSome_iff_exists.1 hq.2
    cases h
    rw [eq_append_of_afterWord? ht]
    simp
  | case5 b rest _ _ ih => exact Nat.lt_succ_of_lt (ih h)

/-- The literal ends inside its own bytes. -/
theorem afterPlain?_own {body rest : Bytes} (h : afterPlain? quote (body ++ rest) = some rest) :
    afterPlain? quote body = some [] := by
  fun_induction afterPlain? quote body with
  | case1 => exact absurd (afterPlain?_lt h) (Nat.lt_irrefl _)
  | case2 =>
    cases rest with
    | nil => simp [afterPlain?] at h
    | cons c rest =>
      rw [List.singleton_append, afterPlain?, if_pos rfl] at h
      have := afterPlain?_lt h
      rw [List.length_cons] at this
      omega
  | case3 c escaped ih =>
    rw [List.cons_append, List.cons_append, afterPlain?, if_pos rfl] at h
    exact ih h
  | case4 text hb =>
    rw [List.cons_append, afterPlain?.eq_def] at h
    dsimp only at h
    rw [if_neg hb, if_pos rfl] at h
    obtain rfl : text = [] := by simpa using Option.some.inj h
    rfl
  | case5 text hb hl =>
    rw [List.cons_append, afterPlain?.eq_def] at h
    dsimp only at h
    rw [if_neg hb, if_neg hl, if_pos rfl] at h
    cases h
  | case6 b text hb hq hl ih =>
    rw [List.cons_append, afterPlain?.eq_def] at h
    dsimp only at h
    rw [if_neg hb, if_neg hq, if_neg hl] at h
    exact ih h

theorem afterTriple?_own {body rest : Bytes} (h : afterTriple? quote (body ++ rest) = some rest) :
    afterTriple? quote body = some [] := by
  fun_induction afterTriple? quote body with
  | case1 => exact absurd (afterTriple?_lt h) (by simp)
  | case2 =>
    cases rest with
    | nil => simp [afterTriple?] at h
    | cons c rest =>
      rw [List.singleton_append, afterTriple?, if_pos rfl] at h
      have := afterTriple?_lt h
      rw [List.length_cons] at this
      omega
  | case3 c escaped ih =>
    rw [List.cons_append, List.cons_append, afterTriple?, if_pos rfl] at h
    exact ih h
  | case4 b text hb hq =>
    obtain ⟨behind, ht⟩ := Option.isSome_iff_exists.1 hq.2
    have hx := eq_append_of_afterWord? ht
    rw [List.cons_append, afterTriple?.eq_def] at h
    dsimp only at h
    rw [if_neg hb, if_pos ⟨hq.1, startsWith_append hq.2 rest⟩, hx] at h
    obtain rfl : behind = [] := by simpa using Option.some.inj h
    rw [hx]
    rfl
  | case5 b text hb hq ih =>
    rw [List.cons_append, afterTriple?.eq_def] at h
    dsimp only at h
    rw [if_neg hb] at h
    split at h
    · rename_i hn
      -- Closing quotes that leave exactly the text behind are bytes of the body.
      obtain ⟨behind, ht⟩ := Option.isSome_iff_exists.1 hn.2
      have hx := eq_append_of_afterWord? ht
      rw [hx] at h
      obtain rfl : behind = rest := Option.some.inj h
      have htext := List.append_cancel_right hx
      refine absurd ⟨hn.1, ?_⟩ hq
      rw [htext]
      simp [startsWith, afterWord?]
    · exact ih h

/-- A literal stays one in front of other text, where no third quote joins two. -/
theorem after?_append {text after : Bytes} (h : after? (quote :: text) = some after) {more : Bytes}
    (hm : text = [quote] → more.head? ≠ some quote) :
    after? (quote :: (text ++ more)) = some (after ++ more) := by
  unfold after? at h ⊢
  dsimp only at h ⊢
  cases ht : afterWord? [quote, quote] text with
  | some body =>
    rw [ht] at h
    rw [afterWord?_append ht]
    exact afterTriple?_append h more
  | none =>
    rw [ht] at h
    -- Only a lone closing quote could become the first of two.
    have hn : afterWord? [quote, quote] (text ++ more) = none := by
      cases text with
      | nil => cases h
      | cons c text =>
        by_cases hc : c = quote
        · subst hc
          cases text with
          | nil =>
            have hm := hm rfl
            cases more with
            | nil => simp [afterWord?]
            | cons d more => simpa [afterWord?] using hm
          | cons d text => simpa [afterWord?] using ht
        · simp [afterWord?, hc]
    rw [hn]
    exact afterPlain?_append h more

/-- A literal is one without the text behind it. -/
theorem after?_own {body rest : Bytes} (h : after? (quote :: body ++ rest) = some rest) :
    after? (quote :: body) = some [] ∧ (body = [quote] → rest.head? ≠ some quote) := by
  rw [List.cons_append] at h
  unfold after? at h ⊢
  dsimp only at h ⊢
  cases ht : afterWord? [quote, quote] (body ++ rest) with
  | some text =>
    rw [ht] at h
    have hx := eq_append_of_afterWord? ht
    have hl := afterTriple?_lt h
    have hlx := congrArg List.length hx
    simp only [List.length_append, List.length_cons, List.length_nil] at hlx
    -- The three closing quotes are in the body, so it holds the opening ones too.
    obtain ⟨c, d, body, rfl⟩ : ∃ c d inner, body = c :: d :: inner := by
      cases body with
      | nil => simp at hlx; omega
      | cons c body =>
        cases body with
        | nil => simp at hlx; omega
        | cons d body => exact ⟨c, d, body, rfl⟩
    simp only [List.cons_append, List.nil_append, List.cons.injEq] at hx
    obtain ⟨rfl, rfl, rfl⟩ := hx
    refine ⟨?_, nofun⟩
    simp only [afterWord?, if_true]
    exact afterTriple?_own h
  | none =>
    rw [ht] at h
    refine ⟨?_, ?_⟩
    · have hb : afterWord? [quote, quote] body = none := by
        cases hb : afterWord? [quote, quote] body with
        | none => rfl
        | some text =>
          rw [afterWord?_append hb] at ht
          cases ht
      rw [hb]
      exact afterPlain?_own h
    · rintro rfl hr
      obtain ⟨more, rfl⟩ : ∃ more, rest = quote :: more := by
        cases rest with
        | nil => cases hr
        | cons c more => cases hr; exact ⟨more, rfl⟩
      simp [afterWord?] at ht

/-- Only the first byte behind a literal matters to it. -/
theorem after?_congr {body rest others : Bytes} (h : after? (quote :: body ++ rest) = some rest)
    (hr : others.head? = rest.head?) : after? (quote :: body ++ others) = some others := by
  obtain ⟨ho, hn⟩ := after?_own h
  exact after?_append ho (hr ▸ hn)

end Literal

end ManifestScan
