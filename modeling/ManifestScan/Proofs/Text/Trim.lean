import ManifestScan.Text.Basic
import Mathlib.Data.List.TakeWhile

namespace ManifestScan

/-- A text is its trimmed part with the blanks around it. -/
theorem exists_padded (text : Bytes) : ∃ front back, text = front ++ (trim text ++ back) ∧
    (∀ b ∈ front, isBlank b = true) ∧ ∀ b ∈ back, isBlank b = true := by
  refine ⟨text.takeWhile isBlank, ((trimLeft text).reverse.takeWhile isBlank).reverse, ?_,
    fun b hb => List.mem_takeWhile_imp hb,
    fun b hb => List.mem_takeWhile_imp (List.mem_reverse.1 hb)⟩
  rw [trim, trimRight, ← List.reverse_append, List.takeWhile_append_dropWhile, List.reverse_reverse]
  exact List.takeWhile_append_dropWhile.symm

theorem trim_padding {front behind : Bytes} (hf : ∀ b ∈ front, isBlank b = true)
    (hb : ∀ b ∈ behind, isBlank b = true) (text : Bytes) :
    trim (front ++ (text ++ behind)) = trim text := by
  have hleft : trimLeft (front ++ (text ++ behind)) = trimLeft (text ++ behind) :=
    List.dropWhile_append_of_pos hf
  rw [trim, hleft, trim, trimLeft, trimLeft, List.dropWhile_append]
  split
  · rename_i hn
    rw [List.isEmpty_iff.1 hn, List.dropWhile_eq_nil_iff.2 hb]
  · rw [trimRight, trimRight, List.reverse_append, List.dropWhile_append_of_pos (by simpa using hb)]

theorem trim_trim (text : Bytes) : trim (trim text) = trim text := by
  obtain ⟨front, back, ht, hf, hb⟩ := exists_padded text
  have h := trim_padding hf hb (trim text)
  rw [← ht] at h
  exact h.symm

theorem mem_trim {b : UInt8} (hn : isBlank b = false) {text : Bytes} :
    b ∈ trim text ↔ b ∈ text := by
  obtain ⟨front, back, ht, hf, hb⟩ := exists_padded text
  have hblanks : ∀ blanks : Bytes, (∀ c ∈ blanks, isBlank c = true) → b ∉ blanks := by
    intro blanks h hm
    rw [h b hm] at hn
    cases hn
  have hmem : b ∈ front ++ (trim text ++ back) ↔ b ∈ trim text := by
    simp [hblanks front hf, hblanks back hb]
  rw [← ht] at hmem
  exact hmem.symm

/-- A text between bytes that are no blanks is trimmed. -/
theorem trim_of_ends {text : Bytes} (hf : ∀ b, text.head? = some b → isBlank b = false)
    (hl : ∀ b, text.getLast? = some b → isBlank b = false) : trim text = text := by
  have hd : ∀ part : Bytes, (∀ b, part.head? = some b → isBlank b = false) →
      part.dropWhile isBlank = part := by
    intro part hp
    cases part with
    | nil => rfl
    | cons b part => exact List.dropWhile_cons_of_neg (by simp [hp b rfl])
  unfold trim trimLeft trimRight
  rw [hd text hf, hd _ (by rwa [List.head?_reverse]), List.reverse_reverse]

structure IsTrimmed (text : Bytes) : Prop where
  ne_nil : text ≠ []
  head? : ∀ b ∈ text.head?, isBlank b = false
  getLast? : ∀ b ∈ text.getLast?, isBlank b = false

theorem isTrimmed_of_trim {text : Bytes} (hn : text ≠ []) (h : trim text = text) :
    IsTrimmed text := by
  have hleft : trimLeft text = text := by
    refine (List.dropWhile_suffix _).eq_of_length_le ?_
    have hl : (trimRight (trimLeft text)).length ≤ (trimLeft text).length := by
      unfold trimRight
      rw [List.length_reverse]
      exact Nat.le_trans (List.dropWhile_suffix _).length_le (Nat.le_of_eq List.length_reverse)
    rwa [show trimRight (trimLeft text) = text from h] at hl
  have hright : text.reverse.dropWhile isBlank = text.reverse := by
    unfold trim at h
    rw [hleft] at h
    exact List.reverse_eq_iff.1 h
  have hself {part : Bytes} (hp : part.dropWhile isBlank = part) :
      ∀ b ∈ part.head?, isBlank b = false := by
    intro b hb
    cases part with
    | nil => cases hb
    | cons c part =>
      cases hb
      cases hc : isBlank b with
      | false => rfl
      | true =>
        rw [List.dropWhile_cons_of_pos hc] at hp
        have := (List.dropWhile_suffix (l := part) isBlank).length_le
        rw [hp, List.length_cons] at this
        omega
  refine ⟨hn, hself hleft, ?_⟩
  rw [← List.head?_reverse]
  exact hself hright

theorem isTrimmed_of_notBlank {text : Bytes} (hn : text ≠ [])
    (h : ∀ b ∈ text, isBlank b = false) : IsTrimmed text :=
  ⟨hn, fun b hf => h b (List.mem_of_mem_head? hf), fun b hl => h b (List.mem_of_getLast? hl)⟩

theorem IsTrimmed.trim_eq {text : Bytes} (h : IsTrimmed text) : trim text = text :=
  trim_of_ends h.head? h.getLast?

/-- Blanks around a text are cut off. -/
theorem IsTrimmed.trim_padded {text front behind : Bytes} (h : IsTrimmed text)
    (hf : ∀ b ∈ front, isBlank b = true) (hb : ∀ b ∈ behind, isBlank b = true) :
    trim (front ++ (text ++ behind)) = text := by
  rw [trim_padding hf hb, h.trim_eq]

/-- Trimmed texts with anything between them are one. -/
theorem IsTrimmed.append {text other : Bytes} (h : IsTrimmed text) (ho : IsTrimmed other)
    (middle : Bytes) : IsTrimmed (text ++ (middle ++ other)) := by
  obtain ⟨b, rest, rfl⟩ := List.exists_cons_of_ne_nil h.ne_nil
  obtain ⟨back, c, rfl⟩ : ∃ back c, other = back ++ [c] :=
    ⟨_, _, (List.dropLast_concat_getLast ho.ne_nil).symm⟩
  refine ⟨List.cons_ne_nil _ _, h.head?, ?_⟩
  have hl := ho.getLast?
  rw [List.getLast?_concat] at hl
  rwa [← List.append_assoc, ← List.append_assoc, List.getLast?_concat]

/-- The trimmed text starts with the first byte that is no blank. -/
theorem head?_trim {blanks text : Bytes} (hb : ∀ c ∈ blanks, isBlank c = true) {b : UInt8}
    (hn : isBlank b = false) : (trim (blanks ++ b :: text)).head? = some b := by
  have hleft : trimLeft (blanks ++ b :: text) = b :: text := by
    unfold trimLeft
    rw [List.dropWhile_append_of_pos hb, List.dropWhile_cons_of_neg (by simp [hn])]
  unfold trim trimRight
  rw [hleft, List.reverse_cons, List.dropWhile_append]
  split
  · rw [List.dropWhile_cons_of_neg (by simp [hn])]
    rfl
  · rw [List.reverse_append]
    rfl

end ManifestScan
