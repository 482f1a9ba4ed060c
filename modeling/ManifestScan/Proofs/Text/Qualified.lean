import ManifestScan.Classification
import ManifestScan.Proofs.Text.Name
import Mathlib.Data.List.TakeWhile

namespace ManifestScan

inductive Qualified : Bytes → Prop
  | name {first : Bytes} (h : isIdentifier first = true) : Qualified first
  | join {first rest : Bytes} (h : isIdentifier first = true) (hr : Qualified rest) :
    Qualified (first ++ dot :: rest)

/-- An attribute access starts the text: two names with a dot between them. -/
def StartsAttribute (text : Bytes) : Prop :=
  ∃ first second, isIdentifier first = true ∧ isIdentifier second = true ∧
    first ++ dot :: second <+: text

theorem dot_notMem_of_isIdentifier {name : Bytes} (h : isIdentifier name = true) : dot ∉ name :=
  notMem_of_isIdentifier h (by decide)

/-- More bytes of names leave a name one. -/
theorem isIdentifier_append {name more : Bytes} (h : isIdentifier name = true)
    (hm : more.all isNameByte = true) : isIdentifier (name ++ more) = true := by
  cases name with
  | nil => cases h
  | cons b name =>
    simp only [isIdentifier, Bool.and_eq_true] at h
    rw [List.cons_append, isIdentifier, h.1, ← List.cons_append, List.all_append, h.2, hm]
    rfl

namespace Qualified

variable {text rest : Bytes}

theorem iff_all_fields : Qualified text ↔ ∀ name ∈ fields dot text, isIdentifier name = true := by
  constructor
  · intro h
    induction h with
    | name h =>
      rw [fields_of_notMem (dot_notMem_of_isIdentifier h)]
      exact List.forall_mem_singleton.2 h
    | join h _ ih =>
      rw [fields_append, fields_of_notMem (dot_notMem_of_isIdentifier h)]
      exact List.forall_mem_cons.2 ⟨h, ih⟩
  · have hjoin : ∀ names : List Bytes, names ≠ [] → (∀ name ∈ names, isIdentifier name = true) →
        Qualified (joinWith [dot] names) := by
      intro names hn h
      induction names with
      | nil => exact absurd rfl hn
      | cons name others ih =>
        obtain ⟨hname, hothers⟩ := List.forall_mem_cons.1 h
        by_cases ho : others = []
        · subst ho
          exact .name hname
        · rw [joinWith_cons _ ho]
          exact .join hname (ih ho hothers)
    intro h
    rw [← joinWith_fields dot text]
    exact hjoin _ (fields_ne_nil _ _) h

/-- The qualified names are the names and the dotted names. -/
theorem iff_isIdentifier_or_isDottedName :
    Qualified text ↔ isIdentifier text = true ∨ isDottedName text = true := by
  constructor
  · intro h
    cases h with
    | name h => exact .inl h
    | @join first rest h hr =>
      right
      rw [isDottedName, Bool.and_eq_true, List.all_eq_true]
      exact ⟨by simp, iff_all_fields.1 (.join h hr)⟩
  · rintro (h | h)
    · exact .name h
    · rw [isDottedName, Bool.and_eq_true, List.all_eq_true] at h
      exact iff_all_fields.2 h.2

theorem append_iff : Qualified (text ++ dot :: rest) ↔ Qualified text ∧ Qualified rest := by
  rw [iff_all_fields, iff_all_fields, iff_all_fields, fields_append, List.forall_mem_append]

theorem isNameByte_or_dot (h : Qualified text) : ∀ b ∈ text, isNameByte b = true ∨ b = dot := by
  intro b hb
  rcases mem_fields hb with hd | ⟨name, hf, hn⟩
  · exact .inr hd
  · exact .inl (List.all_eq_true.1 (all_isNameByte (iff_all_fields.1 h name hf)) b hn)

theorem ne_nil (h : Qualified text) : text ≠ [] := by
  cases h with
  | name h => exact (isTrimmed_of_isIdentifier h).ne_nil
  | join => simp

/-- A qualified name starts with a name. -/
theorem exists_first (h : Qualified text) :
    ∃ first, isIdentifier first = true ∧ first <+: text := by
  cases h with
  | name h => exact ⟨_, h, List.prefix_rfl⟩
  | join h _ => exact ⟨_, h, List.prefix_append _ _⟩

/-- With a dot in it, it starts with an attribute access. -/
theorem startsAttribute (h : Qualified text) (hd : dot ∈ text) : StartsAttribute text := by
  cases h with
  | name h => exact absurd hd (dot_notMem_of_isIdentifier h)
  | @join first rest h hr =>
    obtain ⟨second, hs, more, rfl⟩ := hr.exists_first
    refine ⟨first, second, h, hs, more, ?_⟩
    simp

end Qualified

namespace StartsAttribute

variable {text more : Bytes}

theorem mono (h : StartsAttribute text) (hp : text <+: more) : StartsAttribute more := by
  obtain ⟨first, second, hf, hs, ht⟩ := h
  exact ⟨first, second, hf, hs, ht.trans hp⟩

/-- Its first byte is a byte of a name. -/
theorem exists_head (h : StartsAttribute text) :
    ∃ b rest, text = b :: rest ∧ isNameByte b = true := by
  obtain ⟨first, second, hf, -, behind, rfl⟩ := h
  obtain ⟨b, rest, rfl⟩ := List.exists_cons_of_ne_nil (isTrimmed_of_isIdentifier hf).ne_nil
  exact ⟨b, _, rfl, List.all_eq_true.1 (all_isNameByte hf) b List.mem_cons_self⟩

theorem dot_mem (h : StartsAttribute text) : dot ∈ text := by
  obtain ⟨first, second, -, -, hp⟩ := h
  exact hp.subset (by simp)

end StartsAttribute

namespace Classification

variable {text name rest : Bytes} {b : UInt8}

theorem leadingName_of_isIdentifier (h : isIdentifier name = true) : leadingName name = name := by
  have ha : ∀ b ∈ name, isNameByte b = true := List.all_eq_true.1 (all_isNameByte h)
  rw [leadingName, List.takeWhile_eq_self_iff.2 ha, if_pos h]
  split
  · rfl
  · rename_i b rest hd
    rw [List.dropWhile_eq_nil_iff.2 ha] at hd
    cases hd

/-- Behind a name the scan goes on only at a dot with another name behind it. -/
theorem leadingName_append (h : isIdentifier name = true) (hb : isNameByte b = false)
    (rest : Bytes) :
    leadingName (name ++ b :: rest) =
      if b = dot ∧ leadingName rest ≠ [] then name ++ dot :: leadingName rest else name := by
  have ha : ∀ b ∈ name, isNameByte b = true := List.all_eq_true.1 (all_isNameByte h)
  have htake : (name ++ b :: rest).takeWhile isNameByte = name := by
    rw [List.takeWhile_append_of_pos ha, List.takeWhile_cons_of_neg (by simp [hb]),
      List.append_nil]
  have hdrop : (name ++ b :: rest).dropWhile isNameByte = b :: rest := by
    rw [List.dropWhile_append_of_pos ha, List.dropWhile_cons_of_neg (by simp [hb])]
  rw [leadingName, htake, if_pos h]
  split
  · rename_i hd
    rw [hdrop] at hd
    cases hd
  · rename_i c behind hd
    rw [hdrop] at hd
    cases hd
    by_cases hc : b = dot
    · by_cases hn : leadingName rest = []
      · simp [hc, hn]
      · simp [hc, hn]
    · simp [hc]

theorem leadingName_dot (h : isIdentifier name = true) (hr : leadingName rest ≠ []) :
    leadingName (name ++ dot :: rest) = name ++ dot :: leadingName rest := by
  rw [leadingName_append h (by decide)]
  exact if_pos ⟨rfl, hr⟩

/-- The scan takes something exactly if a name starts the text. -/
theorem leadingName_eq_nil_iff :
    leadingName text = [] ↔ isIdentifier (text.takeWhile isNameByte) = false := by
  by_cases h : isIdentifier (text.takeWhile isNameByte) = true
  · have hn := (isTrimmed_of_isIdentifier h).ne_nil
    rw [leadingName, if_pos h, h]
    refine iff_of_false ?_ (by simp)
    split
    · exact hn
    · dsimp only
      split
      · split
        · exact hn
        · simp
      · exact hn
  · rw [leadingName, if_neg h]
    exact iff_of_true rfl (by simpa using h)

theorem leadingName_ne_nil (h : isIdentifier name = true) (rest : Bytes) :
    leadingName (name ++ rest) ≠ [] := by
  have ha : ∀ b ∈ name, isNameByte b = true := List.all_eq_true.1 (all_isNameByte h)
  rw [ne_eq, leadingName_eq_nil_iff, List.takeWhile_append_of_pos ha, Bool.not_eq_false]
  apply isIdentifier_append h
  rw [List.all_eq_true]
  exact fun c hc => List.mem_takeWhile_imp hc

/-- A text starts with a name, which no byte of a name follows, or the scan takes nothing. -/
theorem exists_name (h : leadingName text ≠ []) :
    ∃ name rest, isIdentifier name = true ∧ text = name ++ rest ∧
      ∀ b ∈ rest.head?, isNameByte b = false := by
  rw [ne_eq, leadingName_eq_nil_iff, Bool.not_eq_false] at h
  refine ⟨_, text.dropWhile isNameByte, h, List.takeWhile_append_dropWhile.symm, ?_⟩
  intro b hb
  have hd := List.head?_dropWhile_not isNameByte text
  rw [Option.mem_def.1 hb] at hd
  simpa using hd

/-- The scan passes all of a qualified name. -/
theorem leadingName_of_qualified (h : Qualified text) : leadingName text = text := by
  induction h with
  | name h => exact leadingName_of_isIdentifier h
  | join h hr ih =>
    rw [leadingName_dot h, ih]
    rw [ih]
    exact hr.ne_nil

/-- What the scan takes starts the text, and is a qualified name if it is anything. -/
theorem qualified_leadingName {text : Bytes} (h : leadingName text ≠ []) :
    leadingName text <+: text ∧ Qualified (leadingName text) := by
  obtain ⟨name, rest, hi, rfl, hr⟩ := exists_name h
  cases rest with
  | nil =>
    rw [List.append_nil, leadingName_of_isIdentifier hi]
    exact ⟨List.prefix_rfl, .name hi⟩
  | cons b rest =>
    rw [leadingName_append hi (hr b rfl)]
    split
    · rename_i hb
      obtain ⟨rfl, hn⟩ := hb
      obtain ⟨hp, hq⟩ := qualified_leadingName hn
      refine ⟨?_, .join hi hq⟩
      rw [List.prefix_append_right_inj, List.cons_prefix_cons]
      exact ⟨rfl, hp⟩
    · exact ⟨List.prefix_append _ _, .name hi⟩
termination_by text.length
decreasing_by
  subst_vars
  simp only [List.length_append, List.length_cons]
  omega

theorem dot_mem_leadingName : dot ∈ leadingName text ↔ StartsAttribute text := by
  constructor
  · intro h
    obtain ⟨hp, hq⟩ := qualified_leadingName (List.ne_nil_of_mem h)
    exact (hq.startsAttribute h).mono hp
  · rintro ⟨first, second, hf, hs, behind, rfl⟩
    rw [List.append_assoc, List.cons_append, leadingName_dot hf (leadingName_ne_nil hs behind)]
    simp

end Classification

end ManifestScan
