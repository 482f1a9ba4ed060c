import ManifestScan.Proofs.Text.Comment
import ManifestScan.Proofs.Text.First
import ManifestScan.Proofs.Text.Part
import Mathlib.Logic.Relation

/-! The search for an assignment starts anew behind each equals sign that is none. What it finds is
the first assignment that one scan of the text comes to. -/

namespace ManifestScan

namespace Bracket

structure Scan where
  depth : Nat
  rest : Bytes

namespace Scan

/-- One step of a scan takes a byte or a whole literal. The three kinds of bracket are one, and a
closing bracket at depth zero counts for nothing. A literal without an end stops the scan. -/
inductive Leads : Scan → Scan → Prop
  | opening {b : UInt8} {depth : Nat} {rest : Bytes} (hb : isOpening b = true) :
    Leads ⟨depth, b :: rest⟩ ⟨depth + 1, rest⟩
  | closing {b : UInt8} {depth : Nat} {rest : Bytes} (hb : isClosing b = true) :
    Leads ⟨depth, b :: rest⟩ ⟨depth - 1, rest⟩
  | literal {literal : Bytes} {depth : Nat} {rest : Bytes} (hl : Literal.Stands literal rest) :
    Leads ⟨depth, literal ++ rest⟩ ⟨depth, rest⟩
  | byte {b : UInt8} {depth : Nat} {rest : Bytes} (hq : Literal.isQuote b = false)
    (ho : isOpening b = false) (hc : isClosing b = false) :
    Leads ⟨depth, b :: rest⟩ ⟨depth, rest⟩

/-- Whether a scan of a text from the given depth on comes to an offset outside all brackets. -/
def Reaches (depth : Nat) (text : Bytes) (offset : Nat) : Prop :=
  Relation.ReflTransGen Leads ⟨depth, text⟩ ⟨0, text.drop offset⟩

def Meets (target : UInt8) (depth : Nat) (text : Bytes) (offset : Nat) : Prop :=
  Reaches depth text offset ∧ text[offset]? = some target

section

variable {scan next : Scan} {depth : Nat} {b : UInt8}

theorem isClosing_apart : ∀ b, isClosing b = true →
    isOpening b = false ∧ Literal.isQuote b = false := by
  decide +kernel

theorem leads_byte (hq : Literal.isQuote b = false) (depth : Nat) (rest : Bytes) :
    Leads ⟨depth, b :: rest⟩ ⟨depthAfter b depth, rest⟩ := by
  unfold depthAfter
  by_cases ho : isOpening b = true
  · rw [if_pos ho]
    exact .opening ho
  · rw [if_neg ho]
    by_cases hc : isClosing b = true
    · rw [if_pos hc]
      exact .closing hc
    · rw [if_neg hc]
      exact .byte hq (eq_false_of_ne_true ho) (eq_false_of_ne_true hc)

/-- From a quote on a step takes the literal that starts there, and any other byte alone. -/
theorem leads_iff {text : Bytes} : Leads ⟨depth, b :: text⟩ next ↔
    if Literal.isQuote b = true then
      ∃ behind, Literal.after? (b :: text) = some behind ∧ next = ⟨depth, behind⟩
    else next = ⟨depthAfter b depth, text⟩ := by
  constructor
  · intro h
    generalize hs : Scan.mk depth (b :: text) = scan at h
    cases h with
    | opening ho =>
      cases hs
      rw [if_neg (ne_true_of_eq_false (isOpening_apart b ho).2.1), depthAfter, if_pos ho]
    | closing hc =>
      cases hs
      obtain ⟨ho, hq⟩ := isClosing_apart b hc
      rw [if_neg (ne_true_of_eq_false hq), depthAfter, if_neg (ne_true_of_eq_false ho), if_pos hc]
    | literal hl =>
      obtain ⟨quote, body, rfl, hq, ha⟩ := hl.exists_quote
      cases hs
      rw [if_pos hq]
      exact ⟨_, ha, rfl⟩
    | byte hq ho hc =>
      cases hs
      rw [if_neg (ne_true_of_eq_false hq), depthAfter, if_neg (ne_true_of_eq_false ho),
        if_neg (ne_true_of_eq_false hc)]
  · intro h
    split at h
    · rename_i hq
      obtain ⟨behind, ha, rfl⟩ := h
      obtain ⟨body, rfl⟩ := Literal.after?_suffix ha
      exact .literal (Literal.stands_of_after? hq ha)
    · rename_i hq
      rw [h]
      exact leads_byte (eq_false_of_ne_true hq) depth text

theorem not_leads_nil : ¬Leads ⟨depth, []⟩ next := by
  intro h
  generalize hs : Scan.mk depth [] = scan at h
  cases h with
  | literal hl =>
    obtain ⟨quote, body, rfl, -, -⟩ := hl.exists_quote
    cases hs
  | _ => cases hs

/-- A text has one scan only. -/
theorem rightUnique_leads : Relator.RightUnique Leads := by
  rintro ⟨depth, text⟩ first second h₁ h₂
  cases text with
  | nil => exact absurd h₁ not_leads_nil
  | cons b text =>
    rw [leads_iff] at h₁ h₂
    split at h₁
    · rename_i hq
      rw [if_pos hq] at h₂
      obtain ⟨behind, ha, rfl⟩ := h₁
      obtain ⟨other, ho, rfl⟩ := h₂
      rw [ha] at ho
      cases ho
      rfl
    · rename_i hq
      rw [if_neg hq] at h₂
      rw [h₁, h₂]

theorem Leads.length_lt (h : scan.Leads next) : next.rest.length < scan.rest.length := by
  cases h with
  | literal hl =>
    obtain ⟨quote, body, rfl, -, -⟩ := hl.exists_quote
    simp only [List.length_append, List.length_cons]
    omega
  | _ => exact Nat.lt_succ_self _

theorem length_le (h : Relation.ReflTransGen Leads scan next) :
    next.rest.length ≤ scan.rest.length := by
  induction h with
  | refl => exact Nat.le_refl _
  | tail _ hs ih => exact hs.length_lt.le.trans ih

/-- A scan comes to a later place through each place that it comes to before. -/
theorem resume {middle : Scan} (hm : Relation.ReflTransGen Leads scan middle)
    (h : Relation.ReflTransGen Leads scan next) (hl : next.rest.length ≤ middle.rest.length) :
    Relation.ReflTransGen Leads middle next := by
  rcases Relation.ReflTransGen.total_of_right_unique rightUnique_leads hm h with h | h
  · exact h
  · -- No step leads back, so this way from the later place to the other one has none.
    rcases h.cases_head with rfl | ⟨first, hs, ht⟩
    · exact .refl
    · have := hs.length_lt
      have := length_le ht
      omega

end

variable {depth later n offset : Nat} {target : UInt8} {text : Bytes}

/-- Where the scan of a text comes by, a scan of what is left goes on as that does. -/
theorem reaches_add (h : Relation.ReflTransGen Leads ⟨depth, text⟩ ⟨later, text.drop n⟩)
    (offset : Nat) : Reaches depth text (offset + n) ↔ Reaches later (text.drop n) offset := by
  unfold Reaches
  rw [List.drop_drop, Nat.add_comm n]
  constructor
  · intro hr
    refine resume h hr ?_
    simp only [List.length_drop]
    omega
  · exact h.trans

theorem meets_add (h : Relation.ReflTransGen Leads ⟨depth, text⟩ ⟨later, text.drop n⟩)
    (offset : Nat) :
    Meets target depth text (offset + n) ↔ Meets target later (text.drop n) offset := by
  unfold Meets
  rw [reaches_add h, List.getElem?_drop, Nat.add_comm n]

theorem not_meets_nil : ¬Meets target depth [] offset := by
  rintro ⟨-, hb⟩
  cases hb

/-- What a scan meets stands at its start, or behind its first step. -/
theorem Meets.start_or_step (h : Meets target depth text offset) :
    (text.head? = some target ∧ depth = 0) ∨
      ∃ first, Leads ⟨depth, text⟩ first ∧
        Relation.ReflTransGen Leads first ⟨0, text.drop offset⟩ := by
  obtain ⟨hr, hb⟩ := h
  refine hr.cases_head.imp_left fun he => ?_
  have hlt := (List.getElem?_eq_some_iff.1 hb).1
  obtain ⟨hdepth, hrest⟩ := Scan.mk.inj he
  have hlength := congrArg List.length hrest
  rw [List.length_drop] at hlength
  obtain rfl : offset = 0 := by omega
  rw [List.head?_eq_getElem?, hb]
  exact ⟨rfl, hdepth⟩

/-- A scan that does not start at the target meets it where a scan of what its first step
leaves does. -/
theorem meets_step (hs : Leads ⟨depth, text⟩ ⟨later, text.drop n⟩)
    (hn : ¬(text.head? = some target ∧ depth = 0)) (offset : Nat) :
    Meets target depth text offset ↔ ∃ k, offset = k + n ∧ Meets target later (text.drop n) k := by
  constructor
  · intro h
    obtain ⟨first, hfirst, hr⟩ := h.start_or_step.resolve_left hn
    obtain rfl := rightUnique_leads hs hfirst
    have hlt := (List.getElem?_eq_some_iff.1 h.2).1
    have hle := length_le hr
    simp only [List.length_drop] at hle
    obtain ⟨k, rfl⟩ : ∃ k, offset = k + n := ⟨offset - n, by omega⟩
    exact ⟨k, rfl, (meets_add (.single hs) k).1 h⟩
  · rintro ⟨k, rfl, hk⟩
    exact (meets_add (.single hs) k).2 hk

end Scan

open Scan

variable {target : UInt8}

theorem positionOf?_shift (target : UInt8) (depth n : Nat) (found : List Piece) :
    positionOf? target depth (0 + n) found = (positionOf? target depth 0 found).map (· + n) :=
  positionOf?_add target depth 0 n found

/-- A search for a byte finds the first one that the scan meets. -/
theorem isFirst_positionOf? (ht : Literal.isQuote target = false) (depth : Nat) (text : Bytes) :
    IsFirst (Meets target depth text) (positionOf? target depth 0 (pieces text)) := by
  have hquote {quote : UInt8} (hq : Literal.isQuote quote = true) {rest : Bytes} {depth : Nat} :
      ¬((quote :: rest).head? = some target ∧ depth = 0) := by
    rintro ⟨he, -⟩
    cases he
    rw [ht] at hq
    cases hq
  -- A literal is a step like that of a byte, and from a quote without an end no step goes on.
  fun_induction Piece.cut false text generalizing depth with
  | case1 =>
    rw [pieces_nil]
    exact fun _ => not_meets_nil
  | case2 quote rest hq after ha ih =>
    obtain ⟨body, rfl⟩ := Literal.after?_suffix ha
    rw [← List.cons_append] at ha ⊢
    have hdrop : (quote :: body ++ after).drop (quote :: body).length = after := List.drop_left
    have hs : Leads ⟨depth, quote :: body ++ after⟩
        ⟨depth, (quote :: body ++ after).drop (quote :: body).length⟩ := by
      rw [hdrop]
      exact .literal (Literal.stands_of_after? hq ha)
    have hstep := meets_step hs (hquote hq)
    rw [hdrop] at hstep
    rw [Piece.cut_false_literal hq ha]
    show IsFirst _ (positionOf? target depth (0 + (quote :: body).length) (pieces after))
    rw [positionOf?_shift]
    exact (ih depth).shift hstep
  | case3 quote rest hq ha =>
    rw [Piece.cut_false_unclosed hq ha]
    intro i h
    obtain ⟨first, hfirst, -⟩ := h.start_or_step.resolve_left (hquote hq)
    rw [leads_iff, if_pos hq] at hfirst
    obtain ⟨behind, hb, -⟩ := hfirst
    rw [ha] at hb
    cases hb
  | case4 b rest _ hh => cases hh
  | case5 b rest hq _ ih =>
    replace hq : Literal.isQuote b = false := eq_false_of_ne_true hq
    rw [Piece.cut_false_byte hq, positionOf?]
    split
    · rename_i hb
      obtain ⟨rfl, rfl⟩ := hb
      exact .zero ⟨.refl, rfl⟩
    · rename_i hb
      rw [positionOf?_shift]
      refine (ih _).shift (meets_step (n := 1) (leads_byte hq depth rest) ?_)
      rintro ⟨he, hd⟩
      exact hb ⟨Option.some.inj he, hd⟩

end Bracket

open Bracket.Scan

theorem isFirst_outerPosition? {target : UInt8} (ht : Literal.isQuote target = false)
    (text : Bytes) : IsFirst (Meets target 0 text) (outerPosition? target text) :=
  Bracket.isFirst_positionOf? ht 0 text

/-- An assignment at an offset of a text that stands behind byte `before`: an equals sign
that the scan of the text comes to outside brackets, and that belongs to no comparison and no
named expression. -/
structure IsAssignment (before : Option UInt8) (text : Bytes) (offset : Nat) : Prop where
  meets : Meets equals 0 text offset
  behind : text[offset + 1]? ≠ some equals
  front : ∀ b ∈ if offset = 0 then before else text[offset - 1]?, b ∉ ascii "=!<>:"

theorem any_joinsEquals_iff {previous : Option UInt8} :
    previous.any joinsEquals = true ↔ ∃ b ∈ previous, b ∈ ascii "=!<>:" := by
  have hjoins : ∀ b, joinsEquals b = true ↔ b ∈ ascii "=!<>:" := by decide +kernel
  cases previous with
  | none => simp
  | some b => simp [hjoins]

variable {before : Option UInt8} {text : Bytes} {n : Nat}

/-- The scan goes on behind an equals sign, at depth zero. -/
theorem reaches_succ (h : Meets equals 0 text n) : Reaches 0 text (n + 1) := by
  obtain ⟨hr, hb⟩ := h
  obtain ⟨hlt, hb⟩ := List.getElem?_eq_some_iff.1 hb
  unfold Reaches at hr ⊢
  rw [List.drop_eq_getElem_cons hlt, hb] at hr
  exact hr.tail (leads_byte (by decide) 0 _)

/-- Behind an equals sign the assignments of a text are those of what is left. -/
theorem isAssignment_add (h : Meets equals 0 text n) (k : Nat) :
    IsAssignment before text (k + (n + 1)) ↔
      IsAssignment (some equals) (text.drop (n + 1)) k := by
  have hmeets : Meets equals 0 text (k + (n + 1)) ↔ Meets equals 0 (text.drop (n + 1)) k :=
    meets_add (reaches_succ h) k
  have hbyte (k : Nat) : (text.drop (n + 1))[k]? = text[k + (n + 1)]? := by
    rw [List.getElem?_drop, Nat.add_comm]
  have hbehind : text[k + (n + 1) + 1]? = (text.drop (n + 1))[k + 1]? := by
    rw [hbyte, Nat.add_right_comm]
  have hfront : (if k + (n + 1) = 0 then before else text[k + (n + 1) - 1]?) =
      if k = 0 then some equals else (text.drop (n + 1))[k - 1]? := by
    rw [if_neg (by omega)]
    cases k with
    | zero => rw [if_pos rfl, Nat.zero_add, Nat.add_sub_cancel, h.2]
    | succ k =>
      rw [if_neg (Nat.succ_ne_zero k), hbyte, Nat.add_sub_cancel]
      congr 1
      omega
  constructor
  · rintro ⟨hm, ha, hf⟩
    exact ⟨hmeets.1 hm, hbehind ▸ ha, hfront ▸ hf⟩
  · rintro ⟨hm, ha, hf⟩
    exact ⟨hmeets.2 hm, hbehind ▸ ha, hfront ▸ hf⟩

/-- A search that starts anew behind an equals sign finds the first assignment of the text, if there
is none up to that sign. -/
theorem IsFirst.behind {found : Option Nat} (h : Meets equals 0 text n)
    (hn : ∀ i ≤ n, ¬IsAssignment before text i)
    (hf : IsFirst (IsAssignment (some equals) (text.drop (n + 1))) found) :
    IsFirst (IsAssignment before text) (found.map (· + (n + 1))) := by
  refine hf.shift fun i => ?_
  constructor
  · intro hi
    have hlt : n < i := Nat.lt_of_not_le fun hle => hn i hle hi
    obtain ⟨k, rfl⟩ : ∃ k, i = k + (n + 1) := ⟨i - (n + 1), by omega⟩
    exact ⟨k, rfl, (isAssignment_add h k).1 hi⟩
  · rintro ⟨k, rfl, hk⟩
    exact (isAssignment_add h k).2 hk

theorem isFirst_assignmentAfter? (before : Option UInt8) (text : Bytes) :
    IsFirst (IsAssignment before text) (assignmentAfter? before text) := by
  fun_induction assignmentAfter? before text with
  | case1 before text hi =>
    have hnone := (isFirst_outerPosition? (by decide) text).eq_none_iff.1 hi
    exact fun i h => hnone i h.meets
  | case2 before text i hi ha ih =>
    -- Of two equals signs in a row the first has one behind it, and the second one in front.
    obtain ⟨hm, hleast⟩ := (isFirst_outerPosition? (by decide) text).eq_some_iff.1 hi
    refine ih.behind ⟨reaches_succ hm, ha⟩ fun j hj h => ?_
    have := hleast h.meets
    obtain rfl | rfl : j = i ∨ j = i + 1 := by omega
    · exact h.behind ha
    · have hfront := h.front
      rw [if_neg (Nat.succ_ne_zero i), Nat.add_sub_cancel] at hfront
      exact hfront equals hm.2 (by decide)
  | case3 before text i hi previous ha hp ih =>
    obtain ⟨hm, hleast⟩ := (isFirst_outerPosition? (by decide) text).eq_some_iff.1 hi
    refine ih.behind hm fun j hj h => ?_
    obtain rfl : j = i := Nat.le_antisymm hj (hleast h.meets)
    obtain ⟨b, hb, hjoins⟩ := any_joinsEquals_iff.1 hp
    exact h.front b hb hjoins
  | case4 before text i hi previous ha hp =>
    obtain ⟨hm, hleast⟩ := (isFirst_outerPosition? (by decide) text).eq_some_iff.1 hi
    refine ⟨⟨hm, ha, fun b hb hjoins => hp ?_⟩, fun j hj => hleast hj.meets⟩
    exact any_joinsEquals_iff.2 ⟨b, hb, hjoins⟩

/-- The assignment found in a text stands at the least offset where the scan of the text comes to
one, and none is found exactly if there is no such offset. -/
theorem assignment?_isLeast (text : Bytes) :
    (∀ i, assignment? text = some i ↔ IsLeast {i | IsAssignment none text i} i) ∧
      (assignment? text = none ↔ ∀ i, ¬IsAssignment none text i) := by
  have h := isFirst_assignmentAfter? none text
  exact ⟨fun i => h.eq_some_iff, h.eq_none_iff⟩

example : assignment? (ascii "a == f(b=1) != \"c=\" >= d = e") = some 25 := by
  decide +kernel

end ManifestScan
