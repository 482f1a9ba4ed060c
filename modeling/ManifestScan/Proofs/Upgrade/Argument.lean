import ManifestScan.Proofs.Text.Value
import ManifestScan.Proofs.Upgrade.Value
import ManifestScan.UpgradeStep

namespace ManifestScan

open ArgumentList Lexeme

structure IsEntry (pair : Bytes × Bytes) : Prop where
  key : isIdentifier pair.1 = true
  value : IsArgument pair.2

section

variable {key value : Bytes}

theorem inert_key (h : isIdentifier key = true) : Inert (key ++ [equals]) :=
  (inert_of_isIdentifier h).append (.cons (by decide) nofun)

/-- The equals sign behind a key is the first one, and no other joins it. -/
theorem assignment?_key (hk : isIdentifier key = true) (hv : value.head? ≠ some equals) :
    assignment? (key ++ equals :: value) = some key.length := by
  have hname : ∀ b, isNameByte b = true → joinsEquals b = false := by decide +kernel
  have hposition : outerPosition? equals (key ++ equals :: value) = some key.length := by
    rw [(inert_of_isIdentifier hk).outerPosition?_append (notMem_of_isIdentifier hk (by decide)),
      outerPosition?_self (by decide), Option.map_some, Nat.zero_add]
  have hbehind : (key ++ equals :: value)[key.length + 1]? = value.head? := by
    rw [List.getElem?_append_right (Nat.le_add_right _ _), Nat.add_sub_cancel_left,
      List.head?_eq_getElem?]
    rfl
  have hlt := List.length_pos_iff.2 (isTrimmed_of_isIdentifier hk).ne_nil
  have hbefore : ((key ++ equals :: value)[key.length - 1]?).any joinsEquals = false := by
    rw [List.getElem?_append_left (by omega), List.getElem?_eq_getElem (by omega), Option.any_some]
    exact hname _ (List.all_eq_true.1 (all_isNameByte hk) _ (List.getElem_mem _))
  unfold assignment?
  rw [assignmentAfter?]
  split
  · rename_i hi
    rw [hposition] at hi
    cases hi
  · rename_i i hi
    rw [hposition] at hi
    cases hi
    dsimp only
    rw [hbehind, if_neg hv, if_neg (Nat.ne_of_gt hlt), hbefore]
    rfl

theorem trim_written (hk : isIdentifier key = true) (hv : trim value = value) :
    trim (key ++ equals :: value) = key ++ equals :: value := by
  have hkey := isTrimmed_of_isIdentifier hk
  have hequals : IsTrimmed [equals] :=
    isTrimmed_of_notBlank (List.cons_ne_nil _ _) (List.forall_mem_singleton.2 (by decide))
  by_cases hn : value = []
  · subst hn
    exact (hkey.append hequals []).trim_eq
  · exact (hkey.append (isTrimmed_of_trim hn hv) [equals]).trim_eq

end

namespace IsEntry

variable {pair : Bytes × Bytes}

theorem written_eq (pair : Bytes × Bytes) : written pair = (pair.1 ++ [equals]) ++ pair.2 := by
  rw [written, List.append_assoc]
  rfl

theorem isTrimmed (h : IsEntry pair) : IsTrimmed (written pair) :=
  (isTrimmed_of_isIdentifier h.key).append h.value.isTrimmed [equals]

theorem isPart (h : IsEntry pair) : IsPart (written pair) := by
  rw [written_eq]
  exact .inert_append (inert_key h.key) h.value.isPart

theorem comma (h : IsEntry pair) : outerPosition? comma (written pair) = none := by
  have hn : ManifestScan.comma ∉ pair.1 ++ [equals] := by
    rw [List.mem_append, not_or]
    exact ⟨notMem_of_isIdentifier h.key (by decide), by decide⟩
  rw [written_eq, (inert_key h.key).outerPosition?_append hn, h.value.comma]
  rfl

theorem exists_inline (h : IsEntry pair) : ∃ lexemes, Inline (written pair) lexemes := by
  obtain ⟨lexemes, hl⟩ := h.value.exists_inline
  refine ⟨ofWord pair.1 :: ⟨.token .equals, [equals]⟩ :: lexemes, fun rest hr => ?_, ?_, ?_⟩
  · have hhead : (pair.2 ++ rest).head? ≠ some equals := by
      obtain ⟨b, more, hb⟩ := List.exists_cons_of_ne_nil h.value.isTrimmed.ne_nil
      have hn := h.value.head?_ne
      rw [hb] at hn ⊢
      exact hn
    exact (Lexes.word h.key (by rfl)).append ((Lexes.equals hhead).append (hl.lexes rest hr))
  · exact List.forall_mem_cons.2 ⟨.token _, List.forall_mem_cons.2 ⟨.token _, hl.isInline⟩⟩
  · rw [turnsOf_cons, Listing.turn?_ofWord, turnsOf_cons]
    exact hl.balanced

end IsEntry

section

variable {pairs : List (Bytes × Bytes)} (h : ∀ pair ∈ pairs, IsEntry pair)

include h

theorem isPart_inside : IsPart (inside pairs) := by
  refine Parameter.isPart_joinWith fun text hm => ?_
  obtain ⟨pair, hp, rfl⟩ := List.mem_map.1 hm
  exact (h pair hp).isPart

theorem exists_inline_inside : ∃ lexemes, Inline (inside pairs) lexemes := by
  refine Parameter.exists_inline_joinWith fun text hm => ?_
  obtain ⟨pair, hp, rfl⟩ := List.mem_map.1 hm
  exact (h pair hp).exists_inline

end

namespace UpgradeStep

variable {function key value text : Bytes} {pairs : List (Bytes × Bytes)}

/-- An argument that is written sets its key. -/
theorem Draft.add_written (hk : isIdentifier key = true) (hv : trim value = value)
    (hh : value.head? ≠ some equals) (draft : Draft) :
    draft.add (key ++ equals :: value) = draft.set key value := by
  unfold Draft.add
  rw [assignment?_key hk hh]
  dsimp only
  rw [List.take_left, List.drop_length_add_append, List.drop_one, List.tail_cons,
    trim_name (all_isNameByte hk), hv]

/-- The arguments of a decorator are set one after the other. -/
theorem ofArguments_inside (h : ∀ pair ∈ pairs, IsEntry pair) :
    ofArguments function (inside pairs) =
      pairs.foldl (fun draft pair => draft.set pair.1 pair.2) ⟨plain function, []⟩ := by
  unfold ofArguments
  rw [(isPart_inside h).dropComments_eq]
  have hfields : ((outerFields comma (inside pairs)).map trim).foldl Draft.add
      ⟨plain function, []⟩ = (pairs.map written).foldl Draft.add ⟨plain function, []⟩ := by
    cases pairs with
    | nil =>
      have hnil : assignment? [] = none :=
        assignment?_of_none (Inert.outerPosition?_eq_none nofun nofun)
      unfold inside
      rw [List.map_nil, joinWith, Parameter.outerFields_nil]
      show Draft.add _ [] = _
      rw [Draft.add, hnil]
      rfl
    | cons first others =>
      have hwritten : ∀ text ∈ (first :: others).map written, ∃ pair ∈ first :: others,
          written pair = text := fun text hm => List.mem_map.1 hm
      refine congrArg (List.foldl _ _) (Parameter.map_trim_joinWith ?_ ?_)
      · intro text hm
        obtain ⟨pair, hp, rfl⟩ := hwritten text hm
        exact ⟨(h pair hp).isPart, (h pair hp).comma⟩
      · intro text hm
        obtain ⟨pair, hp, rfl⟩ := hwritten text hm
        exact (h pair hp).isTrimmed
  rw [hfields, List.foldl_map]
  refine List.foldl_ext _ _ _ fun draft pair hm => ?_
  exact Draft.add_written (h pair hm).key (h pair hm).value.isTrimmed.trim_eq
    (h pair hm).value.head?_ne draft

end UpgradeStep

end ManifestScan
