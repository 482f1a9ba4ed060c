import ManifestScan.Proofs.Printing.Source
import ManifestScan.Proofs.Text.Split
import ManifestScan.Proofs.Text.Literal
import ManifestScan.Proofs.Text.Qualified
import ManifestScan.Proofs.Text.Style

namespace ManifestScan

/-- What is neither a text nor a reference to something defined elsewhere. -/
def Value.isBare : Value → Bool
  | .null | .boolean _ | .emptyArray | .expression _ => true
  | .string _ | .callable _ | .steps _ => false

namespace Classification

/-- The text asks for the steps of a class, by its name with or without dots. -/
def AsksSteps (className text : Bytes) : Prop :=
  text = className ++ stepsAttribute ∧
    (isIdentifier className = true ∨ isDottedName className = true)

/-- The text starts with an attribute access to which no rule gives a meaning. -/
structure IsRefused (text : Bytes) : Prop where
  startsAttribute : StartsAttribute text
  notMem_enumerations : text ∉ Value.enumerations.map (·.1)
  not_asksSteps : ∀ className, ¬AsksSteps className text

structure Refers (table : ImportTable) (text : Bytes) (binding : Binding) : Prop where
  isIdentifier : isIdentifier text = true
  notMem_constants : text ∉ constants
  find? : table.find? text = some binding

variable {table : ImportTable} {value className text : Bytes}

theorem asksSteps_iff :
    AsksSteps className value ↔ value = className ++ stepsAttribute ∧ Qualified className := by
  rw [Qualified.iff_isIdentifier_or_isDottedName]
  rfl

theorem qualified_append_stepsAttribute :
    Qualified (className ++ stepsAttribute) ↔ Qualified className := by
  have hs : Qualified (ascii "steps") := .name (by decide)
  have ha : stepsAttribute = dot :: ascii "steps" := by decide
  rw [ha, Qualified.append_iff]
  exact and_iff_left hs

theorem AsksSteps.qualified (h : AsksSteps className value) : Qualified value := by
  obtain ⟨rfl, hc⟩ := asksSteps_iff.1 h
  exact qualified_append_stepsAttribute.2 hc

theorem AsksSteps.startsAttribute (h : AsksSteps className value) : StartsAttribute value := by
  apply h.qualified.startsAttribute
  rw [h.1, List.mem_append]
  exact .inr (by decide)

theorem endsWith_append (front word : Bytes) : endsWith word (front ++ word) = true := by
  unfold endsWith startsWith
  rw [List.reverse_append, afterWord?_self]
  rfl

theorem exists_append_of_endsWith {word : Bytes} (h : endsWith word text = true) :
    ∃ front, text = front ++ word := by
  obtain ⟨rest, hr⟩ := Option.isSome_iff_exists.1 h
  have ht := congrArg List.reverse (eq_append_of_afterWord? hr)
  rw [List.reverse_reverse, List.reverse_append, List.reverse_reverse] at ht
  exact ⟨rest.reverse, ht⟩

/-- Every expression that stands for a string is an attribute of a name. -/
theorem qualified_of_mem_enumerations {entry : Bytes × Bytes} (h : entry ∈ Value.enumerations) :
    Qualified entry.1 ∧ StartsAttribute entry.1 := by
  have hall : ∀ entry ∈ Value.enumerations,
      (∀ name ∈ fields dot entry.1, isIdentifier name = true) ∧ dot ∈ entry.1 := by decide
  obtain ⟨hf, hd⟩ := hall entry h
  have hq := Qualified.iff_all_fields.2 hf
  exact ⟨hq, hq.startsAttribute hd⟩

theorem ofEnumeration?_of_mem {entry : Bytes × Bytes} (h : entry ∈ Value.enumerations) :
    Value.ofEnumeration? entry.1 = some entry.2 :=
  lookup_of_mem (by decide) h

/-- No expression that stands for a string asks for steps. -/
theorem AsksSteps.ofEnumeration?_eq_none (h : AsksSteps className value) :
    Value.ofEnumeration? value = none := by
  have hall : ∀ entry ∈ Value.enumerations, endsWith stepsAttribute entry.1 = false := by decide
  cases hv : Value.ofEnumeration? value with
  | none => rfl
  | some text =>
    have hn := hall _ (mem_of_lookup hv)
    dsimp only at hn
    rw [h.1, endsWith_append] at hn
    cases hn

theorem isQuoted_of_isNameByte {b : UInt8} (hb : isNameByte b = true) (rest : Bytes) :
    Literal.isQuoted (b :: rest) = false := by
  have hall : ∀ b, isNameByte b = true → Literal.isQuote b = false := by decide +kernel
  rw [Literal.isQuoted, hall b hb, Bool.false_and]

/-- An attribute access passes the rules for constants and literals. -/
theorem ofExpression_of_startsAttribute (h : StartsAttribute value) :
    ofExpression table value = ofAttribute (leadingName value) value := by
  have hconstants : ∀ word ∈ constants, value ≠ word := by
    have hall : ∀ word ∈ constants, dot ∉ word := by decide
    rintro word hw rfl
    exact hall value hw h.dot_mem
  have hquoted : Literal.isQuoted value = false := by
    obtain ⟨b, rest, rfl, hb⟩ := h.exists_head
    exact isQuoted_of_isNameByte hb rest
  have hdot : (leadingName value).contains dot = true := by
    rw [List.contains_iff_mem]
    exact dot_mem_leadingName.2 h
  unfold ofExpression
  rw [if_neg (hconstants _ (by decide)), if_neg (hconstants _ (by decide)),
    if_neg (hconstants _ (by decide)), hquoted, if_neg Bool.false_ne_true, if_pos hdot]

theorem ofExpression_enumeration {entry : Bytes × Bytes} (h : entry ∈ Value.enumerations) :
    ofExpression table entry.1 = .classified (.string entry.2) := by
  obtain ⟨hq, hs⟩ := qualified_of_mem_enumerations h
  rw [ofExpression_of_startsAttribute hs, leadingName_of_qualified hq, ofAttribute,
    if_neg (Nat.lt_irrefl _), ofEnumeration?_of_mem h]

theorem ofExpression_steps (h : AsksSteps className value) :
    ofExpression table value = .decorated className := by
  have hn := h.ofEnumeration?_eq_none
  rw [ofExpression_of_startsAttribute h.startsAttribute, leadingName_of_qualified h.qualified,
    ofAttribute, if_neg (Nat.lt_irrefl _), hn]
  dsimp only
  obtain ⟨rfl, hc⟩ := asksSteps_iff.1 h
  have hl : stepsAttribute.length < (className ++ stepsAttribute).length := by
    have := List.length_pos_iff.2 hc.ne_nil
    rw [List.length_append]
    omega
  rw [if_pos ⟨hl, endsWith_append _ _⟩, List.length_append, Nat.add_sub_cancel, List.take_left]

theorem ofExpression_refused (h : IsRefused value) :
    ofExpression table value = .unsupported (.attributeAccess value) := by
  have hn : Value.ofEnumeration? value = none := by
    cases hv : Value.ofEnumeration? value with
    | none => rfl
    | some text =>
      exact absurd (List.mem_map_of_mem (mem_of_lookup hv)) h.notMem_enumerations
  have hd := dot_mem_leadingName.2 h.startsAttribute
  obtain ⟨hp, hq⟩ := qualified_leadingName (List.ne_nil_of_mem hd)
  rw [ofExpression_of_startsAttribute h.startsAttribute, ofAttribute]
  split
  · rfl
  · rename_i hl
    rw [hn]
    dsimp only
    -- The scan has taken all of the text, so what stands in front of the attribute is a class.
    rw [if_neg]
    rintro ⟨-, he⟩
    rw [hp.eq_of_length_le (Nat.le_of_not_lt hl)] at hq
    obtain ⟨className, rfl⟩ := exists_append_of_endsWith he
    exact h.not_asksSteps className
      (asksSteps_iff.2 ⟨rfl, qualified_append_stepsAttribute.1 hq⟩)

theorem ofExpression_quoted (h : Literal.isQuoted value = true) :
    ofExpression table value = .classified (.string (Literal.unquote value)) := by
  have hconstants : ∀ word ∈ constants, value ≠ word := by
    have hall : ∀ word ∈ constants, Literal.isQuoted word = false := by decide +kernel
    rintro word hw rfl
    rw [hall value hw] at h
    cases h
  unfold ofExpression
  rw [if_neg (hconstants _ (by decide)), if_neg (hconstants _ (by decide)),
    if_neg (hconstants _ (by decide)), if_pos h]

theorem ofExpression_refers {binding : Binding} (h : Refers table value binding) :
    ofExpression table value = .classified (.callable (reference binding)) := by
  have hi := h.isIdentifier
  have hconstants : ∀ word ∈ constants, value ≠ word := by
    rintro word hw rfl
    exact h.notMem_constants hw
  obtain ⟨b, rest, rfl⟩ := List.exists_cons_of_ne_nil (isTrimmed_of_isIdentifier hi).ne_nil
  have hb : isNameByte b = true := List.all_eq_true.1 (all_isNameByte hi) b List.mem_cons_self
  have hdot : (leadingName (b :: rest)).contains dot = false := by
    rw [leadingName_of_isIdentifier hi, ← Bool.not_eq_true, List.contains_iff_mem]
    exact dot_notMem_of_isIdentifier hi
  have hbracket : ¬((b :: rest).head? = some 0x5B ∧ (b :: rest).getLast? = some 0x5D) := by
    rintro ⟨he, -⟩
    cases he
    revert hb
    decide
  unfold ofExpression
  rw [if_neg (hconstants _ (by decide)), if_neg (hconstants _ (by decide)),
    if_neg (hconstants _ (by decide)), isQuoted_of_isNameByte hb, if_neg Bool.false_ne_true, hdot,
    if_neg Bool.false_ne_true, if_neg hbracket, h.find?]
  exact if_pos hi

/-- What is left is a constant, a list, or an expression that is kept as its text. -/
theorem ofExpression_bare (hs : ¬StartsAttribute value) (hq : Literal.isQuoted value = false)
    (hr : ∀ binding, ¬Refers table value binding) :
    ∃ bare, bare.isBare = true ∧ ofExpression table value = .classified bare := by
  have hdot : (leadingName value).contains dot = false := by
    rw [← Bool.not_eq_true, List.contains_iff_mem, dot_mem_leadingName]
    exact hs
  unfold ofExpression
  rw [hq, hdot]
  split
  · exact ⟨_, rfl, rfl⟩
  rename_i hnone
  split
  · exact ⟨_, rfl, rfl⟩
  rename_i htrue
  split
  · exact ⟨_, rfl, rfl⟩
  rename_i hfalse
  rw [if_neg Bool.false_ne_true, if_neg Bool.false_ne_true]
  split
  · exact ⟨_, rfl, rfl⟩
  split
  · rename_i binding hf
    rw [if_neg]
    · exact ⟨_, rfl, rfl⟩
    · intro hi
      refine hr binding ⟨hi, ?_, hf⟩
      simp [constants, hnone, htrue, hfalse]
  · exact ⟨_, rfl, rfl⟩

/-- What an expression without blanks around it can stand for, rule by rule. -/
inductive Means (table : ImportTable) (value : Bytes) : Classification → Prop
  | steps {className : Bytes} (h : AsksSteps className value) :
    Means table value (.decorated className)
  | enumeration {text : Bytes} (h : (value, text) ∈ Value.enumerations) :
    Means table value (.classified (.string text))
  | refused (h : IsRefused value) : Means table value (.unsupported (.attributeAccess value))
  | literal (h : Literal.isQuoted value = true) :
    Means table value (.classified (.string (Literal.unquote value)))
  | reference {binding : Binding} (h : Refers table value binding) :
    Means table value (.classified (.callable (reference binding)))
  | bare {bare : Value} (h : bare.isBare = true) : Means table value (.classified bare)

theorem means_ofExpression (table : ImportTable) (value : Bytes) :
    Means table value (ofExpression table value) := by
  by_cases hsteps : ∃ className, AsksSteps className value
  · obtain ⟨className, h⟩ := hsteps
    rw [ofExpression_steps h]
    exact .steps h
  by_cases hmem : value ∈ Value.enumerations.map (·.1)
  · obtain ⟨entry, hentry, rfl⟩ := List.mem_map.1 hmem
    rw [ofExpression_enumeration hentry]
    exact .enumeration hentry
  by_cases hs : StartsAttribute value
  · have h : IsRefused value := ⟨hs, hmem, not_exists.1 hsteps⟩
    rw [ofExpression_refused h]
    exact .refused h
  by_cases hq : Literal.isQuoted value = true
  · rw [ofExpression_quoted hq]
    exact .literal hq
  by_cases hr : ∃ binding, Refers table value binding
  · obtain ⟨binding, h⟩ := hr
    rw [ofExpression_refers h]
    exact .reference h
  · obtain ⟨bare, hb, he⟩ := ofExpression_bare hs (Bool.not_eq_true _ ▸ hq) (not_exists.1 hr)
    rw [he]
    exact .bare hb

theorem ofText_eq (hn : trim text ≠ []) : ofText table text = ofExpression table (trim text) :=
  if_neg (by rwa [List.isEmpty_iff])

theorem means_ofText (table : ImportTable) (text : Bytes) :
    Means table (trim text) (ofText table text) := by
  by_cases hn : trim text = []
  · unfold ofText
    rw [hn]
    exact .bare rfl
  · rw [ofText_eq hn]
    exact means_ofExpression table (trim text)

/-- The meaning of a text follows a grammar. The steps of a class are asked for by its name alone,
any other attribute access is refused unless it is listed, an imported name is a reference to what
the import binds, and nothing but a literal or a listed expression is a string. -/
theorem ofText_grammar (table : ImportTable) (text : Bytes) :
    let value := trim text
    let meaning := ofText table text
    (∀ className, meaning = .decorated className ↔ AsksSteps className value) ∧
      (∀ failure, meaning = .unsupported failure ↔
        IsRefused value ∧ failure = .attributeAccess value) ∧
      (Failure.attributeAccess value).code = ascii "MEX-E2400" ∧
      ((∃ found, meaning = .classified found) ↔
        ¬(∃ className, AsksSteps className value) ∧ ¬IsRefused value) ∧
      (∀ target, meaning = .classified (.callable target) ↔
        ∃ binding, isIdentifier value = true ∧ value ∉ constants ∧
          table.find? value = some binding ∧
          target = ⟨binding.module, binding.name, .ofName binding.name, none, []⟩) ∧
      (∀ string, meaning = .classified (.string string) ↔
        (∃ (style : Literal.Style) (inner : Bytes), style.IsBody inner ∧
            value = style.enclose inner) ∧ string = Literal.unquote value ∨
          (value, string) ∈ Value.enumerations) ∧
      ∀ list, meaning ≠ .classified (.steps list) := by
  intro value meaning
  have hmeans : Means table value meaning := means_ofText table text
  have hexpression : value ≠ [] → meaning = ofExpression table value := fun hn => ofText_eq hn
  clear_value meaning
  have hsteps : ∀ className, AsksSteps className value → meaning = .decorated className := by
    intro className h
    rw [hexpression h.qualified.ne_nil, ofExpression_steps h]
  have hrefused : IsRefused value → meaning = .unsupported (.attributeAccess value) := by
    intro h
    obtain ⟨b, rest, hb, -⟩ := h.startsAttribute.exists_head
    rw [hexpression (by simp [hb]), ofExpression_refused h]
  refine ⟨fun className => ⟨fun h => ?_, hsteps className⟩, fun failure => ⟨fun h => ?_, ?_⟩, rfl,
    ⟨?_, fun ⟨hs, hr⟩ => ?_⟩, fun target => ⟨fun h => ?_, ?_⟩, fun string => ⟨fun h => ?_, ?_⟩,
    fun list h => ?_⟩
  · rw [h] at hmeans
    cases hmeans with
    | steps hs => exact hs
  · rw [h] at hmeans
    cases hmeans with
    | refused hr => exact ⟨hr, rfl⟩
  · rintro ⟨h, rfl⟩
    exact hrefused h
  · rintro ⟨found, h⟩
    refine ⟨fun ⟨className, hs⟩ => ?_, fun hr => ?_⟩
    · rw [hsteps className hs] at h
      cases h
    · rw [hrefused hr] at h
      cases h
  · cases hmeans with
    | steps h => exact absurd ⟨_, h⟩ hs
    | refused h => exact absurd h hr
    | _ => exact ⟨_, rfl⟩
  · rw [h] at hmeans
    cases hmeans with
    | reference hr => exact ⟨_, hr.isIdentifier, hr.notMem_constants, hr.find?, rfl⟩
    | bare hb => cases hb
  · rintro ⟨binding, hi, hc, hf, rfl⟩
    rw [hexpression (isTrimmed_of_isIdentifier hi).ne_nil, ofExpression_refers ⟨hi, hc, hf⟩]
    rfl
  · rw [h] at hmeans
    cases hmeans with
    | enumeration he => exact .inr he
    | literal hq => exact .inl ⟨Literal.isQuoted_iff.1 hq, rfl⟩
    | bare hb => cases hb
  · rintro (⟨h, rfl⟩ | h)
    · have hq := Literal.isQuoted_iff.2 h
      have hn : value ≠ [] := by
        rintro hn
        rw [hn] at hq
        cases hq
      rw [hexpression hn, ofExpression_quoted hq]
    · rw [hexpression (qualified_of_mem_enumerations h).1.ne_nil]
      exact ofExpression_enumeration h
  · rw [h] at hmeans
    cases hmeans with
    | bare hb => cases hb

end Classification

end ManifestScan
