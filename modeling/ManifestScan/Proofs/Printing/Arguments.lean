import ManifestScan.Proofs.Listing.Stream
import ManifestScan.Proofs.Printing.Source
import ManifestScan.Proofs.Text.Name
import ManifestScan.Proofs.Text.Value

namespace ManifestScan

open Lexeme

def EndsArgument (rest : Bytes) : Prop := rest.head? = some comma ∨ rest.head? = some rightParen

theorem EndsArgument.endsName {rest : Bytes} (h : EndsArgument rest) : endsName rest = true := by
  unfold ManifestScan.endsName
  rcases h with h | h <;> rw [h] <;> decide

theorem EndsArgument.ne_doubleQuote {rest : Bytes} (h : EndsArgument rest) :
    rest.head? ≠ some doubleQuote := by
  rcases h with h | h <;> rw [h] <;> decide

def IsPrinted (value : Bytes) : Prop :=
  (∃ text, value = Literal.quote text) ∨ isIdentifier value = true

theorem IsPrinted.lexes {value rest : Bytes} (h : IsPrinted value) (hr : EndsArgument rest) :
    ∃ lexeme, Lexes rest value [lexeme] ∧ AllFlat [lexeme] := by
  rcases h with ⟨text, rfl⟩ | h
  · exact ⟨_, .quote text hr.ne_doubleQuote, .cons rfl nofun .nil⟩
  · exact ⟨_, .word h hr.endsName, .cons (isFlat_ofWord _) nofun .nil⟩

/-- No value starts with a second equals sign. -/
theorem IsPrinted.head?_ne {value : Bytes} (h : IsPrinted value) (rest : Bytes) :
    (value ++ rest).head? ≠ some equals := by
  rcases h with ⟨text, rfl⟩ | h
  · nofun
  · cases value with
    | nil => cases h
    | cons b value =>
      simp only [isIdentifier, List.all_cons, Bool.and_eq_true] at h
      rintro hb
      cases hb
      cases h.2.1

namespace Setting

def HasName (setting : Setting) : Prop := ∀ symbol ∈ setting.symbol?, isIdentifier symbol = true

theorem isIdentifier_key (setting : Setting) : isIdentifier setting.key = true := by
  cases setting <;> rfl

theorem isPrinted_expression {setting : Setting} (h : setting.HasName) :
    IsPrinted setting.expression := by
  cases setting with
  | name text | callMethod text | ioType text | description text => exact .inl ⟨text, rfl⟩
  | callable symbol | config symbol => exact .inr (h symbol rfl)
  | requiresStore flag => cases flag <;> exact .inr rfl

theorem lexes {setting : Setting} (h : setting.HasName) {rest : Bytes} (hr : EndsArgument rest) :
    ∃ lexemes, Lexes rest setting.text lexemes ∧ AllFlat lexemes := by
  have ht : setting.text = setting.key ++ ([equals] ++ setting.expression) := rfl
  have hp := isPrinted_expression h
  have hk : Lexes ([equals] ++ setting.expression ++ rest) setting.key [ofWord setting.key] :=
    .word setting.isIdentifier_key (by rfl)
  obtain ⟨lexeme, hl, hf⟩ := hp.lexes hr
  rw [ht]
  exact ⟨_, hk.append (Lexes.append (.equals (hp.head?_ne rest)) hl),
    .cons (isFlat_ofWord _) nofun (.cons rfl nofun hf)⟩

/-- The arguments of a call are flat lexemes. -/
theorem lexes_join {settings : List Setting} (h : ∀ setting ∈ settings, setting.HasName)
    {rest : Bytes} (hr : EndsArgument rest) :
    ∃ lexemes, Lexes rest (joinWith [comma, space] (settings.map Setting.text)) lexemes ∧
      AllFlat lexemes := by
  induction settings with
  | nil => exact ⟨[], .nil, .nil⟩
  | cons setting others ih =>
    obtain ⟨lexemes, hl, hf⟩ := ih fun other ho => h other (List.mem_cons_of_mem _ ho)
    have hs := h setting List.mem_cons_self
    by_cases ho : others = []
    · subst ho
      exact lexes hs hr
    · obtain ⟨front, hfront, hflat⟩ := @lexes setting hs
        (comma :: space :: (joinWith [comma, space] (others.map Setting.text) ++ rest)) (.inl rfl)
      refine ⟨front ++ (⟨.token .comma, [comma]⟩ :: blank :: lexemes), ?_,
        hflat.append (.cons rfl nofun (.cons rfl nofun hf))⟩
      rw [List.map_cons, joinWith_cons _ (by simp [ho])]
      apply Lexes.append hfront
      have hcomma : Lexes (space :: (joinWith [comma, space] (others.map Setting.text) ++ rest))
          [comma] [⟨.token .comma, [comma]⟩] := .mark (by rfl) fun h => absurd h (by decide)
      exact hcomma.append (Lexes.append (.space _) hl)

end Setting

theorem IsPrinted.trim_eq {value : Bytes} (h : IsPrinted value) : trim value = value := by
  rcases h with ⟨text, rfl⟩ | h
  · refine trim_of_ends ?_ ?_
    · rintro b hb
      cases hb
      rfl
    · intro b hb
      rw [Literal.quote, ← List.cons_append, List.getLast?_append] at hb
      cases hb
      rfl
  · exact trim_name (all_isNameByte h)

namespace ArgumentList

theorem Depths.through?_name {name : Bytes} (h : name.all isNameByte = true) :
    Depths.zero.through? (name.map .byte) = some .zero := by
  have hn : ∀ b, isNameByte b = true → b ≠ hash := by decide +kernel
  induction name with
  | nil => rfl
  | cons b name ih =>
    rw [List.all_cons, Bool.and_eq_true] at h
    obtain ⟨-, -, -, hc, hp, hd⟩ := isNameByte_plain b h.1
    rw [List.map_cons, through?, if_neg (by simp [hn b h.1, hc, hp]), hd]
    exact ih h.2

theorem isValue_of_isPrinted {value : Bytes} (h : IsPrinted value) : IsValue value := by
  refine ⟨h.trim_eq, ?_⟩
  rcases h with ⟨text, rfl⟩ | h
  · have ha := Literal.after?_quote text (show ([] : Bytes).head? ≠ some doubleQuote by nofun)
    have hp := @Piece.cut_false_literal _ _ doubleQuote rfl ha
    rw [List.append_nil, pieces_nil] at hp
    rw [show pieces (Literal.quote text) = [.literal (Literal.quote text)] from hp]
    rfl
  · have hi : Inert value := fun b hb => isInert_wordByte b
      (isWordByte_of_isNameByte b (List.all_eq_true.1 (all_isNameByte h) b hb))
    have hp := hi.pieces_append []
    rw [List.append_nil, pieces_nil, List.append_nil] at hp
    rw [hp]
    exact Depths.through?_name (all_isNameByte h)

/-- The arguments of a printed call. -/
theorem ofCall_settings {callee : Bytes} (hc : leftParen ∉ callee) {settings : List Setting}
    (h : ∀ setting ∈ settings, setting.HasName) :
    let call := callee ++ leftParen ::
      (joinWith [comma, space] (settings.map Setting.text) ++ [rightParen])
    (ofCall call).failure = none ∧
      (ofCall call).arguments.map (fun argument => (argument.key, argument.value)) =
        settings.map fun setting => (setting.key, setting.expression) := by
  intro call
  have hpairs : ∀ pair ∈ settings.map fun setting => (setting.key, setting.expression),
      IsPair pair := by
    intro pair hm
    obtain ⟨setting, hs, rfl⟩ := List.mem_map.1 hm
    exact ⟨setting.isIdentifier_key,
      isValue_of_isPrinted (Setting.isPrinted_expression (h setting hs))⟩
  have hinside : inside (settings.map fun setting => (setting.key, setting.expression)) =
      joinWith [comma, space] (settings.map Setting.text) := by
    unfold inside
    rw [List.map_map]
    rfl
  obtain ⟨arguments, hr, ha⟩ := @read_inside (callee.length + 1) (callee.length + 1)
    (callee.length + 1) [] _ hpairs
  rw [hinside] at hr
  have hcall := (ofCall_opened hc _).trans hr
  rw [show ofCall call = _ from hcall]
  exact ⟨rfl, ha⟩

end ArgumentList

end ManifestScan
