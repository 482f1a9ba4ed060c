import ManifestScan.Extraction.Workspace
import ManifestScan.Proofs.Extraction.Classification
import ManifestScan.Proofs.Printing.Script

namespace ManifestScan

open Draft

namespace Setting

variable {catalog : Catalog}

def value (catalog : Catalog) : Setting → Value
  | .name text | .callMethod text | .ioType text | .description text => .string text
  | .callable symbol | .config symbol => .callable (catalog.callable symbol)
  | .requiresStore flag => .boolean flag

def set (catalog : Catalog) (draft : Draft) : Setting → Draft
  | .name text => { draft with name := some text }
  | .callable symbol => { draft with callable := some (catalog.callable symbol) }
  | .callMethod text => { draft with callMethod := some text }
  | .ioType text => { draft with ioType := some text }
  | .description text => { draft with description := some text }
  | .requiresStore flag => { draft with requiresStore := some flag }
  | .config symbol => { draft with config := some (catalog.callable symbol) }

theorem ofKeyword?_key (setting : Setting) : Field.ofKeyword? setting.key = some setting.field := by
  cases setting <;> rfl

/-- An imported name stands for its callable. -/
theorem ofText_symbol {table : ImportTable} {symbol : Bytes} {binding : Binding}
    (hs : isSymbol symbol = true) (hf : table.find? symbol = some binding) :
    Classification.ofText table symbol =
      .classified (.callable (Classification.reference binding)) := by
  have hi := isIdentifier_of_isSymbol hs
  have hc : symbol ∉ constants := by simpa [isSymbol, hi] using hs
  have ht := trim_name (all_isNameByte hi)
  rw [Classification.ofText_eq (by rw [ht]; exact (isTrimmed_of_isIdentifier hi).ne_nil), ht]
  exact Classification.ofExpression_refers ⟨hi, hc, hf⟩

/-- A literal stands for its text. -/
theorem ofText_quote (table : ImportTable) (text : Bytes) :
    Classification.ofText table (Literal.quote text) = .classified (.string text) := by
  have ht : trim (Literal.quote text) = Literal.quote text := IsPrinted.trim_eq (.inl ⟨text, rfl⟩)
  rw [Classification.ofText_eq (by rw [ht]; exact List.cons_ne_nil _ _), ht,
    Classification.ofExpression_quoted (Literal.isQuoted_quote text), Literal.unquote_quote]

/-- Every expression stands for its value. -/
theorem ofText_expression {table : ImportTable} (hb : catalog.Bound table) {setting : Setting}
    (h : ∀ symbol ∈ setting.symbol?, symbol ∈ catalog.imports.map (·.1)) :
    Classification.ofText table setting.expression = .classified (setting.value catalog) := by
  cases setting with
  | name text | callMethod text | ioType text | description text => exact ofText_quote _ text
  | callable symbol | config symbol =>
    have hm := h symbol rfl
    exact ofText_symbol (Catalog.isSymbol_of_mem hm) (hb symbol hm)
  | requiresStore flag => cases flag <;> rfl

structure Fits (catalog : Catalog) (setting : Setting) : Prop where
  imported : ∀ symbol ∈ setting.symbol?, symbol ∈ catalog.imports.map (·.1)
  name_ne : setting ≠ .name []

/-- A field takes the value of its setting, a callable only where there is none yet. -/
theorem set_value {draft : Draft} {setting : Setting} (h : setting ≠ .name [])
    (hc : setting.key = ascii "obj" → draft.callable = none) (argument : KeywordArgument) :
    draft.set argument (setting.value catalog) setting.field = .ok (setting.set catalog draft) := by
  cases setting with
  | name text =>
    cases text with
    | nil => exact absurd rfl h
    | cons b text => rfl
  | callable symbol =>
    unfold Draft.set field
    dsimp only
    rw [hc rfl]
    rfl
  | callMethod | ioType | description | requiresStore | config => rfl

/-- Only the setting of the callable sets it. -/
theorem callable_set {setting : Setting} (hk : setting.key ≠ ascii "obj") (draft : Draft) :
    (setting.set catalog draft).callable = draft.callable := by
  cases setting with
  | callable symbol => exact absurd rfl hk
  | name | callMethod | ioType | description | requiresStore | config => rfl

/-- The settings of a call are taken in one after the other. -/
theorem readArguments_settings {workspace : Workspace} (hb : catalog.Bound workspace.imports)
    (callee : Bytes) {settings : List Setting} {arguments : List KeywordArgument}
    (ha : arguments.map (fun argument => (argument.key, argument.value)) =
      settings.map fun setting => (setting.key, setting.expression))
    (hf : ∀ setting ∈ settings, setting.Fits catalog) {draft : Draft} {seen : List Bytes}
    (hk : (settings.map Setting.key ++ seen).Nodup)
    (hc : ascii "obj" ∉ seen → draft.callable = none) (progress : Progress) :
    workspace.readArguments callee draft seen progress arguments =
      (.ok (settings.foldl (Setting.set catalog) draft), progress) := by
  -- Keys that are seen are refused, so `seen` grows and stays apart from the keys to come.
  induction settings generalizing arguments draft seen with
  | nil =>
    rw [List.map_eq_nil_iff.1 ha]
    rfl
  | cons setting others ih =>
    cases arguments with
    | nil => cases ha
    | cons argument arguments =>
      rw [List.map_cons, List.map_cons, List.cons.injEq, Prod.mk.injEq] at ha
      obtain ⟨⟨hkey, hvalue⟩, ha⟩ := ha
      obtain ⟨hi, hn⟩ := hf setting List.mem_cons_self
      rw [List.map_cons, List.cons_append, List.nodup_cons, List.mem_append, not_or] at hk
      obtain ⟨⟨hothers, hseen⟩, hk⟩ := hk
      have hcontains : seen.contains argument.key = false := by
        rw [hkey]
        simpa using hseen
      have hvalueOf : workspace.valueOf argument.value progress =
          (.ok (setting.value catalog), progress) := by
        unfold Workspace.valueOf
        rw [hvalue, ofText_expression hb hi]
      have hset : draft.set argument (setting.value catalog) setting.field =
          .ok (setting.set catalog draft) :=
        set_value hn (fun he => hc (he ▸ hseen)) argument
      have hnodup : (others.map Setting.key ++ setting.key :: seen).Nodup :=
        List.perm_middle.nodup_iff.2 (List.nodup_cons.2 ⟨by simp [hothers, hseen], hk⟩)
      have hcallable : ascii "obj" ∉ setting.key :: seen →
          (setting.set catalog draft).callable = none := by
        intro ho
        rw [List.mem_cons, not_or] at ho
        rw [callable_set fun he => ho.1 he.symm]
        exact hc ho.2
      rw [Workspace.readArguments, hcontains, if_neg (by simp), hkey, ofKeyword?_key]
      dsimp only
      rw [hvalueOf]
      dsimp only
      rw [hset]
      exact ih ha (fun other ho => hf other (List.mem_cons_of_mem _ ho)) hnodup hcallable

end Setting

end ManifestScan
