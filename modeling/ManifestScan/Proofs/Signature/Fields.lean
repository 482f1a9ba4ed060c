import ManifestScan.Proofs.Signature.ClassBody

namespace ManifestScan

open Lexeme

namespace FieldLine

variable {blanks : Bytes} {lines : List FieldLine} {texts : List IndentedLine}

theorem Indents.isProper (hi : Indents blanks lines texts) (h : ∀ line ∈ lines, line.IsProper)
    (hb : ∀ b ∈ blanks, isSpace b = true) : ∀ text ∈ texts, text.IsProper := by
  unfold Indents at hi
  induction hi with
  | nil => exact List.forall_mem_nil _
  | cons hl _ ih =>
    obtain ⟨lexemes, hl, rfl⟩ := hl
    obtain ⟨hline, hlines⟩ := List.forall_mem_cons.1 h
    exact List.forall_mem_cons.2 ⟨isProper_indented hline hl hb, ih hlines⟩

theorem Indents.deepens (hi : Indents blanks lines texts) {column : Nat}
    (hc : column ≤ Lexer.indentColumn blanks) : IndentedLine.Deepens column texts := by
  unfold Indents at hi
  induction hi generalizing column with
  | nil => trivial
  | cons hl _ ih =>
    obtain ⟨lexemes, -, rfl⟩ := hl
    exact ⟨hc, ih (Nat.le_refl _)⟩

theorem Indents.source_eq (hi : Indents blanks lines texts) : IndentedLine.source texts =
    lines.flatMap fun line => blanks ++ (line.text ++ [lineFeed]) := by
  unfold Indents at hi
  induction hi with
  | nil => rfl
  | cons hl _ ih =>
    obtain ⟨lexemes, -, rfl⟩ := hl
    rw [List.flatMap_cons, ← ih]
    rfl

/-- The first of the lines opens a block. -/
theorem Indents.stream_opens (hi : Indents blanks lines texts) (hn : lines ≠ [])
    (hc : 0 < Lexer.indentColumn blanks) (offset : Nat) (location : Location) :
    IndentedLine.stream offset location [] texts =
      .layout .indent (offset + blanks.length) (location.after blanks) ::
        IndentedLine.stream offset location [Lexer.indentColumn blanks] texts := by
  unfold Indents at hi
  cases hi with
  | nil => exact absurd rfl hn
  | cons hl _ =>
    obtain ⟨lexemes, -, rfl⟩ := hl
    exact IndentedLine.stream_opens hc

/-- Behind the last field only its comment is left. -/
theorem exists_body (hn : lines ≠ []) : ∃ back,
    (lines.flatMap fun line => blanks ++ (line.text ++ [lineFeed])) =
      body blanks lines ++ back := by
  fun_induction body blanks lines with
  | case1 => exact absurd rfl hn
  | case2 line => exact ⟨line.remark ++ [lineFeed], by simp [text]⟩
  | case3 line next others ih =>
    obtain ⟨back, hback⟩ := ih (List.cons_ne_nil _ _)
    refine ⟨back, ?_⟩
    rw [List.flatMap_cons, hback]
    simp

end FieldLine

theorem indentColumn_pos {blanks : Bytes} (hn : blanks ≠ []) (hb : ∀ b ∈ blanks, isSpace b = true) :
    0 < Lexer.indentColumn blanks := by
  obtain ⟨front, b, rfl⟩ := (List.eq_nil_or_concat' blanks).resolve_left hn
  have hspace : ∀ b, isSpace b = true → b ≠ formFeed := by decide +kernel
  unfold Lexer.indentColumn
  rw [List.foldl_append, List.foldl_cons, List.foldl_nil, if_neg (hspace b (hb b (by simp)))]
  unfold columnAfter
  split <;> omega

namespace Signature

structure FieldClass where
  name : Bytes
  bases : Option Bytes
  blanks : Bytes
  lines : List FieldLine

namespace FieldClass

def baseList (written : FieldClass) : Bytes :=
  written.bases.elim [] fun bases => leftParen :: (bases ++ [rightParen])

def heading (written : FieldClass) : Bytes :=
  ascii "class " ++ (written.name ++ (written.baseList ++ [colon]))

def source (written : FieldClass) : Bytes :=
  written.heading ++ lineFeed ::
    written.lines.flatMap fun line => written.blanks ++ (line.text ++ [lineFeed])

structure IsProper (written : FieldClass) : Prop where
  name : isIdentifier written.name = true
  keyword : TokenKind.ofWord written.name = .identifier
  bases : ∀ bases ∈ written.bases, bases = [] ∨ IsExpression bases
  blanks : ∀ b ∈ written.blanks, isSpace b = true
  blanks_ne : written.blanks ≠ []
  lines : ∀ line ∈ written.lines, line.IsProper
  lines_ne : written.lines ≠ []
  nodup : (written.lines.map (·.field.name)).Nodup

variable {written : FieldClass}

theorem exists_baseLexemes (h : written.IsProper) :
    ∃ lexemes, BaseLexemes written.baseList lexemes := by
  unfold baseList
  cases hb : written.bases with
  | none => exact ⟨[], .none⟩
  | some bases =>
    rcases h.bases bases hb with rfl | he
    · exact ⟨_, .some .nil⟩
    · obtain ⟨lexemes, hl⟩ := he.exists_inline
      exact ⟨_, .some hl⟩

/-- The outline of a class of fields: where its body starts and ends, and that nothing in
it has a name. -/
theorem definitions_source (h : written.IsProper) :
    ∃ definition, (Script.ofSource written.source).outline.definitions = [definition] ∧
      definition.kind = .type ∧ definition.name = written.name ∧
      (∀ member ∈ definition.definitions, member.name = []) ∧
      definition.body = some written.heading.length ∧
      definition.extent.stop =
        written.heading.length + 1 + (FieldLine.body written.blanks written.lines).length := by
  obtain ⟨lexemes, hbases⟩ := exists_baseLexemes h
  obtain ⟨texts, hi⟩ := FieldLine.exists_indents written.blanks h.lines
  have hcolumn := indentColumn_pos h.blanks_ne h.blanks
  let first := classLine written.name written.baseList lexemes
  have hlines : ∀ line ∈ first :: texts, line.IsProper :=
    List.forall_mem_cons.2 ⟨isProper_classLine hbases h.name, hi.isProper h.lines h.blanks⟩
  have hs : written.source = IndentedLine.source (first :: texts) := by
    have htail : IndentedLine.source (first :: texts) =
        written.heading ++ lineFeed :: IndentedLine.source texts := by
      simp [IndentedLine.source, first, classLine, heading]
    rw [htail, hi.source_eq]
    rfl
  -- The class line, then the block that its first field opens.
  let stop := 0 + 0 + first.text.length + 1
  let below := ((Location.start.after []).after first.text).after [lineFeed]
  obtain ⟨keyword, called, mark, bases, hclass, hkk, hkc, htext, hbt, hkm, hstop⟩ :=
    tokensOf_classLine written.name hbases 0 Location.start
  obtain ⟨tokens, last, dedent, final, htokens, hfields, hd, hlast, hend⟩ :=
    FieldLine.stream_indents hi h.lines h.lines_ne stop below
  have hstream : IndentedLine.stream 0 Location.start [] (first :: texts) =
      (keyword :: called :: (bases ++ mark :: Token.layout .newline stop below ::
        Token.layout .indent (stop + written.blanks.length) (below.after written.blanks) ::
          (tokens ++ [dedent]))) ++ [final] := by
    have htail := (hi.stream_opens h.lines_ne hcolumn stop below).trans (congrArg _ htokens)
    refine (@IndentedLine.stream_same first texts [] 0 Location.start (Nat.lt_irrefl 0)).trans ?_
    refine (congrArg (tokensOf 0 Location.start first.lexemes ++ _ :: ·) htail).trans ?_
    rw [hclass]
    simp only [List.cons_append, List.append_assoc, List.nil_append]
    rfl
  obtain ⟨cursor, hrest, hcursor, hdefinitions⟩ :=
    IndentedLine.definitions_source hlines ⟨Nat.zero_le _, hi.deepens (Nat.zero_le _)⟩ hstream
  obtain ⟨definition, start, hstart, hv, hkind, hname, hbody, hextent, hmembers⟩ :=
    Cursor.block_class true hrest hkk (hkc.trans h.keyword) hbt hkm rfl rfl
  obtain ⟨hnil, hsignificant, hnames⟩ :=
    Cursor.block_fields_close hfields hstart.rest_eq hd hlast
  obtain ⟨hvn, -⟩ := Cursor.block_nil true [] hnil
  refine ⟨definition, ?_, hkind, hname.trans htext, ?_, ?_, ?_⟩
  · rw [hs, hdefinitions, hv, hvn]
  · rw [hmembers]
    exact hnames
  · rw [hbody, hstop, Nat.zero_add]
    rfl
  · rw [hextent, hsignificant, hend]
    exact congrArg (· + 1 + _) (Nat.zero_add _)

/-- The signature of a class of fields is found. Its parameters are the fields if and only if no
line but the last leaves a bracket or a literal open behind its field. -/
theorem find?_fields (h : written.IsProper) :
    ∃ parameters, find? written.source written.name .type = some ⟨parameters, none⟩ ∧
      (parameters = written.lines.map (·.field.parameter) ↔
        ∀ line ∈ written.lines.dropLast, line.IsClosed) := by
  obtain ⟨definition, hone, hkind, hname, hmembers, hbody, hstop⟩ := definitions_source h
  obtain ⟨back, hback⟩ := @FieldLine.exists_body written.blanks written.lines h.lines_ne
  have hfind := find?_first hone
  rw [hkind, hname] at hfind
  have hnone : definition.definitions.find? (fun member =>
      member.kind == .function && member.name == ascii "__init__") = none := by
    refine List.find?_eq_none.2 fun member hm => ?_
    have hempty : (([] : Bytes) == ascii "__init__") = false := by decide
    rw [hmembers member hm, hempty, Bool.and_false]
    exact Bool.false_ne_true
  have hslice : slice written.source written.heading.length definition.extent.stop =
      lineFeed :: FieldLine.body written.blanks written.lines := by
    have := slice_between written.heading
      (lineFeed :: FieldLine.body written.blanks written.lines) back
    rw [hstop, source, hback]
    rw [List.length_cons, Nat.add_comm (List.length _) 1, ← Nat.add_assoc] at this
    exact this
  refine ⟨_, ?_, FieldLine.fieldsOf_body h.lines h.blanks h.lines_ne h.nodup⟩
  rw [hfind, ofClass, hnone, hbody]
  dsimp only
  rw [hslice]

/-- Comments with quotes and brackets that are closed, and one at the end that leaves both open. -/
def settings : FieldClass where
  name := ascii "Settings"
  bases := some (ascii "Base, frozen=True")
  blanks := [tab, space]
  lines :=
    [⟨⟨ascii "year", some (ascii "int"), none⟩, some (ascii " 'since' (\"[\") # 2030)")⟩,
      ⟨⟨ascii "def", some (ascii "dict[str, int]"), some (ascii "make(\"# (\", lambda x: x == 1)")⟩,
        none⟩,
      ⟨⟨ascii "solver", some (ascii "str"), some (ascii "'highs'")⟩, some (ascii " don't [")⟩]

theorem find?_settings : settings.IsProper ∧ (∀ line ∈ settings.lines.dropLast, line.IsClosed) ∧
    find? settings.source settings.name .type =
      some ⟨settings.lines.map (·.field.parameter), none⟩ := by
  have h : settings.IsProper :=
    ⟨by decide, by decide, by decide +kernel, by decide +kernel, by decide, by decide +kernel,
      by decide, by decide⟩
  have hc : ∀ line ∈ settings.lines.dropLast, line.IsClosed := by decide +kernel
  obtain ⟨parameters, hfind, hiff⟩ := find?_fields h
  exact ⟨h, hc, hiff.2 hc ▸ hfind⟩

def apostrophe : FieldClass where
  name := ascii "C"
  bases := none
  blanks := ascii "    "
  lines := [⟨⟨ascii "a", some (ascii "int"), none⟩, some (ascii " don't")⟩,
    ⟨⟨ascii "b", some (ascii "str"), none⟩, none⟩]

/-- The line below an open literal is taken for a part of the annotation. -/
theorem find?_apostrophe : apostrophe.IsProper ∧
    find? apostrophe.source apostrophe.name .type =
      some
        ⟨[⟨ascii "a", some (ascii "int  " ++ lineFeed :: ascii "    b: str"), none, true⟩], none⟩ ∧
    find? apostrophe.source apostrophe.name .type ≠
      some ⟨apostrophe.lines.map (·.field.parameter), none⟩ := by
  have hfind : find? apostrophe.source apostrophe.name .type =
      some ⟨[⟨ascii "a", some (ascii "int  " ++ lineFeed :: ascii "    b: str"), none, true⟩],
        none⟩ := by
    decide +kernel
  refine ⟨⟨by decide, by decide, by decide +kernel, by decide +kernel, by decide, by decide +kernel,
    by decide, by decide⟩, hfind, ?_⟩
  rw [hfind]
  decide

end FieldClass

end Signature

end ManifestScan
