import ManifestScan.Proofs.Signature.ClassLine

namespace ManifestScan

open Lexeme

namespace Signature

namespace Written

variable {written : Written} {inner : List Lexeme} {hint : Option (List Lexeme)}

def source (written : Written) : Bytes :=
  written.header ++ (lineFeed :: (ascii "    pass" ++ [lineFeed]))

def inClass (written : Written) (name : Bytes) : Bytes :=
  ascii "class " ++ (name ++ colon :: lineFeed :: (ascii "    " ++ (written.header ++
    (lineFeed :: (ascii "        pass" ++ [lineFeed])))))

/-- The header's tokens, where the header stands in a source. -/
theorem Reads.headerTokens (h : written.Reads inner hint) (hp : written.IsProper)
    (hk : TokenKind.ofWord written.name = .identifier) {source front back : Bytes}
    (hs : source = front ++ (written.header ++ back)) (location : Location) :
    ∃ start, start = front.length + 4 + written.name.length ∧
      Cursor.HeaderTokens source
        (tokensOf front.length location (headerLexemes written.name inner (resultLexemes hint)))
        written.name ⟨start, start + 1 + written.list.length + 1⟩ written.returns := by
  obtain ⟨keyword, called, first, close, mark, before, behind, ht, hkk, hkc, hn, hkf, ho, hkl,
    hstop, hkm⟩ := tokensOf_header written.name inner (resultLexemes hint) front.length location
  rw [h.list.text_eq] at ht hstop
  have hd : (ascii "def ").length = 4 := by decide
  have hsource : source = (front ++ ascii "def " ++ written.name ++ [leftParen] ++ written.list ++
      [rightParen]) ++ (written.result ++ ([colon] ++ back)) := by
    rw [hs, header]
    simp
  have hreturns := h.returnTokens hp hsource behind
  have hlength : (front ++ ascii "def " ++ written.name ++ [leftParen] ++ written.list ++
      [rightParen]).length =
        front.length + 4 + written.name.length + 1 + written.list.length + 1 := by
    simp only [List.length_append, hd, List.length_singleton]
  rw [hlength] at hreturns
  refine ⟨_, rfl, ?_⟩
  have := Cursor.HeaderTokens.intro hkk (hkc.trans hk) hkf
    (h.list.tokens_balanced (front.length + 4 + written.name.length + 1) before) hkl
    hreturns hkm
  rw [hn, ho, hstop] at this
  rw [ht]
  exact this

/-- The parameters of a definition are read from where they stand. -/
theorem ofFunction_written (hp : written.IsProper)
    (hd : ((Parameter.withoutReceiver written.parameters).map (·.name)).Nodup)
    {source front back : Bytes} (hs : source = front ++ (written.header ++ back)) {start : Nat}
    (hstart : start = front.length + 4 + written.name.length) {definition : Definition}
    (he : definition.parameters = some ⟨start, start + 1 + written.list.length + 1⟩) :
    ofFunction source definition =
      ⟨(Parameter.withoutReceiver written.parameters).map Parameter.Written.parameter,
        definition.returns⟩ := by
  have hsource : source = (front ++ ascii "def " ++ written.name) ++
      ((leftParen :: (written.list ++ [rightParen])) ++ (written.result ++ ([colon] ++ back))) := by
    rw [hs, header]
    simp
  have hfront : start = (front ++ ascii "def " ++ written.name).length := by
    have h4 : (ascii "def ").length = 4 := by decide
    rw [hstart, List.length_append, List.length_append, h4]
  have hslice : slice source start (start + 1 + written.list.length + 1) =
      leftParen :: (written.list ++ [rightParen]) := by
    have := slice_between (front ++ ascii "def " ++ written.name)
      (leftParen :: (written.list ++ [rightParen])) (written.result ++ ([colon] ++ back))
    rw [← hsource, ← hfront, List.length_cons, List.length_append, List.length_singleton] at this
    rw [← this]
    congr 1
    omega
  have hinner : slice (leftParen :: (written.list ++ [rightParen])) 1
      ((leftParen :: (written.list ++ [rightParen])).length - 1) = written.list := by
    rw [List.length_cons, Nat.add_sub_cancel, List.length_append, List.length_singleton,
      Nat.add_comm]
    exact slice_between [leftParen] written.list [rightParen]
  unfold ofFunction
  rw [he, Option.map_some, Option.getD_some]
  have hlength : 1 < (leftParen :: (written.list ++ [rightParen])).length := by simp
  have hlast : (leftParen :: (written.list ++ [rightParen])).getLast? = some rightParen := by
    rw [← List.cons_append, List.getLast?_concat]
  unfold Extent.of
  rw [hslice]
  dsimp only
  rw [if_pos ⟨rfl, hlength, hlast⟩, hinner, list, Parameter.listOf_joinWith hp.parameters hd]

def pass (blanks : Bytes) : IndentedLine := ⟨blanks, ascii "pass", [ofWord (ascii "pass")]⟩

theorem isProper_pass {blanks : Bytes} (hb : ∀ b ∈ blanks, Lexer.isIndentByte b = true) :
    (pass blanks).IsProper := by
  have hw : isIdentifier (ascii "pass") = true := by decide
  refine ⟨hb, fun rest => .word hw (by rfl), ?_, rfl, rfl, fun _ _ => List.cons_ne_nil _ _⟩
  exact ⟨0x70, rfl, by decide, by decide, by decide, by decide⟩

theorem plainLines_pass {blanks : Bytes} (offset : Nat) (location : Location) {line : Token}
    (hl : line.kind = .newline) :
    PlainLines (tokensOf offset location (pass blanks).lexemes ++ [line]) := by
  have hw : TokenKind.ofWord (ascii "pass") = .identifier := by decide
  refine @PlainLines.line _ line [] [] ?_ ?_ hl .nil
  · simp [hw]
  · simp [hw, TokenKind.isPlain, TokenKind.isLayout]

/-- The tokens of a body at the end of a source. -/
theorem stream_pass {blanks : Bytes} (offset : Nat) (location : Location) {indents : List Nat}
    (h : indents.headD 0 < Lexer.indentColumn blanks) :
    ∃ indent body dedent final, indent.kind = .indent ∧ PlainLines body ∧ dedent.kind = .dedent ∧
      IndentedLine.stream offset location indents [pass blanks] =
        indent :: (body ++ dedent :: (List.replicate indents.length dedent ++ [final])) := by
  let content := offset + blanks.length
  let place := location.after blanks
  let stop := content + (ascii "pass").length + 1
  let next := (place.after (ascii "pass")).after [lineFeed]
  refine ⟨.layout .indent content place,
    tokensOf content place (pass blanks).lexemes ++ [.layout .newline stop next],
    .layout .dedent stop next, .layout .endOfFile stop next, rfl, plainLines_pass content place rfl,
    rfl, (@IndentedLine.stream_deeper (pass blanks) [] indents offset location h).trans ?_⟩
  rw [List.append_assoc]
  rfl

def functionLines (written : Written) (inner : List Lexeme) (hint : Option (List Lexeme)) :
    List IndentedLine :=
  [⟨[], written.header, headerLexemes written.name inner (resultLexemes hint)⟩, pass (ascii "    ")]

theorem source_functionLines (written : Written) (inner : List Lexeme)
    (hint : Option (List Lexeme)) :
    IndentedLine.source (written.functionLines inner hint) = written.source := by
  have hpass : ascii "    pass" = ascii "    " ++ ascii "pass" := by decide
  simp [source, IndentedLine.source, functionLines, pass, hpass]

theorem Reads.isProper_functionLines (h : written.Reads inner hint)
    (hn : isIdentifier written.name = true) :
    ∀ line ∈ written.functionLines inner hint, line.IsProper := by
  have hblank : ∀ b ∈ ascii "    ", Lexer.isIndentByte b = true := by decide +kernel
  exact List.forall_mem_cons.2
    ⟨h.isProper hn nofun, List.forall_mem_singleton.2 (isProper_pass hblank)⟩

/-- The outline of a function at the end of a source, behind what stands in front of it. -/
theorem Reads.block_functionLines (h : written.Reads inner hint) (hp : written.IsProper)
    (hk : TokenKind.ofWord written.name = .identifier) {source front : Bytes}
    (hs : source = front ++ written.source) (location : Location) :
    ∃ tokens final,
      IndentedLine.stream front.length location [] (written.functionLines inner hint) =
        tokens ++ [final] ∧
      ∀ cursor : Cursor, cursor.rest = tokens → cursor.source = source → ∀ pending,
        ∃ definition start, start = front.length + 4 + written.name.length ∧
          (Cursor.block true pending cursor).value.definitions = [definition] ∧
          (Cursor.block true pending cursor).next.faults = cursor.faults ∧
          definition.kind = .function ∧ definition.name = written.name ∧
          definition.decorators = pending ∧
          definition.parameters = some ⟨start, start + 1 + written.list.length + 1⟩ ∧
          definition.returns = written.returns ∧ definition.definitions = [] := by
  have hc : 0 < Lexer.indentColumn (ascii "    ") := by decide
  let next := ((location.after []).after written.header).after [lineFeed]
  let line : Token := .layout .newline (front.length + 0 + written.header.length + 1) next
  obtain ⟨indent, body, dedent, final, hi, hb, hd, hpass⟩ := @stream_pass (ascii "    ")
    (front.length + 0 + written.header.length + 1) next [] hc
  let first : IndentedLine :=
    ⟨[], written.header, headerLexemes written.name inner (resultLexemes hint)⟩
  refine ⟨tokensOf front.length location first.lexemes ++ line :: indent :: (body ++ dedent :: []),
    final, ?_, ?_⟩
  · refine (@IndentedLine.stream_same first [pass (ascii "    ")] [] front.length location
      (Nat.lt_irrefl 0)).trans ?_
    refine (congrArg (tokensOf front.length location first.lexemes ++ line :: ·) hpass).trans ?_
    simp
  intro cursor hrest hsource pending
  obtain ⟨start, hstart, hheader⟩ := h.headerTokens hp hk (hsource.trans hs) location
  obtain ⟨definition, next, hm, hv, hx, hkind, hname, hdecorators, hparameters, hreturns,
      hmembers⟩ :=
    Cursor.block_function true pending hheader hb hrest rfl hi hd
  obtain ⟨hnil, hend⟩ := Cursor.block_nil true [] hm.rest_eq
  refine ⟨definition, start, hstart, ?_, ?_, hkind, hname, hdecorators, hparameters, hreturns,
    hmembers⟩
  · rw [hv, hnil]
  · rw [hx, hend, hm.faults_eq]

/-- The outline of a function that stands alone. -/
theorem definitions_source (hp : written.IsProper)
    (hk : TokenKind.ofWord written.name = .identifier) :
    ∃ definition start, start = 4 + written.name.length ∧
      (Script.ofSource written.source).outline.definitions = [definition] ∧
      definition.kind = .function ∧ definition.name = written.name ∧
      definition.parameters = some ⟨start, start + 1 + written.list.length + 1⟩ ∧
      definition.returns = written.returns ∧ definition.definitions = [] := by
  obtain ⟨inner, hint, hr⟩ := hp.exists_reads
  obtain ⟨tokens, final, htokens, hblock⟩ :=
    hr.block_functionLines hp hk (List.nil_append written.source).symm Location.start
  obtain ⟨cursor, hrest, hsource, hdefinitions⟩ := IndentedLine.definitions_source
    (hr.isProper_functionLines hp.name) ⟨Nat.zero_le _, Nat.zero_le _, trivial⟩ htokens
  rw [source_functionLines] at hsource hdefinitions
  obtain ⟨definition, start, hstart, hone, -, hkind, hname, -, hparameters, hreturns, hmembers⟩ :=
    hblock cursor hrest hsource []
  refine ⟨definition, start, ?_, hdefinitions.trans hone, hkind, hname, hparameters, hreturns,
    hmembers⟩
  rw [hstart, List.length_nil, Nat.zero_add]

/-- The tokens of a class with a function in its block. -/
theorem stream_inClass (name : Bytes) {line : IndentedLine} (h : line.blanks = ascii "    ") :
    ∃ (keyword called mark newline deeper newline' indent dedent final : Token)
      (bases body : List Token) (place : Location),
      IndentedLine.stream 0 Location.start []
        [classLine name [] [], line, pass (ascii "        ")] =
        (keyword :: called :: (bases ++ mark :: newline :: deeper ::
          (tokensOf ((classLine name [] []).text.length + 5) place line.lexemes ++
            newline' :: indent :: (body ++ dedent :: [dedent])))) ++ [final] ∧
        (keyword.kind = .classWord ∧ called.kind = TokenKind.ofWord name ∧ called.text = name ∧
          Cursor.BaseTokens bases ∧ mark.kind = .colon) ∧
        (newline.kind = .newline ∧ deeper.kind = .indent ∧ newline'.kind = .newline) ∧
        indent.kind = .indent ∧ PlainLines body ∧ dedent.kind = .dedent := by
  have hc4 : Lexer.indentColumn (ascii "    ") = 4 := by decide
  have hc8 : Lexer.indentColumn (ascii "        ") = 8 := by decide
  have hcolumn : line.column = 4 := by rw [IndentedLine.column, h, hc4]
  let text := (classLine name [] []).text
  let below := ((Location.start.after []).after text).after [lineFeed]
  let content := 0 + 0 + text.length + 1 + line.blanks.length
  let place := below.after line.blanks
  let stop := content + line.text.length + 1
  let next := (place.after line.text).after [lineFeed]
  -- The four columns of indentation and the line feed are in front of the content.
  have hcontent : content = text.length + 5 := by
    have h4 : (ascii "    ").length = 4 := by decide
    simp only [content, h, h4]
    omega
  obtain ⟨keyword, called, mark, bases, hclass, hkk, hkc, htext, hbases, hmark, -⟩ :=
    tokensOf_classLine name .none 0 Location.start
  obtain ⟨indent, body, dedent, final, hi, hb, hd, hpass⟩ := @stream_pass (ascii "        ")
    stop next [line.column] (by rw [hcolumn, hc8]; decide)
  have hline := @IndentedLine.stream_deeper line [pass (ascii "        ")] []
    (0 + 0 + text.length + 1) below (by rw [hcolumn]; decide)
  refine ⟨keyword, called, mark, .layout .newline (0 + 0 + text.length + 1) below,
    .layout .indent content place, .layout .newline stop next, indent, dedent, final, bases, body,
    place, ?_, ⟨hkk, hkc, htext, hbases, hmark⟩, ⟨rfl, rfl, rfl⟩, hi, hb, hd⟩
  rw [← hcontent]
  refine (@IndentedLine.stream_same (classLine name [] []) [line, pass (ascii "        ")] [] 0
    Location.start (Nat.lt_irrefl 0)).trans ?_
  refine (congrArg (tokensOf 0 Location.start (classLine name [] []).lexemes ++ _ :: ·) (hline.trans
    (congrArg (fun tokens => _ :: (_ ++ _ :: tokens)) hpass))).trans ?_
  rw [hclass]
  simp only [List.length_singleton, List.replicate_one, List.cons_append, List.append_assoc,
    List.nil_append]
  rfl

/-- The outline of a class with a function. -/
theorem definitions_inClass (hp : written.IsProper)
    (hk : TokenKind.ofWord written.name = .identifier) {name : Bytes}
    (hn : isIdentifier name = true) (hc : TokenKind.ofWord name = .identifier) :
    ∃ definition member front start,
      (∃ back, written.inClass name = front ++ (written.header ++ back)) ∧
      start = front.length + 4 + written.name.length ∧
      (Script.ofSource (written.inClass name)).outline.definitions = [definition] ∧
      definition.kind = .type ∧ definition.name = name ∧ definition.definitions = [member] ∧
      member.kind = .function ∧ member.name = written.name ∧
      member.parameters = some ⟨start, start + 1 + written.list.length + 1⟩ := by
  obtain ⟨inner, hint, hr⟩ := hp.exists_reads
  have hb4 : ∀ b ∈ ascii "    ", Lexer.isIndentByte b = true := by decide +kernel
  have hb8 : ∀ b ∈ ascii "        ", Lexer.isIndentByte b = true := by decide +kernel
  let line : IndentedLine :=
    ⟨ascii "    ", written.header, headerLexemes written.name inner (resultLexemes hint)⟩
  let front := (classLine name [] []).text ++ ([lineFeed] ++ ascii "    ")
  let back := lineFeed :: (ascii "        pass" ++ [lineFeed])
  have hlines :
      ∀ other ∈ [classLine name [] [], line, pass (ascii "        ")], other.IsProper := by
    simp only [List.forall_mem_cons]
    exact ⟨isProper_classLine .none hn, hr.isProper hp.name hb4, isProper_pass hb8,
      List.forall_mem_nil _⟩
  have hcolumns : Lexer.indentColumn (ascii "    ") ≤ Lexer.indentColumn (ascii "        ") := by
    decide
  have hs : written.inClass name =
      IndentedLine.source [classLine name [] [], line, pass (ascii "        ")] := by
    have hpass : ascii "        pass" = ascii "        " ++ ascii "pass" := by decide
    simp [inClass, IndentedLine.source, classLine, line, pass, hpass]
  have hsource : written.inClass name = front ++ (written.header ++ back) := by
    simp [inClass, front, back, classLine]
  have hfront : front.length = (classLine name [] []).text.length + 5 := by
    have h4 : (ascii "    ").length = 4 := by decide
    simp [front, h4]
  obtain ⟨keyword, called, mark, newline, deeper, newline', indent, dedent, final, bases, body,
    place, htokens, ⟨hkk, hkc, htext, hbases, hkm⟩, ⟨hl, hi, hl'⟩, hi', hb, hd⟩ :=
      @stream_inClass name line rfl
  obtain ⟨cursor, hrest, hcursor, hdefinitions⟩ := IndentedLine.definitions_source hlines
    ⟨Nat.zero_le _, Nat.zero_le _, hcolumns, trivial⟩ htokens
  obtain ⟨definition, below, hbelow, hv, hkind, hname, -, -, hmembers⟩ :=
    Cursor.block_class true hrest hkk (hkc.trans hc) hbases hkm hl hi
  have hbelowSource : below.source = front ++ (written.header ++ back) := by
    rw [hbelow.source_eq, hcursor, ← hs, hsource]
  obtain ⟨start, hstart, hheader⟩ := hr.headerTokens hp hk hbelowSource place
  rw [hfront] at hheader
  obtain ⟨member, next, hnext, hvm, hxm, hmkind, hmname, -, hmparameters, -, -⟩ :=
    Cursor.block_function false [] hheader hb hbelow.rest_eq hl' hi' hd
  -- Both blocks are closed at once.
  obtain ⟨hvd, hxd⟩ := Cursor.block_dedent hnext.rest_eq [] hd
  obtain ⟨hnil, -⟩ := Cursor.block_nil true [] (Cursor.moved_past next dedent []).rest_eq
  rw [hxm, hxd, hnil] at hv
  rw [hvm, hvd] at hmembers
  refine ⟨definition, member, front, start, ⟨back, hsource⟩, hstart, ?_, hkind, hname.trans htext,
    hmembers, hmkind, hmname, hmparameters⟩
  rw [hs, hdefinitions, hv]

theorem withoutReceiver_eq (h : ∀ first ∈ written.parameters.head?,
    Parameter.isReceiver first.name = false) :
    Parameter.withoutReceiver written.parameters = written.parameters := by
  unfold Parameter.withoutReceiver
  cases hf : written.parameters.head? with
  | none => rfl
  | some first =>
    rw [Option.map_some, Option.any_some, h first hf]
    rfl

def constructor (written : Written) : Written :=
  ⟨ascii "__init__", ⟨ascii "self", none, none⟩ :: written.parameters, written.returns⟩

theorem IsProper.constructor (h : written.IsProper) : written.constructor.IsProper := by
  have hname : isIdentifier (ascii "__init__") = true := by decide
  have hself : isIdentifier (ascii "self") = true := by decide
  refine ⟨hname, List.forall_mem_cons.2 ⟨?_, h.parameters⟩, h.returns⟩
  exact ⟨⟨hself, nofun, nofun⟩, nofun, nofun⟩

/-- A signature that is written as a function, or in the constructor of a class, is found as
it is written. -/
theorem find?_written (hp : written.IsProper)
    (hk : TokenKind.ofWord written.name = .identifier)
    (hd : (written.parameters.map (·.name)).Nodup)
    (hr : ∀ first ∈ written.parameters.head?, Parameter.isReceiver first.name = false) :
    (∀ kind, find? written.source written.name kind =
      some ⟨written.parameters.map Parameter.Written.parameter, written.returns⟩) ∧
      find? (written.constructor.inClass written.name) written.name .type =
        some ⟨written.parameters.map Parameter.Written.parameter, none⟩ := by
  constructor
  · intro kind
    obtain ⟨definition, start, hstart, hone, hform, hname, hparameters, hreturns, hmembers⟩ :=
      definitions_source hp hk
    have hall := withoutReceiver_eq hr
    have hread := @ofFunction_written written hp (hall.symm ▸ hd) written.source []
      (lineFeed :: (ascii "    pass" ++ [lineFeed])) rfl start
      (by rw [hstart, List.length_nil, Nat.zero_add]) definition hparameters
    rw [hall, hreturns] at hread
    rw [← hname, find?_single hone hmembers, hform, ← hread]
  · have hinit : TokenKind.ofWord (ascii "__init__") = .identifier := by decide
    obtain ⟨definition, member, front, start, ⟨back, hs⟩, hstart, hone, hform, hname, hmembers,
      hkind, hcalled, hparameters⟩ := definitions_inClass hp.constructor hinit hp.name hk
    have hall : Parameter.withoutReceiver written.constructor.parameters = written.parameters :=
      if_pos rfl
    have hread := ofFunction_written hp.constructor (hall.symm ▸ hd) hs hstart hparameters
    rw [hall] at hread
    have hfind := find?_first hone
    rw [hform, hname] at hfind
    have hmember : definition.definitions.find? (fun member =>
        member.kind == .function && member.name == ascii "__init__") = some member := by
      rw [hmembers, List.find?_cons_of_pos]
      rw [hkind, hcalled]
      rfl
    rw [hfind, ofClass, hmember]
    dsimp only
    rw [hread]

/-- Nested brackets, literals with commas and brackets, and signs of other kinds. -/
def sample : Written where
  name := ascii "load"
  parameters :=
    [⟨ascii "path", some (ascii "dict[str, list[int]]"),
        some (ascii "key(\"a, ')\", lambda x: x == 1)")⟩,
      ⟨ascii "def_", none, some (ascii "1.5")⟩,
      ⟨ascii "sep", some (ascii "Literal[',', '# =']"), none⟩]
  returns := some (ascii "str | None")

theorem isProper_sample : sample.IsProper :=
  ⟨by decide, by decide +kernel, by decide +kernel⟩

theorem find?_sample : sample.IsProper ∧ TokenKind.ofWord sample.name = .identifier ∧
    (sample.parameters.map (·.name)).Nodup ∧
    (∀ first ∈ sample.parameters.head?, Parameter.isReceiver first.name = false) ∧
    find? sample.source sample.name .type =
      some ⟨sample.parameters.map Parameter.Written.parameter, sample.returns⟩ := by
  have hk : TokenKind.ofWord sample.name = .identifier := by decide
  have hd : (sample.parameters.map (·.name)).Nodup := by decide
  have hr : ∀ first ∈ sample.parameters.head?, Parameter.isReceiver first.name = false := by decide
  exact ⟨isProper_sample, hk, hd, hr, (find?_written isProper_sample hk hd hr).1 .type⟩

end Written

end Signature

end ManifestScan
