import ManifestScan.Proofs.Lexing.Chain
import ManifestScan.Proofs.Listing.Tokens

namespace ManifestScan

namespace Lexes

open Lexeme

theorem colon {rest : Bytes} (hr : rest.head? ≠ some equals) :
    Lexes rest [colon] [⟨.token .colon, [ManifestScan.colon]⟩] := by
  have h : read ManifestScan.colon rest = unlessAssigned .colon [ManifestScan.colon] rest := rfl
  refine .one (h.trans ?_) rfl (inert_token (.cons (by decide) nofun) rfl)
  exact if_neg hr

theorem equals {rest : Bytes} (hr : rest.head? ≠ some equals) :
    Lexes rest [equals] [⟨.token .equals, [ManifestScan.equals]⟩] := by
  have h : read ManifestScan.equals rest = unlessAssigned .equals [ManifestScan.equals] rest := rfl
  refine .one (h.trans ?_) rfl (inert_token (.cons (by decide) nofun) rfl)
  exact if_neg hr

end Lexes

/-- A token without text. -/
def Token.layout (kind : TokenKind) (offset : Nat) (location : Location) : Token :=
  ⟨kind, [], offset, location, location⟩

namespace Lexeme

def ofWord (word : Bytes) : Lexeme := ⟨.token (TokenKind.ofWord word), word⟩

def blank : Lexeme := ⟨.filler, [space]⟩

theorem flow_append (nesting : Nat) (lexemes others : List Lexeme) :
    flow nesting (lexemes ++ others) =
      (flow nesting lexemes && flow (nestingAfter nesting lexemes) others) := by
  induction lexemes generalizing nesting with
  | nil => rfl
  | cons lexeme lexemes ih =>
    rw [List.cons_append]
    simp only [flow, nestingAfter]
    cases lexeme.kind <;> simp [ih, Bool.and_assoc]

theorem nestingAfter_append (nesting : Nat) (lexemes others : List Lexeme) :
    nestingAfter nesting (lexemes ++ others) =
      nestingAfter (nestingAfter nesting lexemes) others := by
  induction lexemes generalizing nesting with
  | nil => rfl
  | cons lexeme lexemes ih =>
    rw [List.cons_append, nestingAfter_cons, ih, nestingAfter_cons nesting lexeme lexemes]

end Lexeme

namespace Lexer

open Lexeme

variable {lexer : Lexer}

theorem not_indent_of_startsWord : ∀ b, startsWord b = true →
    isIndentByte b = false ∧ b ≠ carriageReturn ∧ b ≠ lineFeed ∧ b ≠ hash := by
  decide +kernel

/-- A line with content settles the indentation. -/
theorem run_content (hs : lexer.atLineStart = true) (hn : lexer.nesting = 0) {blanks : Bytes}
    {b : UInt8} {rest : Bytes} (hb : ∀ c ∈ blanks, isIndentByte c = true)
    (hi : isIndentByte b = false ∧ b ≠ carriageReturn ∧ b ≠ lineFeed ∧ b ≠ hash)
    (hr : lexer.rest = blanks ++ b :: rest) :
    lexer.run = ((lexer.skip blanks).settle (indentColumn blanks)).run := by
  have ht : lexer.rest.takeWhile isIndentByte = blanks := by
    rw [hr, List.takeWhile_append_of_pos hb, List.takeWhile_cons_of_neg (by simp [hi.1]),
      List.append_nil]
  have hd : (lexer.skip blanks).rest = b :: rest := by
    rw [rest_skip, hr, List.drop_left]
  have he : lexer.readIndentation = (lexer.skip blanks).settle (indentColumn blanks) := by
    unfold readIndentation
    rw [ht]
    dsimp only
    rw [hd]
    dsimp only
    rw [if_neg (fun h => hi.2.1 h.1), if_neg hi.2.2.1, if_neg hi.2.2.2]
  obtain ⟨c, after, hc⟩ : ∃ c after, lexer.rest = c :: after := by
    rw [hr]
    cases blanks with
    | nil => exact ⟨_, _, rfl⟩
    | cons c blanks => exact ⟨_, _, rfl⟩
  rw [run_cons hc, step, if_pos ⟨hs, hn⟩, he]

/-- A line that starts with a word settles the indentation. -/
theorem run_lineStart (hs : lexer.atLineStart = true) (hn : lexer.nesting = 0) {blanks : Bytes}
    {b : UInt8} {rest : Bytes} (hb : ∀ c ∈ blanks, isIndentByte c = true)
    (hw : startsWord b = true) (hr : lexer.rest = blanks ++ b :: rest) :
    lexer.run = ((lexer.skip blanks).settle (indentColumn blanks)).run :=
  run_content hs hn hb (not_indent_of_startsWord b hw) hr

/-- Behind a token with text the end of a line is a token. -/
theorem run_lineFeed (hs : lexer.atLineStart = false) (hn : lexer.nesting = 0) {rest : Bytes}
    (hr : lexer.rest = lineFeed :: rest) {last : Token} {tokens : List Token}
    (ht : lexer.tokens = last :: tokens) (hl : last.kind.isLayout = false) :
    lexer.run = Lexer.run { lexer with
      rest := rest
      offset := lexer.offset + 1
      location := lexer.location.after [lineFeed]
      atLineStart := true
      tokens := .layout .newline (lexer.offset + 1) (lexer.location.after [lineFeed]) ::
        lexer.tokens } := by
  rw [run_cons hr, step, if_neg (by simp [hs])]
  have hread : read lineFeed rest = ⟨.lineBreak, [lineFeed]⟩ := rfl
  rw [hread]
  simp only [take, skip, hn, if_true, endLine, ht, hl, hr]
  rfl

theorem skip_nil (lexer : Lexer) : lexer.skip [] = lexer := rfl

theorem settle_zero (hi : lexer.indents = []) :
    lexer.settle 0 = { lexer with atLineStart := false, indents := [] } := by
  simp [settle, column, hi, closeBlocks]

theorem settle_pos (hi : lexer.indents = []) {column : Nat} (hc : 0 < column) :
    lexer.settle column = { lexer with
      atLineStart := false
      indents := [column]
      tokens := .layout .indent lexer.offset lexer.location :: lexer.tokens } := by
  simp only [settle, Lexer.column, hi, List.headD_nil]
  rw [if_pos hc]
  rfl

/-- A line that starts with a word, up to the start of the next. -/
theorem run_line {line word rest : Bytes} {lexemes : List Lexeme}
    (hl : Lexes (lineFeed :: rest) line (Lexeme.ofWord word :: lexemes))
    (hw : line.head?.any startsWord = true)
    (hf : flow 0 (Lexeme.ofWord word :: lexemes) = true)
    (hn : nestingAfter 0 (Lexeme.ofWord word :: lexemes) = 0) (offset : Nat) (location : Location)
    (tokens : List Token) :
    let next := (location.after line).after [lineFeed]
    run ⟨line ++ lineFeed :: rest, offset, location, true, 0, [], tokens, []⟩ =
      run ⟨rest, offset + line.length + 1, next, true, 0, [],
        .layout .newline (offset + line.length + 1) next ::
          ((tokensOf offset location (Lexeme.ofWord word :: lexemes)).reverse ++ tokens), []⟩ := by
  intro next
  obtain ⟨b, more, hb⟩ : ∃ b more, line = b :: more := by
    cases line with
    | nil => cases hw
    | cons b more => exact ⟨b, more, rfl⟩
  have hs : startsWord b = true := by
    rw [hb] at hw
    exact hw
  have hd : indentColumn [] = 0 := rfl
  obtain ⟨front, last, ht⟩ : ∃ front last,
      tokensOf offset location (Lexeme.ofWord word :: lexemes) = front ++ [last] := by
    obtain he | ⟨front, last, he⟩ :=
      List.eq_nil_or_concat (tokensOf offset location (Lexeme.ofWord word :: lexemes))
    · cases he
    · exact ⟨front, last, he.trans (List.concat_eq_append ..)⟩
  have hlast : last.kind.isLayout = false := hl.not_layout offset location last (by rw [ht]; simp)
  rw [@run_lineStart _ rfl rfl [] _ _ nofun hs (by rw [hb]; rfl), skip_nil, hd, settle_zero rfl,
    run_lexes hl rfl rfl hf]
  simp only [through, hn]
  rw [ht, List.reverse_append, run_lineFeed rfl rfl rfl rfl hlast]

/-- The lexer reads a text as the tokens and then stands at the start of a line. -/
def Reads (text : Bytes) (tokens : List Token) : Prop :=
  ∀ rest, (start (text ++ rest)).run =
    run ⟨rest, text.length, Location.start.after text, true, 0, [], tokens.reverse, []⟩

theorem reads_nil : Reads [] [] := fun _ => rfl

/-- The end of a source closes the block that is open. -/
theorem finish_block {column : Nat} (hc : 0 < column) {line : Token}
    (hl : line.kind.isLayout = true) (offset : Nat) (location : Location) (tokens : List Token) :
    Lexer.finish ⟨[], offset, location, true, 0, [column], line :: tokens, []⟩ =
      ⟨[], offset, location, true, 0, [], .layout .endOfFile offset location ::
        .layout .dedent offset location :: line :: tokens, []⟩ := by
  unfold finish endLine
  dsimp only
  rw [if_pos hl]
  unfold closeBlocks
  rw [if_pos hc]
  rfl

end Lexer

namespace Listing

open Lexeme

def headerLexemes (function : Bytes) : List Lexeme :=
  [ofWord (ascii "def"), blank, ofWord function, ⟨.token .leftParen, [leftParen]⟩,
    ⟨.token .rightParen, [rightParen]⟩, ⟨.token .colon, [colon]⟩]

def openingLexemes : List Lexeme :=
  [ofWord (ascii "return"), blank, ofWord (ascii "Package"), ⟨.token .leftParen, [leftParen]⟩,
    ofWord (ascii "plugins"), ⟨.token .equals, [equals]⟩, ⟨.token .leftBracket, [0x5B]⟩]

def closingLexemes : List Lexeme :=
  [⟨.token .rightBracket, [0x5D]⟩, ⟨.token .rightParen, [rightParen]⟩]

variable {listing : Listing}

theorem lexes_header (hf : isIdentifier listing.function = true) {rest : Bytes}
    (hr : rest.head? ≠ some equals) :
    Lexes rest listing.header (headerLexemes listing.function) := by
  have he : listing.header = ascii "def" ++ ([space] ++ (listing.function ++
      ([leftParen] ++ ([rightParen] ++ [colon])))) := by
    have hd : ascii "def " = ascii "def" ++ [space] := by decide
    have hp : ascii "():" = [leftParen] ++ ([rightParen] ++ [colon]) := by decide
    rw [header, hd, hp]
    simp only [List.append_assoc]
  rw [he]
  apply Lexes.append (.word (by decide) (by rfl))
  apply Lexes.append (.space _)
  apply Lexes.append (.word hf (by rfl))
  apply Lexes.append (.mark (by rfl) fun h => absurd h (by decide))
  apply Lexes.append (.mark (by rfl) fun h => absurd h (by decide))
  exact .colon hr

def indent : Bytes := [space, space, space, space]

def openingWords : Bytes := ascii "return Package(plugins=["

theorem opening_eq : opening = indent ++ openingWords := by decide

theorem lexes_openingWords (rest : Bytes) : Lexes rest openingWords openingLexemes := by
  have he : openingWords = ascii "return" ++ ([space] ++ (ascii "Package" ++ ([leftParen] ++
      (ascii "plugins" ++ ([equals] ++ [0x5B]))))) := by decide
  rw [he]
  apply Lexes.append (.word (by decide) (by rfl))
  apply Lexes.append (.space _)
  apply Lexes.append (.word (by decide) (by rfl))
  apply Lexes.append (.mark (by rfl) fun h => absurd h (by decide))
  apply Lexes.append (.word (by decide) (by rfl))
  apply Lexes.append (.equals (by simp [equals]))
  exact .mark (by rfl) fun h => absurd h (by decide)

theorem lexes_closing (rest : Bytes) : Lexes rest (ascii "])") closingLexemes := by
  have he : ascii "])" = [0x5D] ++ [rightParen] := by decide
  rw [he]
  apply Lexes.append (.mark (by rfl) fun h => absurd h (by decide))
  exact .mark (by rfl) fun h => absurd h (by decide)

theorem turn?_ofWord (word : Bytes) : (ofWord word).turn? = none :=
  turn?_of_isFlat (isFlat_ofWord word)

theorem turnsOf_headerLexemes (function : Bytes) :
    turnsOf (headerLexemes function) = [.opening, .closing] := by
  rw [headerLexemes, turnsOf_cons, turn?_ofWord, turnsOf_cons, turnsOf_cons, turn?_ofWord]
  rfl

theorem nestingAfter_headerLexemes (function : Bytes) :
    nestingAfter 0 (headerLexemes function) = 0 := by
  have h : Turn.through 0 (turnsOf (headerLexemes function)) = some 0 := by
    rw [turnsOf_headerLexemes]
    rfl
  exact @nestingAfter_of_through _ 0 _ _ h

/-- The line of the header up to the start of the next. -/
theorem run_header (hf : isIdentifier listing.function = true) (rest : Bytes) (offset : Nat)
    (location : Location) (tokens : List Token) :
    let next := (location.after listing.header).after [lineFeed]
    Lexer.run ⟨listing.header ++ lineFeed :: rest, offset, location, true, 0, [], tokens, []⟩ =
      Lexer.run ⟨rest, offset + listing.header.length + 1, next, true, 0, [],
        .layout .newline (offset + listing.header.length + 1) next ::
          ((tokensOf offset location (headerLexemes listing.function)).reverse ++ tokens), []⟩ := by
  have hr : (lineFeed :: rest).head? ≠ some equals := by simp [lineFeed, equals]
  exact Lexer.run_line (lexes_header hf hr) rfl rfl (nestingAfter_headerLexemes _) offset
    location tokens

def list (listing : Listing) : Bytes := listing.entries.flatMap Entry.text ++ listing.lastGap

def bodyLexemes (items : List Lexeme) : List Lexeme :=
  openingLexemes ++ (items ++ closingLexemes)

theorem body_eq (listing : Listing) :
    listing.body = indent ++ (openingWords ++ (listing.list ++ ascii "])")) := by
  rw [body, opening_eq, list]
  simp only [List.append_assoc]

theorem lexes_body {rest : Bytes} {items : List Lexeme}
    (hl : Lexes (ascii "])" ++ rest) listing.list items) :
    Lexes rest (openingWords ++ (listing.list ++ ascii "])")) (bodyLexemes items) := by
  apply Lexes.append (lexes_openingWords _)
  exact Lexes.append hl (lexes_closing rest)

/-- The opening of the list up to what stands in it. -/
theorem run_opening (rest : Bytes) (offset : Nat) (location : Location) (tokens : List Token) :
    Lexer.run ⟨indent ++ (openingWords ++ rest), offset, location, true, 0, [], tokens, []⟩ =
      Lexer.run ⟨rest, offset + 4 + openingWords.length,
        (location.after indent).after openingWords, false, 2, [4],
        (tokensOf (offset + 4) (location.after indent) openingLexemes).reverse ++
          .layout .indent (offset + 4) (location.after indent) :: tokens, []⟩ := by
  have hi : ∀ c ∈ indent, Lexer.isIndentByte c = true := by decide +kernel
  have hc : Lexer.indentColumn indent = 4 := by decide
  have hw : openingWords ++ rest = 0x72 :: (openingWords.tail ++ rest) := by
    have : openingWords = 0x72 :: openingWords.tail := by decide
    rw [← List.cons_append, ← this]
  have hn : nestingAfter 0 openingLexemes = 2 := by decide
  have hs : Lexer.skip ⟨indent ++ (openingWords ++ rest), offset, location, true, 0, [], tokens, []⟩
      indent =
        ⟨openingWords ++ rest, offset + 4, location.after indent, true, 0, [], tokens, []⟩ := by
    unfold Lexer.skip
    dsimp only
    rw [List.drop_left]
    rfl
  have hstart : startsWord 0x72 = true := by decide
  rw [Lexer.run_lineStart rfl rfl hi hstart (by rw [hw]), hs, hc,
    Lexer.settle_pos rfl (by decide), Lexer.run_lexes (lexes_openingWords rest) rfl rfl (by rfl)]
  simp only [Lexer.through, hn]

/-- The last token of the list is its last bracket. -/
theorem tokensOf_closing (items : List Lexeme) (offset : Nat) (location : Location) :
    ∃ front last, tokensOf offset location (items ++ closingLexemes) = front ++ [last] ∧
      last.kind = .rightParen := by
  have hc :
      ∀ offset location, ∃ first last, tokensOf offset location closingLexemes = [first, last] ∧
      last.kind = .rightParen := fun _ _ => ⟨_, _, rfl, rfl⟩
  rw [tokensOf_append]
  obtain ⟨first, last, he, hk⟩ := hc _ _
  rw [he]
  exact ⟨_, last, List.append_cons _ first [last], hk⟩

/-- The line or lines of the body up to the end. -/
theorem run_body {items : List Lexeme} (hl : Lexes (ascii "])" ++ [lineFeed]) listing.list items)
    (ht : Turn.through 0 (turnsOf items) = some 0) (offset : Nat) (location : Location)
    (tokens : List Token) :
    ∃ first last stop,
      (Lexer.run
        ⟨listing.body ++ [lineFeed], offset, location, true, 0, [], tokens, []⟩).finish.tokens =
        .layout .endOfFile stop last :: .layout .dedent stop last :: .layout .newline stop last ::
          ((tokensOf (offset + 4) first (bodyLexemes items)).reverse ++
            .layout .indent (offset + 4) first :: tokens) ∧
      (Lexer.run
        ⟨listing.body ++ [lineFeed], offset, location, true, 0, [], tokens, []⟩).finish.faults =
        [] := by
  have hb : listing.body ++ [lineFeed] =
      indent ++ (openingWords ++ (listing.list ++ ascii "])" ++ [lineFeed])) := by
    rw [body_eq]
    simp only [List.append_assoc]
  have hwords : Lexes [lineFeed] (listing.list ++ ascii "])") (items ++ closingLexemes) :=
    Lexes.append hl (lexes_closing _)
  have hn : nestingAfter 2 items = 2 := @nestingAfter_of_through _ 2 _ _ ht
  have hf : flow 2 items = true := @flow_of_through _ _ _ hl 2 _ _ (by decide) ht
  have hflow : flow 2 (items ++ closingLexemes) = true := by
    rw [flow_append, hf, hn]
    rfl
  have hnesting : nestingAfter 2 (items ++ closingLexemes) = 0 := by
    rw [nestingAfter_append, hn]
    rfl
  have ho : openingLexemes.flatMap Lexeme.text = openingWords := (lexes_openingWords []).text_eq
  -- `first` is where the words of the body start, and `inside` where the list does.
  let first := location.after indent
  let inside := first.after openingWords
  let start := offset + 4 + openingWords.length
  obtain ⟨front, close, hclose, hkind⟩ := tokensOf_closing items start inside
  have hall : tokensOf (offset + 4) first (bodyLexemes items) =
      tokensOf (offset + 4) first openingLexemes ++
        tokensOf start inside (items ++ closingLexemes) := by
    unfold bodyLexemes
    rw [tokensOf_append, ho]
  refine ⟨first, (inside.after (listing.list ++ ascii "])")).after [lineFeed],
    start + (listing.list ++ ascii "])").length + 1, ?_⟩
  rw [hb, run_opening, Lexer.run_lexes hwords rfl rfl hflow]
  simp only [Lexer.through, hnesting]
  rw [hall, hclose, List.reverse_append, List.reverse_append, List.append_assoc,
    Lexer.run_lineFeed rfl rfl rfl rfl (by rw [hkind]; rfl), Lexer.run_nil rfl,
    Lexer.finish_block (by decide) rfl]
  refine ⟨?_, rfl⟩
  simp only [List.reverse_append, List.append_assoc]
  rfl

/-- The tokens of a listing, with those of its preamble in front. -/
theorem tokenize_source {front : List Token} (hp : Lexer.Reads listing.preamble front)
    (hf : isIdentifier listing.function = true) {items : List Lexeme}
    (hl : Lexes (ascii "])" ++ [lineFeed]) listing.list items)
    (ht : Turn.through 0 (turnsOf items) = some 0) :
    ∃ start below first last offset, tokenize listing.source =
      ⟨front ++ (tokensOf listing.preamble.length start (headerLexemes listing.function) ++
        .layout .newline listing.bodyStart below :: .layout .indent (listing.bodyStart + 4) first ::
        (tokensOf (listing.bodyStart + 4) first (bodyLexemes items) ++
          [.layout .newline offset last, .layout .dedent offset last,
            .layout .endOfFile offset last])), []⟩ := by
  let start := Location.start.after listing.preamble
  have hs := hp (listing.header ++ lineFeed :: (listing.body ++ [lineFeed]))
  obtain ⟨first, last, offset, hb, hn⟩ := run_body hl ht listing.bodyStart
    ((start.after listing.header).after [lineFeed])
    (.layout .newline listing.bodyStart ((start.after listing.header).after [lineFeed]) ::
      ((tokensOf listing.preamble.length start (headerLexemes listing.function)).reverse ++
        front.reverse))
  refine ⟨start, (start.after listing.header).after [lineFeed], first, last, offset, ?_⟩
  unfold tokenize source
  dsimp only
  rw [hs, run_header hf]
  unfold bodyStart at hb hn ⊢
  rw [hb, hn]
  simp

end Listing

end ManifestScan
