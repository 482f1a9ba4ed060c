import ManifestScan.Proofs.Listing.Calls
import ManifestScan.Proofs.Listing.Stream
import ManifestScan.Proofs.Outline.Path

namespace ManifestScan

inductive PlainLines : List Token → Prop
  | nil : PlainLines []
  | line {first line : Token} {tokens others : List Token}
    (hf : first.kind ∉ [.at, .asyncWord, .defWord, .classWord])
    (hp : ∀ token ∈ first :: tokens, token.kind.isPlain = true) (hl : line.kind = .newline)
    (h : PlainLines others) : PlainLines (first :: (tokens ++ line :: others))

theorem PlainLines.ne_endOfFile {tokens : List Token} (h : PlainLines tokens) :
    ∀ token ∈ tokens, token.kind ≠ .endOfFile := by
  induction h with
  | nil => exact nofun
  | @line first line tokens others _ hp hl _ ih =>
    have ht : ∀ token ∈ first :: tokens, token.kind ≠ .endOfFile := by
      intro token hm he
      have := hp token hm
      rw [he] at this
      cases this
    intro token hm
    rw [← List.cons_append, List.mem_append] at hm
    rcases hm with hm | hm
    · exact ht token hm
    · rcases List.mem_cons.1 hm with rfl | hm
      · simp [hl]
      · exact ih token hm

namespace Cursor

/-- Plain lines leave nothing in a block. -/
theorem block_plainLines {tokens : List Token} (hl : PlainLines tokens) {cursor : Cursor}
    {more : List Token} (outermost : Bool) (h : cursor.rest = tokens ++ more) :
    ∃ next, cursor.Moved next more ∧
      (block outermost [] cursor).value = (block outermost [] next).value ∧
      (block outermost [] cursor).next = (block outermost [] next).next := by
  induction hl generalizing cursor with
  | nil => exact ⟨cursor, .refl h, rfl, rfl⟩
  | @line first line tokens others hf hp hn _ ih =>
    have hfirst := hp first (by simp)
    simp only [TokenKind.isPlain, Bool.and_eq_true, Bool.not_eq_true'] at hfirst
    have h : cursor.rest = (first :: tokens) ++ line :: (others ++ more) := by
      rw [h]
      simp
    obtain ⟨hv, hx⟩ := block_statement h outermost hfirst.1 hf
    obtain ⟨hs, hm⟩ := statement_plain h hn hp
    obtain ⟨next, hm', hv', hx'⟩ := ih hm.rest_eq
    refine ⟨next, hm.trans hm', ?_, ?_⟩
    · rw [hv, hs, hv']
      rfl
    · rw [hx, hx']

end Cursor

namespace Listing

open Cursor Lexeme

theorem ofWord_words : TokenKind.ofWord (ascii "def") = .defWord ∧
    TokenKind.ofWord (ascii "return") = .returnWord ∧
    TokenKind.ofWord (ascii "Package") = .identifier ∧
    TokenKind.ofWord (ascii "plugins") = .identifier := by
  decide

/-- The tokens of a header. -/
theorem tokensOf_headerLexemes (function : Bytes) (offset : Nat) (location : Location) :
    ∃ keyword name first last colon : Token,
      tokensOf offset location (headerLexemes function) = [keyword, name, first, last, colon] ∧
        keyword.kind = .defWord ∧ name.kind = TokenKind.ofWord function ∧ name.text = function ∧
        first.kind = .leftParen ∧ last.kind = .rightParen ∧ colon.kind = .colon :=
  ⟨_, _, _, _, _, rfl, ofWord_words.1, rfl, rfl, rfl, rfl, rfl⟩

/-- The statement below the header. -/
theorem statement_body {entries : List Entry} {items : List Lexeme}
    (hl : ∀ offset location,
      ListsCalls (tokensOf offset location items) (Entry.registrations offset entries))
    {cursor : Cursor} {offset : Nat} {location : Location} {line : Token} {more : List Token}
    (h : cursor.rest = tokensOf offset location (bodyLexemes items) ++ line :: more)
    (he : line.kind = .newline) :
    ∃ call, cursor.statement.value = [call] ∧ call.callee = ascii "Package" ∧
      List.Forall₂ Registration.Is (Entry.registrations (offset + openingWords.length) entries)
        call.nested ∧
      cursor.Moved cursor.statement.next more := by
  have ho : openingLexemes.flatMap Lexeme.text = openingWords := (lexes_openingWords []).text_eq
  obtain ⟨-, hr, hp, hk⟩ := ofWord_words
  unfold bodyLexemes at h
  rw [tokensOf_append, ho, tokensOf_append] at h
  generalize location.after openingWords = behind at h
  have hi := hl (offset + openingWords.length) behind
  generalize tokensOf (offset + openingWords.length) behind items = inner at h hi
  simp only [openingLexemes, closingLexemes, tokensOf, tokenAt?, ofWord, blank, Option.toList_some,
    Option.toList_none, List.nil_append, List.append_assoc, List.cons_append] at h
  exact statement_list hi h hr hp rfl hk rfl rfl rfl rfl he

/-- A function whose block is the statement of a listing. -/
theorem block_function {entries : List Entry} {items : List Lexeme}
    (hl : ∀ offset location,
      ListsCalls (tokensOf offset location items) (Entry.registrations offset entries))
    {function : Bytes} (hf : TokenKind.ofWord function = .identifier)
    {cursor : Cursor} {offset below : Nat} {start first : Location}
    {line indent last dedent : Token}
    (h : cursor.rest = tokensOf offset start (headerLexemes function) ++ line :: indent ::
      (tokensOf below first (bodyLexemes items) ++ [last, dedent]))
    (he : line.kind = .newline) (hi : indent.kind = .indent) (hn : last.kind = .newline)
    (hd : dedent.kind = .dedent) :
    ∃ definition call, (block true [] cursor).value.definitions = [definition] ∧
      definition.kind = .function ∧ definition.name = function ∧ definition.calls = [call] ∧
      call.callee = ascii "Package" ∧
      List.Forall₂ Registration.Is (Entry.registrations (below + openingWords.length) entries)
        call.nested ∧
      cursor.Moved (block true [] cursor).next [] := by
  obtain ⟨word, tail, hw, hk⟩ :
      ∃ word tail, tokensOf below first (bodyLexemes items) = word :: tail ∧
      word.kind = .returnWord := ⟨_, _, rfl, ofWord_words.2.1⟩
  obtain ⟨keyword, name, mark, close, colon, ht, hkd, hkn, hname, hkm, hkc, hkk⟩ :=
    tokensOf_headerLexemes function offset start
  rw [ht] at h
  generalize hbehind : name :: mark :: close :: colon :: line :: indent ::
    (tokensOf below first (bodyLexemes items) ++ [last, dedent]) = behind
  have h : cursor.rest = keyword :: behind := by rw [h, ← hbehind]; rfl
  obtain ⟨hform, hdefinition, hmoved⟩ := @header_function _ _ _ _ _ _ _ _ _ [] [] none []
    ((moved_past cursor keyword behind).rest_eq.trans hbehind.symm) hkd (hkn.trans hf) hkm rfl
    (by rw [hkc]; rfl) .none hkk he hi
  have hkind := congrArg Definition.kind hdefinition
  have htext := congrArg Definition.name hdefinition
  obtain ⟨hv, hx⟩ := (block_keyword h true (.inl hkd)).1 hform
  replace hmoved := (moved_past cursor keyword behind).trans hmoved
  generalize Cursor.header [] keyword (cursor.past keyword behind) = head
    at hv hx hkind htext hmoved
  -- The block below the header: one statement and its end.
  have hrest := hmoved.rest_eq
  rw [hw, List.cons_append] at hrest
  obtain ⟨hvb, hxb⟩ := block_statement hrest false (by rw [hk]; rfl) (by rw [hk]; decide)
  obtain ⟨call, hs, hcallee, hnested, hms⟩ := statement_body hl hmoved.rest_eq hn
  obtain ⟨hvd, hxd⟩ := block_dedent hms.rest_eq [] hd
  rw [hs, hvd] at hvb
  rw [hxd] at hxb
  have hinner := hmoved.trans (hms.trans (moved_past head.next.statement.next dedent []))
  rw [← hxb] at hinner
  obtain ⟨hvn, hxn⟩ := block_nil true [] hinner.rest_eq
  rw [hvb, hvn] at hv
  rw [hxn] at hx
  refine ⟨_, call, congrArg Contents.definitions hv, hkind, htext.trans hname, rfl, hcallee,
    hnested, ?_⟩
  rw [hx]
  exact hinner

/-- The outline of a function behind plain lines. -/
theorem ofTokens_function (source : Bytes) {entries : List Entry} {items : List Lexeme}
    (hl : ∀ offset location,
      ListsCalls (tokensOf offset location items) (Entry.registrations offset entries))
    {function : Bytes} (hf : TokenKind.ofWord function = .identifier) {front : List Token}
    (hp : PlainLines front) {offset below stop : Nat} {start line first last : Location}
    (hh : ∀ token ∈ tokensOf offset start (headerLexemes function), token.kind.isLayout = false)
    (hb : ∀ token ∈ tokensOf (below + 4) first (bodyLexemes items), token.kind.isLayout = false) :
    let parsed := Outline.ofTokens source
      (front ++ (tokensOf offset start (headerLexemes function) ++
        Token.layout .newline below line :: Token.layout .indent (below + 4) first ::
        (tokensOf (below + 4) first (bodyLexemes items) ++ [Token.layout .newline stop last,
          Token.layout .dedent stop last, Token.layout .endOfFile stop last])))
    ∃ definition call, parsed.outline.definitions = [definition] ∧ parsed.faults = [] ∧
      definition.kind = .function ∧ definition.name = function ∧ definition.calls = [call] ∧
      call.callee = ascii "Package" ∧
      List.Forall₂ Registration.Is (Entry.registrations (below + 4 + openingWords.length) entries)
        call.nested := by
  intro parsed
  have hparsed : parsed = Outline.ofTokens source (front ++ _) := rfl
  generalize hrest : tokensOf offset start (headerLexemes function) ++
    Token.layout .newline below line :: Token.layout .indent (below + 4) first ::
      (tokensOf (below + 4) first (bodyLexemes items) ++
        [Token.layout .newline stop last, Token.layout .dedent stop last]) = rest
  -- The first end of file is the last token.
  have hne : ∀ token ∈ front ++ rest, token.kind ≠ .endOfFile := by
    intro token hm he
    rw [List.mem_append] at hm
    rcases hm with hm | hm
    · exact hp.ne_endOfFile token hm he
    · rw [← hrest] at hm
      simp only [List.mem_append, List.mem_cons, List.not_mem_nil, or_false] at hm
      rcases hm with hm | rfl | rfl | hm | rfl | rfl
      · have := hh token hm
        rw [he] at this
        cases this
      · cases he
      · cases he
      · have := hb token hm
        rw [he] at this
        cases this
      · cases he
      · cases he
  obtain ⟨cursor, hcursor, hcr, -, hcf, -⟩ := @ofTokens?_snoc source _
    (.layout .endOfFile stop last) hne rfl
  obtain ⟨next, hm, hv, hx⟩ := block_plainLines hp true hcr
  obtain ⟨definition, call, hd, hk, hn, hcalls, hcallee, hnested, hmoved⟩ := block_function hl hf
    (hm.rest_eq.trans hrest.symm) rfl rfl rfl rfl
  have hall : parsed =
      Outline.ofTokens source (front ++ rest ++ [Token.layout .endOfFile stop last]) := by
    rw [hparsed, ← hrest]
    simp
  unfold Outline.ofTokens at hall
  rw [hcursor] at hall
  rw [hall]
  refine ⟨definition, call, ?_, ?_, hk, hn, hcalls, hcallee, hnested⟩
  · exact (congrArg Contents.definitions hv).trans hd
  · dsimp only
    rw [hx, hmoved.faults_eq, hm.faults_eq, hcf]
    rfl

end Listing

end ManifestScan
