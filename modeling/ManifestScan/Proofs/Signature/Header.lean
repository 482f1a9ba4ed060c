import ManifestScan.Proofs.Outline.Header
import ManifestScan.Proofs.Listing.Block
import ManifestScan.Proofs.Lexing.Indented
import ManifestScan.Proofs.Signature.Parameter

namespace ManifestScan

open Lexeme

/-- Where no colon stands outside the brackets of a text, none does among its tokens. -/
theorem colonsInside_tokensOf {text : Bytes} {lexemes : List Lexeme} (h : Lexes [] text lexemes)
    (hi : ∀ lexeme ∈ lexemes, lexeme.IsInline)
    (hp : ∀ piece ∈ codePieces text, piece.isPlain = true)
    {depth next place : Nat} (ht : Turn.through depth (turnsOf lexemes) = some next)
    (hn : Bracket.positionOf? colon depth place (codePieces text) = none) (offset : Nat)
    (location : Location) : Token.ColonsInside depth (tokensOf offset location lexemes) := by
  induction h generalizing depth place offset location with
  | nil => trivial
  | @cons b front text lexeme others hr he hs _ ih =>
    obtain ⟨hlexeme, hothers⟩ := List.forall_mem_cons.1 hi
    obtain ⟨found, hfound, hcover⟩ := hs.pieces
    rw [List.append_nil] at hfound
    have hsplit := hfound text rfl
    rw [hsplit] at hp hn
    obtain ⟨hpf, hpo⟩ := List.forall_mem_append.1 hp
    rw [turnsOf_cons, Turn.through_append] at ht
    obtain ⟨middle, hm, ht⟩ := Option.bind_eq_some_iff.1 ht
    have hrest := hn
    rw [Bracket.positionOf?_through hpf (hcover.turns_eq ▸ hm) (Bracket.positionOf?_front hpf hn)]
      at hrest
    have htail := ih hothers hpo ht hrest (offset + lexeme.text.length) (location.after lexeme.text)
    rw [tokensOf]
    cases hlexeme with
    | blank =>
      obtain rfl : depth = middle := Option.some.inj hm
      exact htail
    | @token kind shown =>
      have hd := @TokenKind.depthAfter_of_through _ 0 _ _ hm
      rw [Nat.zero_add, Nat.zero_add] at hd
      -- A colon outside of the brackets would be found in the text.
      refine ⟨?_, ?_⟩
      · rintro rfl rfl
        obtain rfl := (shown_of_read hr).eq_colon rfl
        rw [← hsplit, List.singleton_append, Piece.cut_byte (by decide) (by decide),
          Bracket.positionOf?, if_pos ⟨rfl, rfl⟩] at hn
        cases hn
      · show Token.ColonsInside (kind.depthAfter depth) _
        rw [hd]
        exact htail

theorem slice_between (front text back : Bytes) :
    slice (front ++ (text ++ back)) front.length (front.length + text.length) = text := by
  rw [slice, List.drop_left, Nat.add_sub_cancel_left, List.take_left]

namespace Signature

structure Written where
  name : Bytes
  parameters : List Parameter.Written
  returns : Option Bytes

namespace Written

def list (written : Written) : Bytes :=
  joinWith (ascii ", ") (written.parameters.map Parameter.Written.text)

/-- What stands between the parameters and the colon. -/
def result (written : Written) : Bytes := written.returns.elim [] (ascii " -> " ++ ·)

def header (written : Written) : Bytes :=
  ascii "def " ++ (written.name ++ leftParen :: (written.list ++ rightParen ::
    (written.result ++ [colon])))

structure IsProper (written : Written) : Prop where
  name : isIdentifier written.name = true
  parameters : ∀ parameter ∈ written.parameters, parameter.IsListed
  returns : ∀ hint ∈ written.returns, IsExpression hint ∧ outerPosition? colon hint = none

theorem tokensOf_token (kind : TokenKind) (text : Bytes) (offset : Nat) (location : Location) :
    tokensOf offset location [⟨.token kind, text⟩] =
      [⟨kind, text, offset, location, location.after text⟩] := rfl

def callLexemes (name : Bytes) : List Lexeme :=
  [ofWord (ascii "def"), blank, ofWord name, ⟨.token .leftParen, [leftParen]⟩]

theorem tokensOf_call (name : Bytes) (offset : Nat) (location : Location) :
    ∃ keyword called first : Token,
      tokensOf offset location (callLexemes name) = [keyword, called, first] ∧
        keyword.kind = .defWord ∧ called.kind = TokenKind.ofWord name ∧ called.text = name ∧
        first.kind = .leftParen ∧ first.offset = offset + 4 + name.length :=
  ⟨_, _, _, rfl, Listing.ofWord_words.1, rfl, rfl, rfl, rfl⟩

def headerLexemes (name : Bytes) (inner result : List Lexeme) : List Lexeme :=
  callLexemes name ++ (inner ++
    ([⟨.token .rightParen, [rightParen]⟩] ++ (result ++ [⟨.token .colon, [colon]⟩])))

/-- The tokens of a header, with those of its parameters and of its annotation where they stand. -/
theorem tokensOf_header (name : Bytes) (inner result : List Lexeme) (offset : Nat)
    (location : Location) :
    ∃ (keyword called first close mark : Token) (start behind : Location),
      tokensOf offset location (headerLexemes name inner result) =
        keyword :: called :: first ::
          (tokensOf (offset + 4 + name.length + 1) start inner ++ close ::
            (tokensOf (offset + 4 + name.length + 1 + (inner.flatMap Lexeme.text).length + 1) behind
              result ++ [mark])) ∧
        keyword.kind = .defWord ∧ called.kind = TokenKind.ofWord name ∧ called.text = name ∧
        first.kind = .leftParen ∧ first.offset = offset + 4 + name.length ∧
        close.kind = .rightParen ∧
        close.stop = offset + 4 + name.length + 1 + (inner.flatMap Lexeme.text).length + 1 ∧
        mark.kind = .colon := by
  obtain ⟨keyword, called, first, ht, hk, hc, hn, hf, ho⟩ := tokensOf_call name offset location
  have hlength : offset + ((callLexemes name).flatMap Lexeme.text).length =
      offset + 4 + name.length + 1 := by
    have h3 : (ascii "def").length = 3 := by decide
    simp only [callLexemes, ofWord, blank, List.flatMap_cons, List.flatMap_nil, List.length_append,
      List.length_cons, List.length_nil, h3]
    omega
  unfold headerLexemes
  rw [tokensOf_append, ht, hlength, tokensOf_append, tokensOf_append, tokensOf_append,
    tokensOf_token, tokensOf_token]
  exact ⟨keyword, called, first, _, _, _, _, rfl, hk, hc, hn, hf, ho, rfl, rfl, rfl⟩

def resultLexemes : Option (List Lexeme) → List Lexeme
  | none => []
  | some hint => blank :: ⟨.token .arrow, ascii "->"⟩ :: blank :: hint

structure Reads (written : Written) (inner : List Lexeme) (hint : Option (List Lexeme)) : Prop where
  list : Inline written.list inner
  returns : List.Forall₂ Inline written.returns.toList hint.toList

theorem IsProper.exists_reads {written : Written} (h : written.IsProper) :
    ∃ inner hint, written.Reads inner hint := by
  obtain ⟨inner, hi⟩ := Parameter.exists_inline_joinWith
    (List.forall_mem_map.2 fun parameter hp =>
      (Parameter.Written.exists_inline (h.parameters parameter hp).toIsProper).imp' _
        fun _ hl => hl.1)
  cases hr : written.returns with
  | none => exact ⟨inner, none, hi, by rw [hr]; exact .nil⟩
  | some hint =>
    obtain ⟨lexemes, hl⟩ := (h.returns hint hr).1.exists_inline
    exact ⟨inner, some lexemes, hi, by rw [hr]; exact .cons hl .nil⟩

theorem lexes_arrow (rest : Bytes) :
    Lexes rest (ascii "->") [⟨.token .arrow, ascii "->"⟩] := by
  have hr : read 0x2D (0x3E :: rest) = ⟨.token .arrow, [0x2D, 0x3E]⟩ := rfl
  exact .one hr rfl (inert_token (fun b hb => List.all_eq_true.1 (by decide) b hb) rfl)

variable {written : Written} {inner : List Lexeme} {hint : Option (List Lexeme)}

theorem Reads.inline_result (h : written.Reads inner hint) :
    Inline written.result (resultLexemes hint) := by
  have hh := h.returns
  unfold result
  cases hr : written.returns with
  | none =>
    rw [hr] at hh
    cases hint with
    | none => exact .nil
    | some lexemes => cases hh
  | some text =>
    rw [hr] at hh
    cases hint with
    | none => cases hh
    | some lexemes =>
      refine @Inline.prepend text lexemes (ascii " -> ") [_, _, _] (fun rest => ?_) ?_ rfl
        (List.forall₂_cons.1 hh).1
      · exact (Lexes.space _).append ((lexes_arrow _).append (.space rest))
      · simp [IsInline.token, isInline_blank]

theorem Reads.lexes_header (h : written.Reads inner hint) (hn : isIdentifier written.name = true)
    (rest : Bytes) :
    Lexes (lineFeed :: rest) written.header
      (headerLexemes written.name inner (resultLexemes hint)) := by
  have hd : ascii "def " = ascii "def" ++ [space] := by decide
  have he : written.header = (ascii "def" ++ ([space] ++ (written.name ++ [leftParen]))) ++
      (written.list ++ ([rightParen] ++ (written.result ++ [colon]))) := by
    rw [header, hd]
    simp
  rw [he]
  apply Lexes.append
  · apply Lexes.append (.word (by decide) (by rfl))
    apply Lexes.append (.space _)
    apply Lexes.append (.word hn (by rfl))
    exact .mark (by rfl) fun h => absurd h (by decide)
  apply Lexes.append (h.list.lexes _ (.cons (by decide) _))
  apply Lexes.append (.mark (by rfl) fun h => absurd h (by decide))
  apply Lexes.append (h.inline_result.lexes _ (.cons (by decide) _))
  exact .colon (by simp [lineFeed, equals])

/-- A header is a line of its own. -/
theorem Reads.isProper (h : written.Reads inner hint) (hn : isIdentifier written.name = true)
    {blanks : Bytes} (hb : ∀ b ∈ blanks, Lexer.isIndentByte b = true) :
    IndentedLine.IsProper ⟨blanks, written.header,
      headerLexemes written.name inner (resultLexemes hint)⟩ := by
  have hinline : ∀ lexeme ∈ headerLexemes written.name inner (resultLexemes hint),
      lexeme.IsInline := by
    unfold headerLexemes callLexemes
    simp only [List.forall_mem_append, List.forall_mem_cons]
    exact ⟨⟨.token _, isInline_blank, .token _, .token _, List.forall_mem_nil _⟩, h.list.isInline,
      ⟨.token _, List.forall_mem_nil _⟩, h.inline_result.isInline, .token _, List.forall_mem_nil _⟩
  have hturns : Turn.through 0
      (turnsOf (headerLexemes written.name inner (resultLexemes hint))) = some 0 := by
    have hcall : turnsOf (callLexemes written.name) = [.opening] := by
      unfold callLexemes
      rw [turnsOf_cons, Listing.turn?_ofWord, turnsOf_cons, turnsOf_cons, Listing.turn?_ofWord]
      rfl
    unfold headerLexemes
    rw [turnsOf_append, turnsOf_append, turnsOf_append, turnsOf_append, hcall]
    show Turn.through 1
        (turnsOf inner ++ ([.closing] ++ (turnsOf (resultLexemes hint) ++ []))) = some 0
    rw [Turn.through_append, Turn.through_add h.list.balanced 1, List.append_nil]
    exact h.inline_result.balanced
  refine ⟨hb, h.lexes_header hn, ?_, flow_of_isInline hinline 0,
    @nestingAfter_of_through _ 0 _ _ hturns, ?_⟩
  · exact ⟨0x64, rfl, by decide, by decide, by decide, by decide⟩
  · intro offset location
    obtain ⟨keyword, called, first, close, mark, start, behind, ht, -⟩ :=
      tokensOf_header written.name inner (resultLexemes hint) offset location
    dsimp only
    rw [ht]
    exact List.cons_ne_nil _ _

/-- The annotation is read from where it stands. -/
theorem Reads.returnTokens (h : written.Reads inner hint) (hp : written.IsProper)
    {source front back : Bytes} (hs : source = front ++ (written.result ++ back))
    (location : Location) :
    Cursor.ReturnTokens source
      (tokensOf front.length location (resultLexemes hint)) written.returns := by
  have hh := h.returns
  cases hr : written.returns with
  | none =>
    rw [hr] at hh
    cases hint with
    | none => exact .none
    | some lexemes => cases hh
  | some text =>
    rw [hr] at hh
    cases hint with
    | none => cases hh
    | some lexemes =>
      obtain ⟨hexpression, hcolon⟩ := hp.returns text hr
      have hinline : Inline text lexemes := (List.forall₂_cons.1 hh).1
      have htrimmed := hexpression.isTrimmed
      have hpart := hexpression.isPart
      have h4 : (ascii " -> ").length = 4 := by decide
      let start := ((location.after [space]).after (ascii "->")).after [space]
      have htokens : tokensOf front.length location (resultLexemes (some lexemes)) =
          ⟨.arrow, ascii "->", front.length + 1, location.after [space],
            (location.after [space]).after (ascii "->")⟩ ::
              tokensOf (front.length + 4) start lexemes := rfl
      obtain ⟨first, others, hf, hfirst⟩ :=
        head?_tokensOf htrimmed hinline.text_eq hinline.isInline (front.length + 4) start
      obtain ⟨before, last, hl, hlast⟩ :=
        getLast?_tokensOf htrimmed hinline.text_eq hinline.isInline (front.length + 4) start
      have hslice : slice source first.offset last.stop = text := by
        have hsource : source = (front ++ ascii " -> ") ++ (text ++ back) := by
          rw [hs, result, hr]
          simp
        have := slice_between (front ++ ascii " -> ") text back
        rw [List.length_append, h4] at this
        rw [hsource, hfirst, hlast, this]
      -- The header is cut at a colon outside brackets, and the annotation has none.
      unfold outerPosition? at hcolon
      rw [hpart.pieces_eq] at hcolon
      have hinside := colonsInside_tokensOf (hinline.lexes [] .nil) hinline.isInline hpart.isPlain
        hinline.balanced hcolon (front.length + 4) start
      have hlt : first.offset < last.stop := by
        have := List.length_pos_iff.2 htrimmed.ne_nil
        omega
      rw [htokens, ← hslice]
      refine .some rfl (hinline.tokens_not_layout _ _)
        (hinline.tokens_balanced _ _) hinside ?_ ?_ hlt
      · rw [hf]
        rfl
      · rw [hl, List.getLast?_concat]

end Written

end Signature

end ManifestScan
