import ManifestScan.Proofs.Listing.Text

namespace ManifestScan

open Lexeme

namespace Lexer

/-- Lexemes start in the order of the text. -/
theorem offset_tokensOf {text rest : Bytes} {lexemes : List Lexeme} (h : Lexes rest text lexemes)
    (offset : Nat) (location : Location) :
    ∀ token ∈ tokensOf offset location lexemes, token.offset < offset + text.length := by
  induction h generalizing offset location with
  | nil => exact nofun
  | @cons b front text lexeme others _ ht _ _ ih =>
    have hpos : 0 < lexeme.text.length := by rw [ht]; exact Nat.succ_pos _
    intro token hm
    rw [List.length_append]
    rcases List.mem_append.1 hm with hm | hm
    · have := offset_tokenAt? hm
      omega
    · have := ih _ _ token hm
      omega

theorem offset_through {text rest : Bytes} {lexemes : List Lexeme} (h : Lexes rest text lexemes)
    {lexer : Lexer} (ho : ∀ token ∈ lexer.tokens, token.offset < lexer.offset) :
    ∀ token ∈ (lexer.through text rest lexemes).tokens,
      token.offset < (lexer.through text rest lexemes).offset := by
  intro token hm
  unfold through at hm ⊢
  rcases List.mem_append.1 hm with hm | hm
  · exact offset_tokensOf h _ _ token (List.mem_reverse.1 hm)
  · exact Nat.lt_of_lt_of_le (ho token hm) (Nat.le_add_right _ _)

/-- Inside brackets a text of lexemes whose turns are known is passed as a whole. -/
theorem run_through {text rest : Bytes} {lexemes : List Lexeme} (h : Lexes rest text lexemes)
    {lexer : Lexer} (hr : lexer.rest = text ++ rest) (hs : lexer.atLineStart = false)
    {base depth next : Nat} (hb : base ≠ 0) (hn : lexer.nesting = base + depth)
    (ht : Turn.through depth (turnsOf lexemes) = some next) :
    lexer.run = (lexer.through text rest lexemes).run ∧
      (lexer.through text rest lexemes).nesting = base + next := by
  refine ⟨run_lexes h hr hs ?_, ?_⟩
  · rw [hn]
    exact flow_of_through h hb ht
  · show nestingAfter lexer.nesting lexemes = base + next
    rw [hn]
    exact nestingAfter_of_through ht

end Lexer

/-- Of the tokens between two positions only those added there count, and the layout behind the
end of the file has no brackets. -/
theorem turns_between {before future ends : List Token} {start stop : Nat}
    (hb : ∀ token ∈ before, token.offset < start) (hf : ∀ token ∈ future, start ≤ token.offset)
    (he : ∀ token ∈ ends, token.kind.isLayout = true) :
    ((before ++ (future ++ ends)).filter fun token =>
      start ≤ token.offset && token.offset < stop).filterMap Token.turn? =
        (future.filter (·.offset < stop)).filterMap Token.turn? := by
  have hbefore : (before.filter fun token => start ≤ token.offset && token.offset < stop) = [] := by
    rw [List.filter_eq_nil_iff]
    intro token hm
    have := hb token hm
    simp only [Bool.and_eq_true, decide_eq_true_eq]
    omega
  have hends : (ends.filter fun token =>
      start ≤ token.offset && token.offset < stop).filterMap Token.turn? = [] :=
    Token.turns_layout fun token hm => he token (List.mem_of_mem_filter hm)
  have hfuture : (future.filter fun token => start ≤ token.offset && token.offset < stop) =
      future.filter (·.offset < stop) := by
    apply List.filter_congr
    intro token hm
    simp [hf token hm]
  rw [List.filter_append, List.filter_append, List.filterMap_append, List.filterMap_append,
    hbefore, hends, hfuture]
  simp

namespace Entry

/-- The calls are planted in tokens: the parenthesis that closes each call is one of them, and the
bracket tokens among its arguments close each other. -/
def Planted (tokens : List Token) (offset : Nat) : List Entry → Prop
  | [] => True
  | entry :: others =>
    let start := offset + entry.gap.length + entry.callee.length + 1
    let stop := start + entry.arguments.length
    (∃ token ∈ tokens, token.kind = .rightParen ∧ token.offset = stop) ∧
      Turn.through 0 ((tokens.filter fun token =>
        start ≤ token.offset && token.offset < stop).filterMap Token.turn?) = some 0 ∧
      Planted tokens (offset + entry.text.length) others

instance decidablePlanted (tokens : List Token) :
    (offset : Nat) → (entries : List Entry) → Decidable (Planted tokens offset entries)
  | _, [] => .isTrue trivial
  | offset, entry :: others =>
    have := decidablePlanted tokens (offset + entry.text.length) others
    inferInstanceAs (Decidable (_ ∧ _ ∧ _))

/-- A lexer inside the list of a script that it reads without faults. -/
structure Inside (lexer : Lexer) (tokens : List Token) (nesting : Nat) : Prop where
  line : lexer.atLineStart = false
  nesting_eq : lexer.nesting = nesting
  tokens_eq : lexer.run.finish.tokens = tokens.reverse
  faults_eq : lexer.run.finish.faults = []
  before : ∀ token ∈ lexer.tokens, token.offset < lexer.offset

/-- Reading on to the end of some lexemes stays inside. -/
theorem Inside.through {lexer : Lexer} {tokens : List Token} {base depth next : Nat}
    (h : Inside lexer tokens (base + depth)) {text rest : Bytes} {lexemes : List Lexeme}
    (hl : Lexes rest text lexemes) (hr : lexer.rest = text ++ rest) (hb : base ≠ 0)
    (ht : Turn.through depth (turnsOf lexemes) = some next) :
    Inside (lexer.through text rest lexemes) tokens (base + next) := by
  obtain ⟨hrun, hn⟩ := Lexer.run_through hl hr h.line hb h.nesting_eq ht
  exact ⟨h.line, hn, hrun ▸ h.tokens_eq, hrun ▸ h.faults_eq, Lexer.offset_through hl h.before⟩

/-- The arguments of a planted call are whole lexemes. -/
theorem Inside.exists_arguments {lexer : Lexer} {tokens : List Token}
    (h : Inside lexer tokens 3) {text rest : Bytes} (hr : lexer.rest = text ++ rest)
    (hc : ∃ token ∈ tokens, token.kind = .rightParen ∧ token.offset = lexer.offset + text.length)
    (hb : Turn.through 0 ((tokens.filter fun token =>
      lexer.offset ≤ token.offset && token.offset < lexer.offset + text.length).filterMap
        Token.turn?) = some 0) :
    ∃ inner, Lexes rest text inner ∧ Turn.through 0 (turnsOf inner) = some 0 := by
  obtain ⟨future, hfuture, hge⟩ := (Lexer.Precedes.run lexer).tokens
  obtain ⟨ends, hends, hlayout⟩ := Lexer.AddsLayout.finish lexer.run
  have hclean := (Lexer.Precedes.finish lexer.run).faults_nil h.faults_eq
  have hall : tokens = lexer.tokens.reverse ++ (future.reverse ++ ends.reverse) := by
    rw [← List.reverse_reverse tokens, ← h.tokens_eq, hends, hfuture]
    simp
  refine Lexer.exists_lexes (by decide) h.line hr h.nesting_eq hfuture hclean ?_ ?_
  · -- The parenthesis is no token of the past and no layout token of the end.
    obtain ⟨token, hm, hk, hoff⟩ := hc
    refine ⟨token, ?_, hoff⟩
    rw [hall] at hm
    simp only [List.mem_append, List.mem_reverse] at hm
    rcases hm with hm | hm | hm
    · have := h.before token hm
      omega
    · exact hm
    · have := hlayout token hm
      rw [hk] at this
      cases this
  · rwa [hall, turns_between] at hb
    · exact fun token hm => h.before token (List.mem_reverse.1 hm)
    · exact fun token hm => hge token (List.mem_reverse.1 hm)
    · exact fun token hm => hlayout token (List.mem_reverse.1 hm)

/-- Planted calls are made of whole lexemes. -/
theorem lexed_of_planted {entries : List Entry} (he : ∀ entry ∈ entries, entry.Fits) {last : Bytes}
    {tokens : List Token} {lexer : Lexer} (h : Inside lexer tokens 2)
    (hr : lexer.rest = entries.flatMap text ++ last)
    (hp : Planted tokens lexer.offset entries) : Lexed last entries := by
  induction entries generalizing lexer with
  | nil => trivial
  | cons entry others ih =>
    obtain ⟨hc, hb, hp⟩ := hp
    have hfits := he entry (by simp)
    -- The lexer in front of the arguments.
    have hrest : lexer.rest = entry.gap ++ (entry.callee ++ [leftParen]) ++
        (entry.arguments ++ rightParen :: (others.flatMap text ++ last)) := by
      rw [hr, List.flatMap_cons, text, call]
      simp
    have hturns : Turn.through 0 (turnsOf entry.front) = some 1 := by
      rw [turnsOf_front]
      rfl
    have hfront := @Inside.through _ _ 2 0 1 h _ _ _ (lexes_front hfits _) hrest (by decide) hturns
    have hstart : lexer.offset + (entry.gap ++ (entry.callee ++ [leftParen])).length =
        lexer.offset + entry.gap.length + entry.callee.length + 1 := by
      simp only [List.length_append, List.length_singleton]
      omega
    have hoffset : (lexer.through (entry.gap ++ (entry.callee ++ [leftParen]))
        (entry.arguments ++ rightParen :: (others.flatMap text ++ last)) entry.front).offset =
          lexer.offset + entry.gap.length + entry.callee.length + 1 := hstart
    obtain ⟨inner, hl, hi⟩ := hfront.exists_arguments rfl (by rw [hoffset]; exact hc)
      (by rw [hoffset]; exact hb)
    -- The lexer behind the call.
    have hrest : lexer.rest = entry.text ++ (others.flatMap text ++ last) := by
      rw [hr, List.flatMap_cons, List.append_assoc]
    have hwhole := @Inside.through _ _ 2 0 0 h _ _ _ (lexes hfits hl) hrest (by decide)
      (turnsOf_lexemes hi)
    exact ⟨⟨inner, hl, hi⟩, ih (fun other hm => he other (by simp [hm])) hwhole rfl hp⟩

end Entry

namespace Listing

/-- A script whose function returns a package with the calls on one line. -/
def ofCalls (function : Bytes) (calls : List (Bytes × Bytes)) : Listing :=
  ⟨[], function, Entry.separated calls, []⟩

/-- Whether the line with the last bracket looks like a comment. -/
def endsIdle (listing : Listing) : Bool := (lines listing.body).getLast?.any isIdleLine

variable {function : Bytes} {calls : List (Bytes × Bytes)}

theorem fits_separated (hc : ∀ call ∈ calls, call.1 ∈ PluginKind.callees) :
    ∀ entry ∈ Entry.separated calls, entry.Fits := by
  have hgap : ([comma, space] : Bytes).all isGapByte = true := by decide
  cases calls with
  | nil => exact nofun
  | cons call others =>
    intro entry hm
    rcases List.mem_cons.1 hm with rfl | hm
    · exact ⟨hc call (by simp), rfl⟩
    · obtain ⟨other, ho, rfl⟩ := List.mem_map.1 hm
      exact ⟨hc other (by simp [ho]), hgap⟩

/-- The lexer in front of the list. -/
theorem exists_lexer {listing : Listing} (hf : isIdentifier listing.function = true)
    (hp : listing.preamble = []) :
    ∃ lexer : Lexer, (Lexer.start listing.source).run = lexer.run ∧
      lexer.rest = listing.list ++ (ascii "])" ++ [lineFeed]) ∧ lexer.atLineStart = false ∧
      lexer.nesting = 2 ∧ lexer.offset = listing.bodyStart + opening.length ∧
      ∀ token ∈ lexer.tokens, token.offset < lexer.offset := by
  have hstart : Lexer.start listing.source =
      ⟨listing.header ++ lineFeed :: (listing.body ++ [lineFeed]), 0, Location.start, true, 0, [],
        [], []⟩ := by
    rw [source, hp]
    rfl
  have hbody : listing.body ++ [lineFeed] =
      indent ++ (openingWords ++ (listing.list ++ (ascii "])" ++ [lineFeed]))) := by
    rw [body_eq]
    simp only [List.append_assoc]
  have hopening : listing.bodyStart + opening.length =
      0 + listing.header.length + 1 + 4 + openingWords.length := by
    rw [bodyStart, hp, opening_eq, List.length_append, ← Nat.add_assoc]
    rfl
  have hrun := run_header hf (listing.body ++ [lineFeed]) 0 Location.start []
  dsimp only at hrun
  rw [← hstart, hbody, run_opening] at hrun
  refine ⟨_, hrun, rfl, rfl, rfl, hopening.symm, ?_⟩
  -- So far there are the tokens of the opening, of the indentation and of the header.
  intro token hm
  dsimp only at hm ⊢
  rw [List.mem_append, List.mem_reverse] at hm
  rcases hm with hm | hm
  · exact Lexer.offset_tokensOf (lexes_openingWords []) _ _ token hm
  · rcases List.mem_cons.1 hm with rfl | hm
    · exact Nat.lt_add_of_pos_right (by decide)
    · rcases List.mem_cons.1 hm with rfl | hm
      · show 0 + listing.header.length + 1 < _
        omega
      · rw [List.append_nil, List.mem_reverse] at hm
        have := Lexer.offset_tokensOf (@lexes_header _ hf [lineFeed] (by simp [lineFeed, equals]))
          _ _ token hm
        omega

/-- The calls of a script without faults, planted in its tokens, are made of whole lexemes. -/
theorem lexed_of_planted {listing : Listing} (hf : isIdentifier listing.function = true)
    (hp : listing.preamble = []) (he : ∀ entry ∈ listing.entries, entry.Fits)
    (hs : (tokenize listing.source).faults = [])
    (ht : Entry.Planted (tokenize listing.source).tokens (listing.bodyStart + opening.length)
      listing.entries) :
    Entry.Lexed (listing.lastGap ++ (ascii "])" ++ [lineFeed])) listing.entries := by
  obtain ⟨lexer, hrun, hrest, hline, hnesting, hoffset, hbefore⟩ := exists_lexer hf hp
  rw [← hoffset] at ht
  have hinside : Entry.Inside lexer (tokenize listing.source).tokens 2 := by
    refine ⟨hline, hnesting, ?_, ?_, hbefore⟩
    · rw [← hrun]
      exact (List.reverse_reverse _).symm
    · rw [← hrun]
      exact List.reverse_eq_nil_iff.1 hs
  refine Entry.lexed_of_planted he hinside ?_ ht
  rw [hrest, list, List.append_assoc]

/-- Planted calls make a proper listing. -/
theorem proper_ofCalls (hf : isIdentifier function = true)
    (hk : function ∉ TokenKind.keywords.map (·.1)) (hn : calls ≠ [])
    (hc : ∀ call ∈ calls, call.1 ∈ PluginKind.callees)
    (hs : (tokenize (ofCalls function calls).source).faults = [])
    (hp : Entry.Planted (tokenize (ofCalls function calls).source).tokens
      ((ofCalls function calls).bodyStart + opening.length) (ofCalls function calls).entries) :
    (ofCalls function calls).Proper [] := by
  have hword : TokenKind.ofWord function = .identifier := by
    unfold TokenKind.ofWord
    cases hl : TokenKind.keywords.lookup function with
    | none => rfl
    | some kind => exact absurd (List.mem_map_of_mem (mem_of_lookup hl)) hk
  have hentries : (ofCalls function calls).entries ≠ [] := by
    cases calls with
    | nil => exact absurd rfl hn
    | cons call others => exact List.cons_ne_nil _ _
  have hfits := fits_separated hc
  exact ⟨Lexer.reads_nil, .nil, hf, hword, hentries, hfits,
    lexed_of_planted hf rfl hfits hs hp, rfl⟩

/-- Both searches find calls that are planted in a script without faults. A line that starts with a
hash inside a literal ends the block for the search by text, which then finds no end of the list. -/
theorem search_planted (hf : isIdentifier function = true)
    (hk : function ∉ TokenKind.keywords.map (·.1)) (hn : calls ≠ [])
    (hc : ∀ call ∈ calls, call.1 ∈ PluginKind.callees)
    (hs : (tokenize (ofCalls function calls).source).faults = [])
    (hp : Entry.Planted (tokenize (ofCalls function calls).source).tokens
      ((ofCalls function calls).bodyStart + opening.length) (ofCalls function calls).entries)
    (hi : ∀ line ∈ (lines (ofCalls function calls).source).tail,
      isIdleLine line = true ∨ 4 ≤ indentation line) :
    Convention.searchTree ⟨function, ascii "plugins"⟩ (ofCalls function calls).source =
        .ok (ofCalls function calls).registrations ∧
      Convention.searchText ⟨function, ascii "plugins"⟩ (ofCalls function calls).source =
        if (ofCalls function calls).endsIdle then .error (.unclosedList (ascii "plugins") function)
        else .ok (ofCalls function calls).registrations := by
  have hproper := proper_ofCalls hf hk hn hc hs hp
  have hlines : ∀ line ∈ (lines (ofCalls function calls).body).tail,
      isIdleLine line = true ∨ 4 ≤ indentation line := by
    intro line hm
    refine hi line ?_
    have hall : lines (ofCalls function calls).source = lines (ofCalls function calls).header ++
        (lines (ofCalls function calls).body ++ [[]]) :=
      (fields_append _ _ _).trans (congrArg _ (fields_append _ _ _))
    rw [hall]
    cases hh : lines (ofCalls function calls).header with
    | nil => exact absurd hh (fields_ne_nil _ _)
    | cons first more => simp [List.mem_of_mem_tail hm]
  refine ⟨hproper.searchTree _, ?_⟩
  cases hlast : (lines (ofCalls function calls).body).getLast? with
  | none => exact absurd (List.getLast?_eq_none_iff.1 hlast) (fields_ne_nil _ _)
  | some last =>
    have he : (ofCalls function calls).endsIdle = isIdleLine last := by
      rw [endsIdle, hlast]
      rfl
    rw [he]
    by_cases hidle : isIdleLine last = true
    · rw [if_pos hidle]
      exact hproper.searchText_idle nofun nofun hlines hlast hidle
    · rw [if_neg hidle]
      refine hproper.searchText nofun nofun hlines fun other ho => ?_
      rw [hlast] at ho
      cases ho
      simpa using hidle

/-- A list inside a call, brackets in literals and comments, and a call over two lines. -/
theorem search_planted_nested :
    let calls := [(ascii "ParserPlugin", ascii "name=\")\", plugins=[BasePlugin(1)]"),
      (ascii "PluginSpec.utility", ascii "  # ])\n      obj=f[\n        0]")]
    Convention.searchTree ⟨ascii "load", ascii "plugins"⟩ (ofCalls (ascii "load") calls).source =
        .ok (ofCalls (ascii "load") calls).registrations ∧
      Convention.searchText ⟨ascii "load", ascii "plugins"⟩ (ofCalls (ascii "load") calls).source =
        .ok (ofCalls (ascii "load") calls).registrations := by
  intro calls
  have he : (ofCalls (ascii "load") calls).endsIdle = false := by decide +kernel
  have h := @search_planted (ascii "load") calls (by decide +kernel) (by decide +kernel)
    (by decide +kernel) (by decide +kernel) (by decide +kernel) (by decide +kernel)
    (by decide +kernel)
  rwa [he, if_neg (by decide)] at h

/-- A line of a literal that starts with a hash cuts the list short. -/
theorem unclosed_hash :
    let calls := [(ascii "ParserPlugin", ascii "name=\"\"\"x\n    # y\"\"\"")]
    (tokenize (ofCalls (ascii "f") calls).source).faults = [] ∧
      Entry.Planted (tokenize (ofCalls (ascii "f") calls).source).tokens
        ((ofCalls (ascii "f") calls).bodyStart + opening.length)
          (ofCalls (ascii "f") calls).entries ∧
      (∀ line ∈ (lines (ofCalls (ascii "f") calls).source).tail,
        isIdleLine line = true ∨ 4 ≤ indentation line) ∧
      Convention.searchText ⟨ascii "f", ascii "plugins"⟩ (ofCalls (ascii "f") calls).source =
        .error (.unclosedList (ascii "plugins") (ascii "f")) := by
  decide +kernel

end Listing

end ManifestScan
