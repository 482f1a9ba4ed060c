import ManifestScan.Proofs.Lexing.Segment
import ManifestScan.Proofs.Lexing.Word
import ManifestScan.Proofs.Listing.Source
import ManifestScan.Proofs.Text.Lines

namespace ManifestScan

open Lexeme

theorem Lexes.text_eq {text rest : Bytes} {lexemes : List Lexeme} (h : Lexes rest text lexemes) :
    lexemes.flatMap Lexeme.text = text := by
  induction h with
  | nil => rfl
  | cons _ _ _ _ ih => rw [List.flatMap_cons, ih]

theorem tokensOf_append (offset : Nat) (location : Location) (lexemes others : List Lexeme) :
    tokensOf offset location (lexemes ++ others) =
      tokensOf offset location lexemes ++
        tokensOf (offset + (lexemes.flatMap Lexeme.text).length)
          (location.after (lexemes.flatMap Lexeme.text)) others := by
  induction lexemes generalizing offset location with
  | nil => rfl
  | cons lexeme lexemes ih =>
    rw [List.cons_append, tokensOf, ih, tokensOf, List.append_assoc, List.flatMap_cons,
      List.length_append, Nat.add_assoc, Lexer.location_after_append]

theorem turns_tokensOf (offset : Nat) (location : Location) (lexemes : List Lexeme) :
    (tokensOf offset location lexemes).filterMap Token.turn? = turnsOf lexemes := by
  induction lexemes generalizing offset location with
  | nil => rfl
  | cons lexeme lexemes ih =>
    rw [tokensOf, List.filterMap_append, turn?_tokenAt?, ih, turnsOf_cons]

def nameLexemes : List Bytes → List Lexeme
  | [] => []
  | [name] => [⟨.token (TokenKind.ofWord name), name⟩]
  | name :: others =>
    ⟨.token (TokenKind.ofWord name), name⟩ :: ⟨.token .dot, [dot]⟩ :: nameLexemes others

theorem head?_isDigit_of_isIdentifier {name rest : Bytes} (h : isIdentifier name = true) :
    (name ++ rest).head?.any isDigit = false := by
  cases name with
  | nil => cases h
  | cons b name =>
    simp only [isIdentifier, Bool.and_eq_true, Bool.not_eq_true'] at h
    exact h.1

theorem head?_isDigit_joinWith {names : List Bytes} (hn : names ≠ [])
    (hw : ∀ name ∈ names, isIdentifier name = true) (rest : Bytes) :
    (joinWith [dot] names ++ rest).head?.any isDigit = false := by
  cases names with
  | nil => exact absurd rfl hn
  | cons name others =>
    have hi := hw name (by simp)
    by_cases ho : others = []
    · rw [ho, joinWith]
      exact head?_isDigit_of_isIdentifier hi
    · rw [joinWith_cons _ ho, List.append_assoc]
      exact head?_isDigit_of_isIdentifier hi

theorem lexes_dotted {names : List Bytes} {rest : Bytes} (hn : names ≠ [])
    (hw : ∀ name ∈ names, isIdentifier name = true) (hr : endsName rest = true) :
    Lexes rest (joinWith [dot] names) (nameLexemes names) := by
  fun_induction nameLexemes names with
  | case1 => exact absurd rfl hn
  | case2 name => exact .word (hw name (by simp)) hr
  | case3 name others ho ih =>
    have hm : ∀ other ∈ others, isIdentifier other = true := fun other hm => hw other (by simp [hm])
    rw [joinWith_cons _ ho]
    exact (Lexes.word (hw name (by simp)) (by rfl)).append
      ((Lexes.mark (by rfl) fun _ => head?_isDigit_joinWith ho hm rest).append (ih ho hm))

theorem callees_names : ∀ callee ∈ PluginKind.callees,
    joinWith [dot] (fields dot callee) = callee ∧ fields dot callee ≠ [] ∧
      ∀ name ∈ fields dot callee, isIdentifier name = true ∧
        TokenKind.ofWord name = .identifier := by
  decide +kernel

/-- Blanks, line ends and commas part the calls of a listing. -/
def isGapByte (b : UInt8) : Bool := b == space || b == lineFeed || b == comma

def gapLexeme (b : UInt8) : Lexeme :=
  if b = comma then ⟨.token .comma, [b]⟩
  else if b = lineFeed then ⟨.lineBreak, [b]⟩
  else ⟨.filler, [b]⟩

theorem lexes_gap {gap : Bytes} (hg : gap.all isGapByte = true) (rest : Bytes) :
    Lexes rest gap (gap.map gapLexeme) := by
  induction gap with
  | nil => exact .nil
  | cons b gap ih =>
    rw [List.all_cons, Bool.and_eq_true] at hg
    have hb : b = space ∨ b = lineFeed ∨ b = comma := by
      have hb := hg.1
      simp only [isGapByte, Bool.or_eq_true, beq_iff_eq] at hb
      rwa [or_assoc] at hb
    have h : Lexes (gap ++ rest) [b] [gapLexeme b] := by
      obtain rfl | rfl | rfl := hb
      · exact .space _
      · exact .lineFeed _
      · exact .mark (by rfl) fun h => absurd h (by decide)
    exact h.append (ih hg.2)

inductive NameTail : List Token → Bytes → Prop
  | nil : NameTail [] []
  | cons {point name : Token} {tokens : List Token} {suffix : Bytes} (hp : point.kind = .dot)
    (hn : name.kind = .identifier) (h : NameTail tokens suffix) :
    NameTail (point :: name :: tokens) (dot :: (name.text ++ suffix))

inductive ListsCalls : List Token → List Registration → Prop
  | nil : ListsCalls [] []
  | comma {token : Token} {tokens : List Token} {calls : List Registration}
    (hk : token.kind = .comma) (h : ListsCalls tokens calls) : ListsCalls (token :: tokens) calls
  | call {first mark close : Token} {name inner tokens : List Token} {suffix : Bytes}
    {call : Registration} {calls : List Registration} (hf : first.kind = .identifier)
    (ho : first.offset = call.offset) (hn : NameTail name suffix)
    (hc : first.text ++ suffix = call.callee) (hm : mark.kind = .leftParen)
    (hi : Turn.through 0 (inner.filterMap Token.turn?) = some 0) (hk : close.kind = .rightParen)
    (hs : close.stop = call.offset + call.text.length) (h : ListsCalls tokens calls) :
    ListsCalls (first :: (name ++ mark :: (inner ++ close :: tokens))) (call :: calls)

theorem listsCalls_gap {gap : Bytes} {tokens : List Token} {calls : List Registration}
    (h : ListsCalls tokens calls) (offset : Nat) (location : Location) :
    ListsCalls (tokensOf offset location (gap.map gapLexeme) ++ tokens) calls := by
  induction gap generalizing offset location with
  | nil => exact h
  | cons b gap ih =>
    rw [List.map_cons, tokensOf, List.append_assoc]
    unfold gapLexeme
    split
    · exact .comma rfl (ih _ _)
    · split <;> exact ih _ _

/-- The tokens of a dotted name. -/
theorem tokensOf_nameLexemes {names : List Bytes} (hn : names ≠ [])
    (hw : ∀ name ∈ names, TokenKind.ofWord name = .identifier) (offset : Nat)
    (location : Location) :
    ∃ first tail suffix, tokensOf offset location (nameLexemes names) = first :: tail ∧
      first.kind = .identifier ∧ first.offset = offset ∧ NameTail tail suffix ∧
      first.text ++ suffix = joinWith [dot] names := by
  fun_induction nameLexemes names generalizing offset location with
  | case1 => exact absurd rfl hn
  | case2 name =>
    exact ⟨_, [], [], rfl, hw name (by simp), rfl, .nil, by simp [joinWith]⟩
  | case3 name others ho ih =>
    obtain ⟨first, tail, suffix, ht, hk, -, hs, hj⟩ := ih ho
      (fun other hm => hw other (by simp [hm])) (offset + name.length + 1)
      ((location.after name).after [dot])
    simp only [tokensOf, tokenAt?, Option.toList_some, List.singleton_append, List.length_singleton]
    rw [ht]
    refine ⟨_, _, _, rfl, hw name (by simp), rfl, .cons rfl hk hs, ?_⟩
    rw [hj, joinWith_cons _ ho]
    rfl

def Entry.Fits (entry : Entry) : Prop :=
  entry.callee ∈ PluginKind.callees ∧ entry.gap.all isGapByte = true

/-- The arguments of each call are whole lexemes, whose brackets close each other. -/
def Entry.Lexed (last : Bytes) : List Entry → Prop
  | [] => True
  | entry :: others =>
    (∃ lexemes, Lexes (rightParen :: (others.flatMap Entry.text ++ last)) entry.arguments lexemes ∧
      Turn.through 0 (turnsOf lexemes) = some 0) ∧ Lexed last others

def Entry.lexemes (entry : Entry) (inner : List Lexeme) : List Lexeme :=
  entry.gap.map gapLexeme ++ (nameLexemes (fields dot entry.callee) ++
    (⟨.token .leftParen, [leftParen]⟩ :: (inner ++ [⟨.token .rightParen, [rightParen]⟩])))

def Entry.front (entry : Entry) : List Lexeme :=
  entry.gap.map gapLexeme ++
    (nameLexemes (fields dot entry.callee) ++ [⟨.token .leftParen, [leftParen]⟩])

theorem Entry.lexes_front {entry : Entry} (hf : entry.Fits) (rest : Bytes) :
    Lexes rest (entry.gap ++ (entry.callee ++ [leftParen])) entry.front := by
  obtain ⟨hj, hne, hn⟩ := callees_names entry.callee hf.1
  have hc : Lexes ([leftParen] ++ rest) (joinWith [dot] (fields dot entry.callee))
      (nameLexemes (fields dot entry.callee)) :=
    lexes_dotted hne (fun name hm => (hn name hm).1) (by rfl)
  rw [hj] at hc
  have ho : Lexes rest [leftParen] [⟨.token .leftParen, [leftParen]⟩] :=
    .mark (by rfl) fun h => absurd h (by decide)
  exact (lexes_gap hf.2 _).append (hc.append ho)

theorem Entry.lexes {entry : Entry} (hf : entry.Fits) {rest : Bytes} {inner : List Lexeme}
    (hl : Lexes (rightParen :: rest) entry.arguments inner) :
    Lexes rest entry.text (entry.lexemes inner) := by
  have hk : Lexes rest [rightParen] [⟨.token .rightParen, [rightParen]⟩] :=
    .mark (by rfl) fun h => absurd h (by decide)
  have h := (lexes_front hf _).append (Lexes.append hl hk)
  have ht : entry.gap ++ (entry.callee ++ [leftParen]) ++ (entry.arguments ++ [rightParen]) =
      entry.text := by simp [text, call]
  have hx :
      entry.front ++ (inner ++ [⟨.token .rightParen, [rightParen]⟩]) = entry.lexemes inner := by
    simp [front, lexemes]
  rwa [ht, hx] at h

theorem turnsOf_append (lexemes others : List Lexeme) :
    turnsOf (lexemes ++ others) = turnsOf lexemes ++ turnsOf others :=
  List.filterMap_append

theorem turnsOf_gap (gap : Bytes) : turnsOf (gap.map gapLexeme) = [] := by
  unfold turnsOf
  rw [List.filterMap_eq_nil_iff]
  intro lexeme hl
  obtain ⟨b, -, rfl⟩ := List.mem_map.1 hl
  unfold gapLexeme
  split
  · rfl
  · split <;> rfl

theorem allFlat_nameLexemes (names : List Bytes) : AllFlat (nameLexemes names) := by
  fun_induction nameLexemes names with
  | case1 => exact .nil
  | case2 name => exact .cons (isFlat_ofWord name) nofun .nil
  | case3 name others _ ih => exact .cons (isFlat_ofWord name) nofun (.cons rfl nofun ih)

theorem Entry.turnsOf_lexemes {entry : Entry} {inner : List Lexeme}
    (hi : Turn.through 0 (turnsOf inner) = some 0) :
    Turn.through 0 (turnsOf (entry.lexemes inner)) = some 0 := by
  unfold Entry.lexemes
  rw [turnsOf_append, turnsOf_append, turnsOf_gap, (allFlat_nameLexemes _).turnsOf_eq,
    turnsOf_cons, turnsOf_append]
  show Turn.through 1 (turnsOf inner ++ [.closing]) = some 0
  rw [Turn.through_append, Turn.through_add hi 1]
  rfl

theorem Entry.turnsOf_front (entry : Entry) : turnsOf entry.front = [.opening] := by
  unfold Entry.front
  rw [turnsOf_append, turnsOf_append, turnsOf_gap, (allFlat_nameLexemes _).turnsOf_eq]
  rfl

/-- The tokens of a call in front of others. -/
theorem Entry.listsCalls {entry : Entry} (hf : entry.Fits) {rest : Bytes} {inner : List Lexeme}
    (hl : Lexes rest entry.arguments inner) (hi : Turn.through 0 (turnsOf inner) = some 0)
    {tokens : List Token} {calls : List Registration} (h : ListsCalls tokens calls) (offset : Nat)
    (location : Location) :
    ListsCalls (tokensOf offset location (entry.lexemes inner) ++ tokens)
      (⟨entry.callee, offset + entry.gap.length, entry.call⟩ :: calls) := by
  obtain ⟨hj, hne, hn⟩ := callees_names entry.callee hf.1
  have hg : (entry.gap.map gapLexeme).flatMap Lexeme.text = entry.gap :=
    (lexes_gap hf.2 rest).text_eq
  have hc : (nameLexemes (fields dot entry.callee)).flatMap Lexeme.text = entry.callee := by
    have hw : Lexes [leftParen] (joinWith [dot] (fields dot entry.callee))
        (nameLexemes (fields dot entry.callee)) :=
      lexes_dotted hne (fun name hm => (hn name hm).1) (by rfl)
    rw [hw.text_eq, hj]
  unfold Entry.lexemes
  rw [tokensOf_append, List.append_assoc]
  apply listsCalls_gap
  rw [tokensOf_append, hg, hc]
  obtain ⟨first, name, suffix, ht, hk, ho, hs, hj'⟩ := tokensOf_nameLexemes hne
    (fun name hm => (hn name hm).2) (offset + entry.gap.length) (location.after entry.gap)
  rw [ht]
  simp only [tokensOf, tokenAt?, Option.toList_some, List.singleton_append, List.length_singleton]
  rw [tokensOf_append, hl.text_eq]
  simp only [tokensOf, tokenAt?, Option.toList_some, List.append_assoc, List.cons_append,
    List.nil_append]
  -- Left are the turns of the arguments and the offset behind the call.
  refine .call hk ho hs (hj'.trans hj) rfl ?_ rfl ?_ h
  · rw [turns_tokensOf]
    exact hi
  · simp only [Token.stop, Token.length, Entry.call, List.length_append,
      List.length_cons]
    omega

/-- The lexemes of the calls of a listing. -/
theorem lexes_entries {last : Bytes} {entries : List Entry} (hf : ∀ entry ∈ entries, entry.Fits)
    (hl : Entry.Lexed last entries) :
    ∃ lexemes, Lexes last (entries.flatMap Entry.text) lexemes ∧
      Turn.through 0 (turnsOf lexemes) = some 0 ∧
      ∀ offset location tokens, ListsCalls tokens [] →
        ListsCalls (tokensOf offset location lexemes ++ tokens)
          (Entry.registrations offset entries) := by
  induction entries with
  | nil => exact ⟨[], .nil, rfl, fun _ _ _ h => h⟩
  | cons entry others ih =>
    obtain ⟨⟨inner, hi, ht⟩, hl⟩ := hl
    obtain ⟨lexemes, ho, hto, hc⟩ := ih (fun other hm => hf other (by simp [hm])) hl
    have he := hf entry (by simp)
    have hw := Entry.lexes he hi
    refine ⟨entry.lexemes inner ++ lexemes, hw.append ho, ?_, ?_⟩
    · rw [turnsOf_append, Turn.through_append, Entry.turnsOf_lexemes ht]
      exact hto
    · intro offset location tokens h
      rw [tokensOf_append, hw.text_eq, List.append_assoc]
      exact Entry.listsCalls he hi ht (hc _ _ _ h) offset location

end ManifestScan
