import ManifestScan.Proofs.Lexing.Order
import ManifestScan.Proofs.Lexing.Tiling
import ManifestScan.Proofs.Text.Scan

namespace ManifestScan

/-- The opening brackets less the closing ones, of all three kinds. -/
def Token.balance (tokens : List Token) : Int :=
  tokens.countP (·.kind.isOpening) - tokens.countP (·.kind.isClosing)

/-- The first closing bracket behind an opening one where as many brackets closed as were opened. -/
def Token.partner? (opening : Token) (behind : List Token) : Option Token :=
  (behind.zipIdx.find? fun (token, i) =>
    token.kind.isClosing && balance (opening :: behind.take (i + 1)) == 0).map Prod.fst

theorem TokenKind.isClosing_of_isOpening {kind : TokenKind} (h : kind.isOpening = true) :
    kind.isClosing = false := by
  cases kind <;> first | rfl | cases h

theorem TokenKind.depthAfter_ne_zero {kind : TokenKind} {depth : Nat} (hd : depth ≠ 0)
    (hc : ¬(kind.isClosing = true ∧ depth = 1)) : kind.depthAfter depth ≠ 0 := by
  unfold depthAfter
  split
  · omega
  · split
    · rename_i hk
      have hone : depth ≠ 1 := fun hone => hc ⟨hk, hone⟩
      omega
    · exact hd

theorem TokenKind.isFlat_of_isLayout {kind : TokenKind} (h : kind.isLayout = true) :
    kind.isFlat = true := by
  cases kind <;> first | rfl | cases h

namespace Token

def closer? : Nat → List Token → Option Token
  | _, [] => none
  | depth, token :: rest =>
    if token.kind.isClosing ∧ depth = 1 then some token
    else closer? (token.kind.depthAfter depth) rest

theorem balance_append (tokens others : List Token) :
    balance (tokens ++ others) = balance tokens + balance others := by
  unfold balance
  rw [List.countP_append, List.countP_append]
  omega

theorem balance_opening {opening : Token} (ho : opening.kind.isOpening = true)
    (tokens : List Token) : balance (opening :: tokens) = 1 + balance tokens := by
  have hb : balance [opening] = 1 := by
    simp [balance, ho, TokenKind.isClosing_of_isOpening ho]
  rw [← hb]
  exact balance_append [opening] tokens

theorem balance_closing {closing : Token} (hc : closing.kind.isClosing = true) :
    balance [closing] = -1 := by
  have ho : closing.kind.isOpening ≠ true := fun ho => by
    simp [TokenKind.isClosing_of_isOpening ho] at hc
  simp [balance, ho, hc]

/-- A token of kind `kind` counts in the balance as it counts in the depth. -/
theorem balance_singleton {token : Token} {depth : Nat} (hd : depth ≠ 0) :
    (depth : Int) + balance [token] = token.kind.depthAfter depth := by
  unfold balance TokenKind.depthAfter
  rw [List.countP_singleton, List.countP_singleton]
  split
  · rename_i ho
    simp [TokenKind.isClosing_of_isOpening ho]
  · split
    · simp
      omega
    · simp

/-- Counting brackets from the opening one on finds what a running depth finds. -/
theorem find?_balance (opening : Token) (front rest : List Token) {depth : Nat} (hd : depth ≠ 0)
    (hb : balance (opening :: front) = depth) :
    ((rest.zipIdx front.length).find? fun (token, i) => token.kind.isClosing &&
        balance (opening :: (front ++ rest).take (i + 1)) == 0).map Prod.fst =
      closer? depth rest := by
  induction rest generalizing front depth with
  | nil => rfl
  | cons token rest ih =>
    have ht : (front ++ token :: rest).take (front.length + 1) = front ++ [token] := by
      rw [List.append_cons, List.take_left']
      simp
    have hs : balance (opening :: (front ++ [token])) = token.kind.depthAfter depth := by
      rw [← List.cons_append, balance_append, hb, balance_singleton hd]
    rw [List.zipIdx_cons, closer?]
    by_cases hc : token.kind.isClosing = true ∧ depth = 1
    · have hz : token.kind.depthAfter depth = 0 := by
        have ho : token.kind.isOpening ≠ true := fun ho => by
          simp [TokenKind.isClosing_of_isOpening ho] at hc
        simp [TokenKind.depthAfter, ho, hc]
      rw [List.find?_cons_of_pos, if_pos hc]
      · rfl
      · simp [ht, hs, hz, hc.1]
    · have hnext := TokenKind.depthAfter_ne_zero hd hc
      rw [List.find?_cons_of_neg, if_neg hc, List.append_cons]
      · have hi := ih (front ++ [token]) hnext hs
        rwa [List.length_append, List.length_singleton] at hi
      · simp [ht, hs, hnext]

theorem partner?_eq_closer? {opening : Token} (ho : opening.kind.isOpening = true)
    (behind : List Token) : opening.partner? behind = closer? 1 behind := by
  exact find?_balance opening [] behind (by decide) (balance_opening ho [])

theorem closer?_flat {token : Token} (hf : token.kind.isFlat = true) (depth : Nat)
    (rest : List Token) : closer? depth (token :: rest) = closer? depth rest := by
  simp only [TokenKind.isFlat, Bool.and_eq_true, Bool.not_eq_true'] at hf
  rw [closer?, if_neg (by simp [hf]), TokenKind.depthAfter, if_neg (by simp [hf]),
    if_neg (by simp [hf])]

end Token

/-- A scan of brackets passes a text in front of `rest` in pieces of its own, without a turn. -/
def Unturned (rest text : Bytes) : Prop :=
  ∃ found, codePieces (text ++ rest) = found ++ codePieces rest ∧ Piece.Cover found text []

namespace Unturned

variable {rest text : Bytes}

theorem nil (rest : Bytes) : Unturned rest [] := ⟨[], rfl, rfl, nofun, nofun, rfl⟩

theorem append {front : Bytes} (h : Unturned (text ++ rest) front) (h' : Unturned rest text) :
    Unturned rest (front ++ text) := by
  obtain ⟨found, hf, hc⟩ := h
  obtain ⟨others, ho, hc'⟩ := h'
  refine ⟨found ++ others, ?_, hc.append hc'⟩
  rw [List.append_assoc, hf, ho, List.append_assoc]

theorem inert (rest : Bytes) (hi : Lexeme.Inert text) : Unturned rest text := by
  have hc := Piece.Cover.bytes text
  rw [Lexeme.turns_inert hi] at hc
  exact ⟨_, Lexeme.codePieces_inert hi rest, hc⟩

theorem byte {b : UInt8} (hb : Lexeme.isInert b = true) (h : Unturned rest text) :
    Unturned rest (b :: text) :=
  @append rest text [b] (inert _ (.cons hb nofun)) h

theorem comment {words : Bytes} (hw : lineFeed ∉ words)
    (he : rest.head?.all (· == lineFeed) = true) : Unturned rest (hash :: words) := by
  have ht : ∀ b ∈ words, (b != lineFeed) = true := by
    intro b hm
    have hb : b ≠ lineFeed := fun hb => hw (hb ▸ hm)
    simpa using hb
  have hr : rest.takeWhile (· != lineFeed) = [] := by
    cases rest with
    | nil => rfl
    | cons b after => exact List.takeWhile_cons_of_neg (by simpa using he)
  exact ⟨[.comment (hash :: words)], Piece.cut_comment ht hr,
    by simp [Piece.text], by simp, by simp [Piece.text], rfl⟩

/-- A gap without bytes that start no token. -/
theorem of_gap {offset : Nat} (h : Gap rest offset text []) : Unturned rest text := by
  have hi : ∀ b ∈ [space, tab, carriageReturn, lineFeed, formFeed, backslash],
      Lexeme.isInert b = true := by
    decide +kernel
  generalize hu : [] = unknown at h
  induction h with
  | nil => exact nil rest
  | blank hb _ ih => exact (ih hu).byte (hi _ (List.mem_append_left [backslash] hb))
  | comment hw he _ ih => exact (comment hw he).append (ih hu)
  | join _ ih => exact ((ih hu).byte (hi _ (by simp))).byte (hi _ (by simp))
  | joinReturn _ ih =>
    exact (((ih hu).byte (hi _ (by simp))).byte (hi _ (by simp))).byte (hi _ (by simp))
  | unknown => cases hu

end Unturned

namespace Lexer

/-- From an offset on, the brackets of a source close where the tokens say. -/
structure Agrees (source : Bytes) (offset : Nat) (tokens : List Token) : Prop where
  closing : ∀ depth, depth ≠ 0 → Bracket.closing? depth offset (codePieces (source.drop offset)) =
    (Token.closer? depth tokens).map (·.offset)
  matching : ∀ front opening behind, tokens = front ++ opening :: behind →
    opening.kind.isOpening = true →
      matching? source opening.offset = (Token.closer? 1 behind).map (·.offset)

namespace Agrees

variable {source text after : Bytes} {offset : Nat} {tokens : List Token}

/-- A text without brackets takes nothing away. -/
theorem skip (h : Agrees source (offset + text.length) tokens)
    (hs : source.drop offset = text ++ after) (ht : Unturned after text) :
    Agrees source offset tokens := by
  obtain ⟨found, hf, hc⟩ := ht
  refine ⟨fun depth hd => ?_, h.matching⟩
  obtain ⟨depth, rfl⟩ := Nat.exists_eq_succ_of_ne_zero hd
  have ha : source.drop (offset + text.length) = after := by
    rw [← List.drop_drop, hs, List.drop_left]
  rw [hs, hf, Bracket.closing?_through hc rfl, ← ha]
  exact h.closing (depth + 1) hd

theorem flat (h : Agrees source offset tokens) {token : Token} (hf : token.kind.isFlat = true) :
    Agrees source offset (token :: tokens) := by
  refine ⟨fun depth hd => ?_, fun front opening behind he ho => ?_⟩
  · rw [Token.closer?_flat hf]
    exact h.closing depth hd
  · cases front with
    | nil =>
      cases he
      simp [TokenKind.isFlat, ho] at hf
    | cons _ front => exact h.matching front opening behind (List.cons.inj he).2 ho

theorem bracket (h : Agrees source (offset + 1) tokens) {token : Token} {b : UInt8}
    (hs : source.drop offset = b :: after) (hq : Literal.isQuote b = false)
    (hh : (b == hash) = false) (ht : token.offset = offset)
    (ho : token.kind.isOpening = ManifestScan.isOpening b)
    (hc : token.kind.isClosing = ManifestScan.isClosing b) :
    Agrees source offset (token :: tokens) := by
  have ha : source.drop (offset + 1) = after := by
    rw [← List.drop_drop, hs, List.drop_one, List.tail_cons]
  have hd (depth : Nat) : token.kind.depthAfter depth = depthAfter b depth := by
    rw [TokenKind.depthAfter, depthAfter, ho, hc]
  refine ⟨fun depth hn => ?_, fun front opening behind he hopen => ?_⟩
  · rw [hs, Piece.cut_byte hq hh, Token.closer?, Bracket.closing?, ← hc]
    split
    · rw [Option.map_some, ht]
    · rename_i hcl
      rw [← hd, ← ha]
      exact h.closing _ (TokenKind.depthAfter_ne_zero hn hcl)
  · cases front with
    | nil =>
      cases he
      rw [ht, matching?_opened hs (ho ▸ hopen), ← ha]
      exact h.closing 1 (by decide)
    | cons _ front => exact h.matching front opening behind (List.cons.inj he).2 hopen

end Agrees

variable {source : Bytes} {lexer next : Lexer}

/-- A token in front of the lexer: only a bracket changes the depth, and it is a byte of its own. -/
theorem agrees_token (hs : lexer.Stands source) {b : UInt8} {rest text : Bytes} {kind : TokenKind}
    (hr : lexer.rest = b :: rest) (hl : Lexeme.read b rest = ⟨.token kind, text⟩)
    {tokens : List Token} (h : Agrees source (lexer.offset + text.length) tokens) {span : Span} :
    Agrees source lexer.offset (⟨kind, text, lexer.offset, span⟩ :: tokens) := by
  have hsound := Lexeme.sound_read b rest
  rw [hl] at hsound
  obtain hu | hu | ⟨after, he, hsound⟩ := hsound
  · cases hu
  · cases hu
  have hd : source.drop lexer.offset = text ++ after := by rw [← hs.rest_eq, hr, he]
  have flat (hf : kind.isFlat = true) :
      Agrees source lexer.offset (⟨kind, text, lexer.offset, span⟩ :: tokens) := by
    obtain ⟨found, hfound, hcover⟩ := hsound.pieces
    have ht : kind.turn?.toList = [] := by rw [Lexeme.turn?_of_isFlat hf]; rfl
    exact .flat (.skip h hd ⟨found, hfound after rfl, ht ▸ hcover⟩) hf
  cases hsound with
  | inert _ hf => exact flat hf
  | literal => exact flat rfl
  | bracket _ hq hh ho hc => exact .bracket h hd hq hh rfl ho hc

/-- What the lexer adds on its way to `next` keeps the two readings of brackets together. -/
theorem Path.agrees (h : Path lexer next) (hs : lexer.Stands source) (hn : next.faults = []) :
    ∃ added, next.tokens = added.reverse ++ lexer.tokens ∧
      ∀ tokens, Agrees source next.offset tokens →
        Agrees source lexer.offset (added ++ tokens) := by
  induction h with
  | trans h h' ih ih' =>
    obtain ⟨more, ht', ha'⟩ := ih' (h.stands hs) hn
    obtain ⟨added, ht, ha⟩ := ih hs ((Precedes.of_path h').faults_nil hn)
    refine ⟨added ++ more, ?_, fun tokens hk => ?_⟩
    · rw [ht', ht, List.reverse_append, List.append_assoc]
    · rw [List.append_assoc]
      exact ha _ (ha' tokens hk)
  | same _ ho _ ht => exact ⟨[], ht, fun tokens hk => ho ▸ hk⟩
  | gap lexer hr hg =>
    exact ⟨[], rfl, fun tokens hk => .skip hk (hs.rest_eq ▸ hr) (.of_gap hg)⟩
  | layout lexer hk => exact ⟨[_], rfl, fun tokens h => h.flat (TokenKind.isFlat_of_isLayout hk)⟩
  | token lexer hr hl => exact ⟨[_], rfl, fun tokens hk => agrees_token hs hr hl hk⟩
  | unclosed => cases hn
  | unknown => cases hn
  | unindent => cases hn

end Lexer

theorem agrees_tokenize {source : Bytes} (h : (tokenize source).faults = []) :
    Lexer.Agrees source 0 (tokenize source).tokens := by
  have hp : Lexer.Path (Lexer.start source) (Lexer.start source).run.finish :=
    (Lexer.Path.run _).trans (.finish _)
  have hs := Lexer.stands_start source
  obtain ⟨added, ht, ha⟩ := hp.agrees hs (List.reverse_eq_nil_iff.1 h)
  have hk : (tokenize source).tokens = added ++ [] := by
    unfold tokenize
    dsimp only
    rw [ht]
    simp [Lexer.start]
  rw [hk]
  refine ha [] ⟨fun depth _ => ?_, by simp⟩
  have hend : (Lexer.start source).run.finish.rest = [] := by
    unfold Lexer.finish Lexer.addLayout Lexer.addToken
    rw [Lexer.rest_closeBlocks, Lexer.rest_endLine, Lexer.rest_run]
  rw [← (hp.stands hs).rest_eq, hend, codePieces, Piece.cut]
  rfl

/-- The scan of a source's bytes and its tokens agree on where a bracket closes. -/
theorem matching?_eq_partner? {source : Bytes} (h : (tokenize source).faults = [])
    {front behind : List Token} {opening : Token}
    (ht : (tokenize source).tokens = front ++ opening :: behind)
    (ho : opening.kind.isOpening = true) :
    matching? source opening.offset = (opening.partner? behind).map (·.offset) := by
  rw [Token.partner?_eq_closer? ho]
  exact (agrees_tokenize h).matching front opening behind ht ho

/-- Brackets in a literal and in a comment count for neither. -/
theorem matching?_eq_partner?_hidden :
    let source := ascii "f('(', [1, # )\n2])"
    let tokens := (tokenize source).tokens
    let opening : Token := ⟨.leftParen, ascii "(", 1, ⟨⟨1, 2⟩, ⟨1, 3⟩⟩⟩
    tokens = tokens.take 1 ++ opening :: tokens.drop 2 ∧
      matching? source 1 = (opening.partner? (tokens.drop 2)).map (·.offset) ∧
      matching? source 1 = some 17 := by
  intro source tokens opening
  have ht : tokens = tokens.take 1 ++ opening :: tokens.drop 2 := by decide +kernel
  have hm := @matching?_eq_partner? source (by decide +kernel) _ _ opening ht rfl
  exact ⟨ht, hm, hm.trans (by decide +kernel)⟩

end ManifestScan
