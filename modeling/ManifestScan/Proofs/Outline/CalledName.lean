import ManifestScan.Proofs.Lexing.Lines
import ManifestScan.Proofs.Text.Lines
import Mathlib.Data.List.Induction

namespace ManifestScan

namespace Token

/-- What a dotted name goes on with behind `start`, and the tokens that follow it. -/
def dotted (start : Bytes) : List Token → Bytes × List Token
  | point :: name :: rest =>
    if point.kind = .dot ∧ name.kind = .identifier then
      dotted (start ++ dot :: name.text) rest
    else (start, point :: name :: rest)
  | tokens => (start, tokens)

/-- The names in front of an argument list, in the order of the text, each with the offset of its
first token. Two tokens stand before, of the kinds `second` and `first`. -/
def calledNames (second first : TokenKind) : List Token → List (Nat × Bytes)
  | [] => []
  | token :: rest =>
    let name := dotted token.text rest
    if token.kind = .identifier ∧ ¬(second = .identifier ∧ first = .dot) ∧
        name.2.head?.any (·.kind = .leftParen) = true then
      (token.offset, if first = .dot then dot :: name.1 else name.1) ::
        calledNames first token.kind rest
    else calledNames first token.kind rest

def called (tokens : List Token) : List (Nat × Bytes) := calledNames .newline .newline tokens

/-- A name of one or more parts that an argument list follows, and that goes on no name before it.
It has a dot in front where it is called on the value of an expression. -/
def IsCalled (front : List Token) (name : Token) (rest : List Token) (callee : Bytes) : Prop :=
  name.kind = .identifier ∧
    ¬(∃ earlier other point, front = earlier ++ [other, point] ∧ other.kind = .identifier ∧
      point.kind = .dot) ∧
    ∃ (links : List (Token × Token)) (paren : Token) (behind : List Token),
      rest = links.flatMap (fun (point, part) => [point, part]) ++ paren :: behind ∧
      (∀ link ∈ links, link.1.kind = .dot ∧ link.2.kind = .identifier) ∧ paren.kind = .leftParen ∧
      callee = (if front.getLast?.any (·.kind = .dot) then [dot] else []) ++
        joinWith [dot] (name.text :: links.map (·.2.text))

section

variable {second first : TokenKind} {token : Token} {tokens rest : List Token}

theorem calledNames_skip (hk : token.kind ≠ .identifier) :
    calledNames second first (token :: rest) = calledNames first token.kind rest := by
  rw [calledNames]
  exact if_neg fun h => hk h.1

/-- What stands before the last token counts only behind a dot. -/
theorem calledNames_congr (hf : first ≠ .dot) (other : TokenKind) (tokens : List Token) :
    calledNames second first tokens = calledNames other first tokens := by
  cases tokens with
  | nil => rfl
  | cons token rest => simp [calledNames, hf]

theorem calledNames_fresh (hi : first ≠ .identifier) (hd : first ≠ .dot) (tokens : List Token) :
    calledNames second first tokens = called tokens := by
  unfold called
  cases tokens with
  | nil => rfl
  | cons token rest =>
    have hr : calledNames first token.kind rest = calledNames .newline token.kind rest := by
      cases rest with
      | nil => rfl
      | cons => simp [calledNames, hi]
    simp [calledNames, hd, hr]

theorem dotted_link {point name : Token} (hk : point.kind = .dot ∧ name.kind = .identifier)
    (start : Bytes) (rest : List Token) :
    dotted start (point :: name :: rest) = dotted (start ++ dot :: name.text) rest := by
  rw [dotted, if_pos hk]

/-- A name goes on by a dot and an identifier at a time, and ends in front of anything else. -/
theorem dotted_induction {P : Bytes → List Token → Prop}
    (link : ∀ start point name rest, point.kind = .dot ∧ name.kind = .identifier →
      P (start ++ dot :: name.text) rest → P start (point :: name :: rest))
    (stop : ∀ start tokens, dotted start tokens = (start, tokens) →
      (∀ point name rest, tokens = point :: name :: rest →
        ¬(point.kind = .dot ∧ name.kind = .identifier)) → P start tokens) :
    ∀ start tokens, P start tokens
  | start, [] => stop start [] rfl fun _ _ _ he => absurd he (by simp)
  | start, [token] => stop start [token] rfl fun _ _ _ he => absurd he (by simp)
  | start, point :: name :: rest => by
    by_cases hk : point.kind = .dot ∧ name.kind = .identifier
    · exact link start point name rest hk (dotted_induction link stop _ rest)
    · refine stop start _ (by rw [dotted, if_neg hk]) fun _ _ _ he => ?_
      cases he
      exact hk

/-- The parts of a name are no names of their own. -/
theorem calledNames_dotted (start : Bytes) (tokens : List Token) :
    calledNames second .identifier tokens =
      calledNames .newline .identifier (dotted start tokens).2 := by
  induction start, tokens using dotted_induction generalizing second with
  | link start point name rest hk ih =>
    rw [calledNames_skip (by simp [hk.1]), calledNames, if_neg (by simp [hk.1]), hk.2,
      dotted_link hk]
    exact ih
  | stop start tokens hd _ =>
    rw [hd]
    exact calledNames_congr (by decide) _ _

theorem dotted_append (hd : token.kind ≠ .dot) (hi : token.kind ≠ .identifier) (rest : List Token) :
    ∀ (start : Bytes) (tokens : List Token), dotted start (tokens ++ token :: rest) =
      ((dotted start tokens).1, (dotted start tokens).2 ++ token :: rest)
  | start, [] => by
    cases rest with
    | nil => rfl
    | cons => simp [dotted, hd]
  | start, [other] => by simp [dotted, hi]
  | start, point :: name :: others => by
    rw [List.cons_append, List.cons_append, dotted, dotted]
    split
    · exact dotted_append hd hi rest _ others
    · rfl

/-- No name goes on behind a token that is none of its parts. -/
theorem calledNames_append (hd : token.kind ≠ .dot) (hi : token.kind ≠ .identifier)
    (hp : token.kind ≠ .leftParen) (tokens rest : List Token) :
    calledNames second first (tokens ++ token :: rest) =
      calledNames second first tokens ++ called rest := by
  induction tokens generalizing second first with
  | nil =>
    rw [List.nil_append, calledNames_skip hi, calledNames_fresh hi hd]
    rfl
  | cons other tokens ih =>
    have hh : ∀ others : List Token, (others ++ token :: rest).head?.any (·.kind = .leftParen) =
        others.head?.any (·.kind = .leftParen) := by
      intro others
      cases others with
      | nil => simp [hp]
      | cons => rfl
    simp only [List.cons_append, calledNames, dotted_append hd hi, hh, ih]
    split <;> rfl

theorem called_append (hd : token.kind ≠ .dot) (hi : token.kind ≠ .identifier)
    (hp : token.kind ≠ .leftParen) (tokens rest : List Token) :
    called (tokens ++ token :: rest) = called tokens ++ called rest :=
  calledNames_append hd hi hp tokens rest

/-- Names are called line by line. -/
theorem called_lines (tokens : List Token) : called tokens = (lines tokens).flatMap called := by
  refine (flatMap_lines rfl (fun _ _ => rfl) (fun line token rest hk => ?_) tokens).symm
  refine called_append ?_ ?_ ?_ line rest <;> intro h <;> simp [h, TokenKind.isLayout] at hk

theorem mem_of_mem_calledNames {name : Nat × Bytes} (h : name ∈ calledNames second first tokens) :
    ∃ token ∈ tokens, token.kind = .identifier ∧ token.offset = name.1 := by
  induction tokens generalizing second first with
  | nil => cases h
  | cons token tokens ih =>
    have keep (h : name ∈ calledNames first token.kind tokens) :
        ∃ other ∈ token :: tokens, other.kind = .identifier ∧ other.offset = name.1 := by
      obtain ⟨other, hm, ho⟩ := ih h
      exact ⟨other, List.mem_cons_of_mem _ hm, ho⟩
    rw [calledNames] at h
    split at h
    · rename_i hk
      rcases List.mem_cons.1 h with rfl | h
      · exact ⟨token, List.mem_cons_self, hk.1, rfl⟩
      · exact keep h
    · exact keep h

theorem sublist_calledNames (second first : TokenKind) (tokens : List Token) :
    ((calledNames second first tokens).map (·.1)).Sublist
      ((tokens.filter (!·.kind.isLayout)).map (·.offset)) := by
  induction tokens generalizing second first with
  | nil => exact List.Sublist.refl _
  | cons token tokens ih =>
    have hs := ih first token.kind
    rw [calledNames]
    split
    · rename_i hk
      rw [List.filter_cons_of_pos (by simp [hk.1, TokenKind.isLayout])]
      exact hs.cons_cons _
    · by_cases hl : token.kind.isLayout = true
      · rwa [List.filter_cons_of_neg (by simp [hl])]
      · rw [List.filter_cons_of_pos (by simpa using hl)]
        exact hs.cons _

end

/-- The kinds of the last two tokens, or of line ends where there are none. -/
def context (front : List Token) : TokenKind × TokenKind :=
  front.foldl (fun before token => (before.2, token.kind)) (.newline, .newline)

theorem context_append (front : List Token) (token : Token) :
    context (front ++ [token]) = ((context front).2, token.kind) := by
  rw [context, List.foldl_append]
  rfl

theorem context_snd (front : List Token) :
    front.getLast?.any (·.kind = .dot) = decide ((context front).2 = .dot) := by
  induction front using List.reverseRecOn with
  | nil => rfl
  | append_singleton front token => rw [context_append, List.getLast?_concat, Option.any_some]

theorem context_iff (front : List Token) :
    (∃ earlier other point, front = earlier ++ [other, point] ∧ other.kind = .identifier ∧
        point.kind = .dot) ↔ (context front).1 = .identifier ∧ (context front).2 = .dot := by
  constructor
  · rintro ⟨earlier, other, point, rfl, ho, hp⟩
    rw [List.append_cons, context_append, context_append]
    exact ⟨ho, hp⟩
  · rintro ⟨hi, hd⟩
    rcases List.eq_nil_or_concat front with rfl | ⟨earlier, point, rfl⟩
    · cases hd
    rw [List.concat_eq_append, context_append] at hi hd
    rcases List.eq_nil_or_concat earlier with rfl | ⟨earliest, other, rfl⟩
    · cases hi
    rw [List.concat_eq_append, context_append] at hi
    exact ⟨earliest, other, point, by simp, hi, hd⟩

theorem joinWith_dot (text : Bytes) (parts : List Bytes) :
    joinWith [dot] (text :: parts) = text ++ parts.flatMap (dot :: ·) := by
  induction parts generalizing text with
  | nil => simp [joinWith]
  | cons part parts ih =>
    rw [joinWith_cons [dot] (List.cons_ne_nil _ _), ih, List.flatMap_cons]
    simp

theorem dotted_links {links : List (Token × Token)} {paren : Token} {behind : List Token}
    (hl : ∀ link ∈ links, link.1.kind = .dot ∧ link.2.kind = .identifier) (hp : paren.kind ≠ .dot)
    (start : Bytes) :
    dotted start (links.flatMap (fun (point, part) => [point, part]) ++ paren :: behind) =
      (start ++ (links.map (·.2.text)).flatMap (dot :: ·), paren :: behind) := by
  induction links generalizing start with
  | nil => cases behind <;> simp [dotted, hp]
  | cons link links ih =>
    obtain ⟨hl, hr⟩ := List.forall_mem_cons.1 hl
    simp only [List.flatMap_cons, List.cons_append, List.nil_append]
    rw [dotted_link hl, ih hr]
    simp

theorem exists_links (start : Bytes) (tokens : List Token) : ∃ links : List (Token × Token),
    tokens = links.flatMap (fun (point, part) => [point, part]) ++ (dotted start tokens).2 ∧
      ∀ link ∈ links, link.1.kind = .dot ∧ link.2.kind = .identifier := by
  induction start, tokens using dotted_induction with
  | link start point name rest hk ih =>
    obtain ⟨links, he, hl⟩ := ih
    rw [dotted_link hk]
    exact ⟨(point, name) :: links, congrArg (point :: name :: ·) he,
      List.forall_mem_cons.2 ⟨hk, hl⟩⟩
  | stop start tokens hd _ =>
    rw [hd]
    exact ⟨[], rfl, List.forall_mem_nil _⟩

theorem isCalled_iff {front rest : List Token} {name : Token} {callee : Bytes} :
    IsCalled front name rest callee ↔
      (name.kind = .identifier ∧
        ¬((context front).1 = .identifier ∧ (context front).2 = .dot) ∧
        (dotted name.text rest).2.head?.any (·.kind = .leftParen) = true) ∧
      callee = if (context front).2 = .dot then dot :: (dotted name.text rest).1
        else (dotted name.text rest).1 := by
  have hc : ∀ text : Bytes, (if front.getLast?.any (·.kind = .dot) then [dot] else []) ++ text =
      if (context front).2 = .dot then dot :: text else text := by
    intro text
    rw [context_snd]
    by_cases hd : (context front).2 = .dot <;> simp [hd]
  unfold IsCalled
  rw [context_iff]
  constructor
  · rintro ⟨hi, hn, links, paren, behind, rfl, hl, hp, rfl⟩
    have hd := @dotted_links links paren behind hl (by simp [hp]) name.text
    rw [hd, hc, joinWith_dot]
    exact ⟨⟨hi, hn, by simp [hp]⟩, rfl⟩
  · rintro ⟨⟨hi, hn, hp⟩, rfl⟩
    obtain ⟨links, he, hl⟩ := exists_links name.text rest
    cases hr : (dotted name.text rest).2 with
    | nil => simp [hr] at hp
    | cons paren behind =>
      rw [hr] at he hp
      have hp : paren.kind = .leftParen := by simpa using hp
      have hd := @dotted_links links paren behind hl (by simp [hp]) name.text
      rw [← he] at hd
      refine ⟨hi, hn, links, paren, behind, he, hl, hp, ?_⟩
      rw [hd, hc, joinWith_dot]

theorem mem_calledNames (front tokens : List Token) (offset : Nat) (callee : Bytes) :
    (offset, callee) ∈ calledNames (context front).1 (context front).2 tokens ↔
      ∃ before name rest, tokens = before ++ name :: rest ∧ name.offset = offset ∧
        IsCalled (front ++ before) name rest callee := by
  induction tokens generalizing front with
  | nil => simp [calledNames]
  | cons token tokens ih =>
    have hr := ih (front ++ [token])
    rw [context_append] at hr
    -- The first token is the name, or one behind it is.
    have hsplit : (∃ before name rest, token :: tokens = before ++ name :: rest ∧
        name.offset = offset ∧ IsCalled (front ++ before) name rest callee) ↔
        (token.offset = offset ∧ IsCalled front token tokens callee) ∨
          (offset, callee) ∈ calledNames (context front).2 token.kind tokens := by
      rw [hr]
      constructor
      · rintro ⟨before, name, rest, he, ho, hc⟩
        cases before with
        | nil =>
          cases he
          rw [List.append_nil] at hc
          exact .inl ⟨ho, hc⟩
        | cons _ before =>
          cases he
          exact .inr ⟨before, name, rest, rfl, ho, by rwa [List.append_assoc]⟩
      · rintro (⟨ho, hc⟩ | ⟨before, name, rest, rfl, ho, hc⟩)
        · exact ⟨[], token, tokens, rfl, ho, by rwa [List.append_nil]⟩
        · exact ⟨token :: before, name, rest, rfl, ho, by rwa [List.append_assoc] at hc⟩
    rw [hsplit, isCalled_iff, calledNames]
    split
    · rename_i hk
      rw [List.mem_cons, Prod.mk.injEq, and_iff_right hk, eq_comm]
    · rename_i hk
      simp only [hk, false_and, and_false, false_or]

/-- The called names of tokens are those that an argument list follows. -/
theorem mem_called {tokens : List Token} {offset : Nat} {callee : Bytes} :
    (offset, callee) ∈ called tokens ↔ ∃ front name rest, tokens = front ++ name :: rest ∧
      name.offset = offset ∧ IsCalled front name rest callee :=
  mem_calledNames [] tokens offset callee

end Token

end ManifestScan
