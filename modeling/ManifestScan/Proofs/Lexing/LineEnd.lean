import ManifestScan.Proofs.Lexing.Context

namespace ManifestScan

/-- The text with a carriage return in front of every line feed. -/
def withReturns (text : Bytes) : Bytes :=
  text.flatMap fun b => if b = lineFeed then [carriageReturn, lineFeed] else [b]

def withoutReturns (text : Bytes) : Bytes := text.filter (· != carriageReturn)

section

variable {b : UInt8} {text : Bytes} {p : UInt8 → Bool}

theorem withReturns_lineFeed (rest : Bytes) :
    withReturns (lineFeed :: rest) = carriageReturn :: lineFeed :: withReturns rest := rfl

theorem withReturns_cons (hb : b ≠ lineFeed) (rest : Bytes) :
    withReturns (b :: rest) = b :: withReturns rest := by
  simp [withReturns, hb]

theorem withReturns_append (text rest : Bytes) :
    withReturns (text ++ rest) = withReturns text ++ withReturns rest :=
  List.flatMap_append

theorem withReturns_eq_self (h : lineFeed ∉ text) : withReturns text = text := by
  induction text with
  | nil => rfl
  | cons b rest ih =>
    rw [List.mem_cons, not_or] at h
    rw [withReturns_cons (Ne.symm h.1), ih h.2]

theorem withoutReturns_append (text rest : Bytes) :
    withoutReturns (text ++ rest) = withoutReturns text ++ withoutReturns rest :=
  List.filter_append ..

theorem withoutReturns_withReturns (text : Bytes) :
    withoutReturns (withReturns text) = withoutReturns text := by
  induction text with
  | nil => rfl
  | cons b rest ih =>
    have hone : withoutReturns (withReturns [b]) = withoutReturns [b] := by
      by_cases hb : b = lineFeed
      · rw [hb]
        rfl
      · rw [withReturns_cons hb]
        rfl
    rw [← List.singleton_append, withReturns_append, withoutReturns_append, withoutReturns_append,
      hone, ih]

theorem takeWhile_withReturns (hl : p lineFeed = false) (hr : p carriageReturn = false)
    (text : Bytes) : (withReturns text).takeWhile p = text.takeWhile p := by
  induction text with
  | nil => rfl
  | cons b rest ih =>
    by_cases hb : b = lineFeed
    · rw [hb, withReturns_lineFeed, List.takeWhile_cons_of_neg (by simp [hr]),
        List.takeWhile_cons_of_neg (by simp [hl])]
    · rw [withReturns_cons hb, List.takeWhile_cons, List.takeWhile_cons, ih]

theorem dropWhile_withReturns (hl : p lineFeed = false) (hr : p carriageReturn = false)
    (text : Bytes) : (withReturns text).dropWhile p = withReturns (text.dropWhile p) := by
  induction text with
  | nil => rfl
  | cons b rest ih =>
    by_cases hb : b = lineFeed
    · rw [hb, withReturns_lineFeed, List.dropWhile_cons_of_neg (by simp [hr]),
        List.dropWhile_cons_of_neg (by simp [hl]), withReturns_lineFeed]
    · rw [withReturns_cons hb, List.dropWhile_cons, List.dropWhile_cons, ih]
      split
      · rfl
      · exact (withReturns_cons hb rest).symm

theorem afterWord?_withReturns {word : Bytes} (hl : lineFeed ∉ word) (hr : carriageReturn ∉ word)
    (text : Bytes) :
    afterWord? word (withReturns text) = (afterWord? word text).map withReturns := by
  induction word generalizing text with
  | nil => rfl
  | cons w word ih =>
    rw [List.mem_cons, not_or] at hl hr
    cases text with
    | nil => rfl
    | cons b rest =>
      by_cases hb : b = lineFeed
      · rw [hb, withReturns_lineFeed, afterWord?, if_neg hr.1, afterWord?, if_neg hl.1]
        rfl
      · rw [withReturns_cons hb, afterWord?, afterWord?, ih hl.2 hr.2]
        split <;> rfl

end

namespace Literal

/-- Whether a string literal opens with three quotes, behind the letters that it may start with. -/
def isTriple (text : Bytes) : Bool :=
  match text.dropWhile (!isQuote ·) with
  | [] => false
  | quote :: rest => startsWith [quote, quote] rest

/-- Whether a literal that one quote opens takes the end of a line. -/
def isSplit (text : Bytes) : Bool := text.contains lineFeed && !isTriple text

theorem isTriple_append {mark : Bytes} (hm : ∀ b ∈ mark, isQuote b = false) {quote : UInt8}
    (hq : isQuote quote = true) (rest : Bytes) :
    isTriple (mark ++ quote :: rest) = startsWith [quote, quote] rest := by
  unfold isTriple
  rw [List.dropWhile_append_of_pos fun b hb => by simp [hm b hb],
    List.dropWhile_cons_of_neg (by simp [hq])]

theorem isSplit_eq_false {text : Bytes} (h : lineFeed ∉ text) : isSplit text = false := by
  simp [isSplit, h]

theorem ne_of_isQuote : ∀ b, isQuote b = true →
    b ≠ lineFeed ∧ b ≠ carriageReturn ∧ b ≠ backslash := by
  decide +kernel

end Literal

namespace Lexeme

/-- What becomes of a literal of one line, in front of `rest`, when its line ends get carriage
returns: the line end that cuts it off is preceded by one, and an escape takes the carriage return
in place of the line end. -/
inductive Body.Returned (rest : Bytes) : Body → Body → Prop
  | same {text : Bytes} (ht : lineFeed ∉ text) (closed : Bool) :
    Body.Returned rest ⟨text, closed⟩ ⟨text, closed⟩
  | ended {text : Bytes} (ht : lineFeed ∉ text) (hr : rest.head? = some lineFeed) :
    Body.Returned rest ⟨text, false⟩ ⟨text ++ [carriageReturn], false⟩
  | split {text front : Bytes} (ht : lineFeed ∈ text) (hf : lineFeed ∉ front) (closed : Bool) :
    Body.Returned rest ⟨text, closed⟩ ⟨front, false⟩

theorem Body.Returned.prepend {rest front : Bytes} {body other : Body}
    (h : Body.Returned rest body other) (hf : lineFeed ∉ front) :
    Body.Returned rest (body.prepend front) (other.prepend front) := by
  cases h with
  | same ht closed => exact .same (by simp [hf, ht]) closed
  | @ended text ht hr =>
    have h : Body.Returned rest ⟨front ++ text, false⟩ ⟨front ++ text ++ [carriageReturn], false⟩ :=
      .ended (by simp [hf, ht]) hr
    rwa [List.append_assoc] at h
  | split ht hn closed => exact .split (by simp [ht]) (by simp [hf, hn]) closed

theorem plainBody_lineFeed (quote : UInt8) (rest : Bytes) :
    plainBody quote (lineFeed :: rest) = ⟨[], false⟩ := by
  rw [plainBody.eq_def]
  rfl

theorem plainBody_cons {quote b : UInt8} (hb : b ≠ backslash) (hl : b ≠ lineFeed) (hq : b ≠ quote)
    (rest : Bytes) : plainBody quote (b :: rest) = (plainBody quote rest).prepend [b] := by
  rw [plainBody.eq_def]
  dsimp only
  rw [if_neg hb, if_neg hl, if_neg hq]

theorem returned_plainBody {quote : UInt8} (hq : Literal.isQuote quote = true) {text rest : Bytes}
    (he : text = (plainBody quote text).text ++ rest) :
    Body.Returned rest (plainBody quote text) (plainBody quote (withReturns text)) := by
  obtain ⟨hfeed, hreturn, -⟩ := Literal.ne_of_isQuote quote hq
  -- Along the scan. The first line end that it meets, escaped or not, decides.
  fun_induction plainBody quote text with
  | case1 => exact .same List.not_mem_nil _
  | case2 => exact .same (by decide) _
  | case3 c escaped ih =>
    have hbehind : escaped = (plainBody quote escaped).text ++ rest :=
      (List.cons.inj (List.cons.inj he).2).2
    by_cases hc : c = lineFeed
    -- The escape takes the carriage return, and the line end behind it cuts the literal off.
    · rw [hc, withReturns_cons (by decide), withReturns_lineFeed, plainBody, if_pos rfl,
        plainBody_lineFeed]
      exact .split (List.mem_cons_of_mem _ List.mem_cons_self) (by decide) _
    · rw [withReturns_cons (by decide), withReturns_cons hc, plainBody, if_pos rfl]
      exact (ih hbehind).prepend (by simpa using ⟨by decide, Ne.symm hc⟩)
  | case4 more =>
    rw [withReturns_lineFeed, plainBody_cons (by decide) (by decide) hreturn.symm,
      plainBody_lineFeed]
    have hhead : rest.head? = some lineFeed := congrArg List.head? he.symm
    exact .ended List.not_mem_nil hhead
  | case5 more hb hl =>
    have hclosed : plainBody quote (quote :: withReturns more) = ⟨[quote], true⟩ := by
      rw [plainBody.eq_def]
      dsimp only
      rw [if_neg hb, if_neg hl, if_pos rfl]
    rw [withReturns_cons hl, hclosed]
    exact .same (by simpa using hfeed.symm) _
  | case6 b more hb hl hn ih =>
    rw [withReturns_cons hl, plainBody_cons hb hl hn]
    exact (ih (List.cons.inj he).2).prepend (by simpa using Ne.symm hl)

theorem afterQuotes_withReturns {quote : UInt8} (hq : Literal.isQuote quote = true) (text : Bytes) :
    afterWord? [quote, quote] (withReturns text) =
      (afterWord? [quote, quote] text).map withReturns := by
  obtain ⟨hfeed, hreturn, -⟩ := Literal.ne_of_isQuote quote hq
  exact afterWord?_withReturns (by simpa using hfeed.symm) (by simpa using hreturn.symm) text

theorem tripleBody_cons {quote b : UInt8} (hb : b ≠ backslash) (hq : b ≠ quote) (rest : Bytes) :
    tripleBody quote (b :: rest) = (tripleBody quote rest).prepend [b] := by
  rw [tripleBody.eq_def]
  dsimp only
  rw [if_neg hb, if_neg fun h => hq h.1]

/-- A literal of three quotes takes the carriage returns with the line ends. -/
theorem tripleBody_withReturns {quote : UInt8} (hq : Literal.isQuote quote = true) (text : Bytes) :
    tripleBody quote (withReturns text) =
      ⟨withReturns (tripleBody quote text).text, (tripleBody quote text).closed⟩ := by
  obtain ⟨hfeed, hreturn, -⟩ := Literal.ne_of_isQuote quote hq
  have hquotes (rest : Bytes) : startsWith [quote, quote] (withReturns rest) =
      startsWith [quote, quote] rest := by
    unfold startsWith
    rw [afterQuotes_withReturns hq, Option.isSome_map]
  fun_induction tripleBody quote text with
  | case1 => rfl
  | case2 => rfl
  | case3 c escaped ih =>
    -- Behind the backslash the return is what is escaped, and the line feed comes as such.
    by_cases hc : c = lineFeed
    · rw [hc, withReturns_cons (by decide), withReturns_lineFeed, tripleBody, if_pos rfl,
        tripleBody_cons (by decide) hfeed.symm, ih]
      rfl
    · rw [withReturns_cons (by decide), withReturns_cons hc, tripleBody, if_pos rfl, ih]
      simp only [Body.prepend, withReturns_append]
      rw [withReturns_cons (by decide), withReturns_cons hc]
      rfl
  | case4 b rest hb hn =>
    rw [withReturns_cons (hn.1 ▸ hfeed), tripleBody.eq_def]
    dsimp only
    rw [if_neg hb, if_pos ⟨hn.1, (hquotes rest).trans hn.2⟩, hn.1,
      withReturns_eq_self (by simpa using hfeed.symm)]
  | case5 b rest hb hn ih =>
    by_cases hl : b = lineFeed
    · rw [hl, withReturns_lineFeed, tripleBody_cons (by decide) hreturn.symm,
        tripleBody_cons (by decide) hfeed.symm, ih]
      rfl
    · rw [withReturns_cons hl, tripleBody.eq_def]
      dsimp only
      rw [if_neg hb, if_neg fun h => hn ⟨h.1, hquotes rest ▸ h.2⟩, ih]
      simp only [Body.prepend, withReturns_append]
      rw [withReturns_cons hl]
      rfl

/-- A lexeme in front of `rest` that is the same when the line ends get carriage returns, up to
these. A comment and a literal without an end take the one in front of the line end behind them. -/
inductive Kept (rest : Bytes) : Lexeme → Lexeme → Prop
  | same {kind : LexemeKind} {text : Bytes}
    (hs : kind = .token .string ∨ kind = .unclosed → Literal.isSplit text = false) :
    Kept rest ⟨kind, text⟩ ⟨kind, withReturns text⟩
  | ended {kind : LexemeKind} {text : Bytes} (ht : lineFeed ∉ text)
      (hr : rest.head? = some lineFeed) :
    Kept rest ⟨kind, text⟩ ⟨kind, text ++ [carriageReturn]⟩

theorem Kept.of_eq {rest : Bytes} {lexeme : Lexeme} (ht : lineFeed ∉ lexeme.text) :
    Kept rest lexeme lexeme := by
  have h : Kept rest lexeme ⟨lexeme.kind, withReturns lexeme.text⟩ :=
    .same fun _ => Literal.isSplit_eq_false ht
  rwa [withReturns_eq_self ht] at h

/-- A literal that one quote opens goes on behind a line end, and `other` stops there. -/
structure Torn (lexeme other : Lexeme) : Prop where
  isLiteral : lexeme.kind = .token .string ∨ lexeme.kind = .unclosed
  isSplit : Literal.isSplit lexeme.text = true
  unclosed : other.kind = .unclosed
  notMem : lineFeed ∉ other.text

theorem kept_or_torn_of_body {rest : Bytes} {body other : Body} (h : Body.Returned rest body other)
    (hn : Literal.isTriple body.text = false) :
    let lexeme : Lexeme := ⟨if body.closed then .token .string else .unclosed, body.text⟩
    let next : Lexeme := ⟨if other.closed then .token .string else .unclosed, other.text⟩
    Kept rest lexeme next ∨ Torn lexeme next := by
  cases h with
  | same ht closed => exact .inl (.of_eq ht)
  | ended ht hr => exact .inl (.ended ht hr)
  | split hl hf closed =>
    refine .inr ⟨?_, by simpa [Literal.isSplit, hl] using hn, rfl, hf⟩
    cases closed
    · exact .inr rfl
    · exact .inl rfl

theorem wordByte_ne : ∀ b, isWordByte b = true → b ≠ lineFeed ∧ Literal.isQuote b = false := by
  decide +kernel

theorem kept_or_torn_ofLiteral {mark rest after : Bytes} {quote : UInt8}
    (hm : ∀ b ∈ mark, isWordByte b = true) (hq : Literal.isQuote quote = true)
    (he : mark ++ quote :: rest = (ofLiteral mark quote rest).text ++ after) :
    Kept after (ofLiteral mark quote rest) (ofLiteral mark quote (withReturns rest)) ∨
      Torn (ofLiteral mark quote rest) (ofLiteral mark quote (withReturns rest)) := by
  have hfeed := (Literal.ne_of_isQuote quote hq).1
  have hmark : lineFeed ∉ mark := fun hl => (wordByte_ne _ (hm _ hl)).1 rfl
  have htriple := Literal.isTriple_append (fun b hb => (wordByte_ne b (hm b hb)).2) hq
  unfold ofLiteral literalBody at he ⊢
  rw [afterQuotes_withReturns hq]
  cases ht : afterWord? [quote, quote] rest with
  | some body =>
    have htext : withReturns (mark ++ quote :: quote :: quote :: (tripleBody quote body).text) =
        mark ++ quote :: quote :: quote :: withReturns (tripleBody quote body).text := by
      rw [withReturns_append, withReturns_eq_self hmark, withReturns_cons hfeed,
        withReturns_cons hfeed, withReturns_cons hfeed]
    dsimp only [Option.map_some]
    rw [tripleBody_withReturns hq]
    simp only [Body.prepend, List.cons_append, List.nil_append, ← htext]
    refine .inl (.same fun _ => ?_)
    unfold Literal.isSplit
    rw [htriple, Bool.and_eq_false_iff, Bool.not_eq_false']
    exact .inr (by simp [startsWith, afterWord?])
  | none =>
    rw [ht] at he
    dsimp only [Option.map_none] at he ⊢
    simp only [Body.prepend, List.append_assoc, List.cons_append] at he
    have hbehind : rest = (plainBody quote rest).text ++ after :=
      (List.cons.inj (List.append_cancel_left he)).2
    have hquote : lineFeed ∉ [quote] := by simpa using hfeed.symm
    refine kept_or_torn_of_body (((returned_plainBody hq hbehind).prepend hquote).prepend hmark) ?_
    -- A literal that does not open with three quotes does not take two of them to start with.
    refine (htriple _).trans (Bool.eq_false_iff.2 fun hs => ?_)
    have hopens : startsWith [quote, quote] ((plainBody quote rest).text ++ after) = true :=
      startsWith_append hs after
    rw [← hbehind, startsWith, ht] at hopens
    cases hopens

theorem kept_comment {rest after : Bytes}
    (he : hash :: rest = hash :: rest.takeWhile (· != lineFeed) ++ after) :
    Kept after ⟨.filler, hash :: rest.takeWhile (· != lineFeed)⟩
      ⟨.filler, hash :: (withReturns rest).takeWhile (· != lineFeed)⟩ := by
  have hcomment : lineFeed ∉ hash :: rest.takeWhile (· != lineFeed) := by
    rw [List.mem_cons, not_or]
    exact ⟨by decide, fun hm => by simpa using List.mem_takeWhile_imp hm⟩
  by_cases h : lineFeed ∈ rest
  · obtain ⟨line, more, rfl, hn⟩ := List.eq_append_cons_of_mem h
    have hline : ∀ b ∈ line, (b != lineFeed) = true := by
      intro b hb
      simpa using ne_of_mem_of_not_mem hb hn
    have htake : (line ++ lineFeed :: more).takeWhile (· != lineFeed) = line := by
      rw [List.takeWhile_append_of_pos hline, List.takeWhile_cons_of_neg (by simp), List.append_nil]
    have htake' : (withReturns (line ++ lineFeed :: more)).takeWhile (· != lineFeed) =
        line ++ [carriageReturn] := by
      rw [withReturns_append, withReturns_eq_self hn, withReturns_lineFeed,
        List.takeWhile_append_of_pos hline, List.takeWhile_cons_of_pos (by decide),
        List.takeWhile_cons_of_neg (by simp)]
    rw [htake] at he hcomment
    have hafter : lineFeed :: more = after := List.append_cancel_left (List.cons.inj he).2
    rw [htake, htake', ← hafter]
    exact .ended hcomment rfl
  · rw [withReturns_eq_self h]
    exact .of_eq hcomment

theorem kept_or_torn_word {b : UInt8} {rest after : Bytes} (hw : startsWord b = true)
    (he : b :: rest = (read b rest).text ++ after) :
    Kept after (read b rest) (read b (withReturns rest)) ∨
      Torn (read b rest) (read b (withReturns rest)) := by
  have htake : (withReturns rest).takeWhile isWordByte = rest.takeWhile isWordByte :=
    takeWhile_withReturns (by decide) (by decide) rest
  have hdrop : (withReturns rest).dropWhile isWordByte = withReturns (rest.dropWhile isWordByte) :=
    dropWhile_withReturns (by decide) (by decide) rest
  have hword : ∀ c ∈ b :: rest.takeWhile isWordByte, isWordByte c = true :=
    List.forall_mem_cons.2 ⟨by simp [isWordByte, hw], fun _ => List.mem_takeWhile_imp⟩
  -- In front of a quote a word can be the mark of a literal, which is then read instead.
  by_cases hq : ∀ quote ∈ (rest.dropWhile isWordByte).head?,
      ¬(Literal.isQuote quote = true ∧ isStringMark (b :: rest.takeWhile isWordByte) = true)
  · have hq' : ∀ quote ∈ (withReturns (rest.dropWhile isWordByte)).head?,
        ¬(Literal.isQuote quote = true ∧ isStringMark (b :: rest.takeWhile isWordByte) = true) := by
      cases hd : rest.dropWhile isWordByte with
      | nil =>
        intro quote hm
        cases hm
      | cons quote behind =>
        by_cases hl : quote = lineFeed
        · rw [hl, withReturns_lineFeed]
          rintro _ ⟨⟩ ⟨hn, -⟩
          cases hn
        · rw [withReturns_cons hl]
          rw [hd] at hq
          exact hq
    rw [read_unmarked hw hq, read_unmarked hw (by rwa [htake, hdrop]), htake]
    exact .inl (.of_eq fun hl => (wordByte_ne _ (hword _ hl)).1 rfl)
  · push Not at hq
    obtain ⟨quote, hm, hq⟩ := hq
    obtain ⟨behind, hd⟩ := eq_cons_of_head? (Option.mem_def.1 hm)
    have hfeed := (Literal.ne_of_isQuote quote hq.1).1
    have hd' : (withReturns rest).dropWhile isWordByte = quote :: withReturns behind := by
      rw [hdrop, hd, withReturns_cons hfeed]
    rw [read_marked hw hd hq] at he ⊢
    rw [read_marked hw hd' (by rwa [htake]), htake]
    refine kept_or_torn_ofLiteral hword hq.1 ?_
    rw [← he, ← hd, List.cons_append, List.takeWhile_append_dropWhile]

theorem kept_backslash {rest after : Bytes} (hn : carriageReturn ∉ rest) :
    Kept after (read backslash rest) (read backslash (withReturns rest)) := by
  cases rest with
  | nil => exact .of_eq (by decide)
  | cons b rest =>
    by_cases hb : b = lineFeed
    · rw [hb, withReturns_lineFeed]
      exact .same (by rintro (h | h) <;> cases h)
    · have hreturn : b ≠ carriageReturn := (List.ne_of_not_mem_cons hn).symm
      have hunknown : ∀ more, read backslash (b :: more) = ⟨.unknown, [backslash]⟩ := by
        refine fun more => read_backslash (by simpa using hb) ?_
        rw [startsWith, afterWord?, if_neg hreturn]
        decide
      rw [withReturns_cons hb, hunknown, hunknown]
      exact .of_eq (by decide)

/-- A text up to the end of its first line. With and without carriage returns, what is behind ends
every lexeme of the line but a comment. -/
theorem exists_line (text : Bytes) : ∃ line behind, text = line ++ behind ∧ lineFeed ∉ line ∧
    EndsLexeme behind ∧ EndsLexeme (withReturns behind) := by
  by_cases h : lineFeed ∈ text
  · obtain ⟨line, more, rfl, hn⟩ := List.eq_append_cons_of_mem h
    refine ⟨line, lineFeed :: more, rfl, hn, ?_, ?_⟩
    · rintro b ⟨⟩
      decide
    · rintro b ⟨⟩
      decide
  · exact ⟨text, [], (List.append_nil text).symm, h, nofun, nofun⟩

/-- Only a literal that goes over a line end behind a backslash reads otherwise. -/
theorem kept_or_torn_read {b : UInt8} {rest after : Bytes} (hb : b ≠ lineFeed)
    (hn : carriageReturn ∉ rest) (he : b :: rest = (read b rest).text ++ after) :
    Kept after (read b rest) (read b (withReturns rest)) ∨
      Torn (read b rest) (read b (withReturns rest)) := by
  by_cases hw : startsWord b = true
  · exact kept_or_torn_word hw he
  by_cases hs : b = backslash
  · rw [hs]
    exact .inl (kept_backslash hn)
  by_cases hh : b = hash
  · subst hh
    exact .inl (kept_comment he)
  have hread := read_of_ne hs hh hw
  obtain ⟨line, behind, rfl, hl, hends, hends'⟩ := exists_line rest
  have hline : lineFeed ∉ b :: line := List.not_mem_cons_of_ne_of_not_mem hb.symm hl
  have hnumber : number (b :: (line ++ behind)) = number (b :: line) := number_append hends b line
  have hnumber' : number (b :: (line ++ withReturns behind)) = number (b :: line) :=
    number_append hends' b line
  rw [hread] at he ⊢
  rw [hread, withReturns_append, withReturns_eq_self hl, hends.any_append (by decide),
    hends'.any_append (by decide), hnumber, hnumber', punctuation_append hends,
    punctuation_append hends']
  split
  · exact .inl (.of_eq (List.not_mem_cons_of_ne_of_not_mem hb.symm List.not_mem_nil))
  split
  · exact .inl (.of_eq fun hm => hline ((prefix_number (b :: line)).1.subset hm))
  split
  · rename_i hf hd hq
    rw [if_neg hf, if_neg hb, hends.any_append (by decide), if_neg hd, if_pos hq] at he
    have h := kept_or_torn_ofLiteral (List.forall_mem_nil _) hq he
    rwa [withReturns_append, withReturns_eq_self hl] at h
  · exact .inl (.of_eq fun hm => hline ((form_punctuation b line).prefix_text.subset hm))

end Lexeme

end ManifestScan
