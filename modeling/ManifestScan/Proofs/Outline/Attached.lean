import ManifestScan.Proofs.Outline.Decorators
import Mathlib.Data.List.Nodup

namespace ManifestScan

namespace Token

/-- What follows the lines that start with `@`, and empty lines, from the start of a line on, or
from `inside` such a line. -/
def behindDecorators : Bool → List Token → List Token
  | _, [] => []
  | inside, token :: rest =>
    if token.kind = .newline then behindDecorators false rest
    else if inside ∨ token.kind = .at then behindDecorators true rest
    else token :: rest

/-- Behind the decorators no change of indentation comes and no end of the source. -/
def Followed (tokens : List Token) : Prop :=
  ∃ token ∈ (behindDecorators false tokens).head?, token.kind.isLayout = false

/-- The tokens from each place on where a logical line starts. -/
def lineStarts : Bool → List Token → List (List Token)
  | _, [] => []
  | first, token :: rest =>
    if token.kind.isLayout then lineStarts true rest
    else if first then (token :: rest) :: lineStarts false rest
    else lineStarts false rest

theorem ne_newline_of_isLayout {token : Token} (h : token.kind.isLayout = false) :
    token.kind ≠ .newline := by
  intro hk
  rw [hk] at h
  cases h

theorem behindDecorators_line {mark : Token} {words left rest : List Token} (hm : mark.kind = .at)
    (hw : ∀ token ∈ words, token.kind.isLayout = false) (hr : Ends left rest) :
    behindDecorators false (mark :: words ++ left) = behindDecorators false rest := by
  have hinside : behindDecorators true (words ++ left) = behindDecorators true left := by
    induction words with
    | nil => rfl
    | cons word words ih =>
      obtain ⟨hword, hwords⟩ := List.forall_mem_cons.1 hw
      rw [List.cons_append, behindDecorators, if_neg (ne_newline_of_isLayout hword),
        if_pos (.inl rfl), ih hwords]
  rw [List.cons_append, behindDecorators, if_neg (by simp [hm]), if_pos (.inr hm), hinside]
  cases hr with
  | newline hk => rw [behindDecorators, if_pos hk]
  | last => rfl

theorem behindDecorators_self {token : Token} {rest : List Token} (hn : token.kind ≠ .newline)
    (ha : token.kind ≠ .at) : behindDecorators false (token :: rest) = token :: rest := by
  rw [behindDecorators, if_neg hn, if_neg (by simpa using ha)]

theorem not_followed_of_isLayout {token : Token} {rest : List Token}
    (hl : token.kind.isLayout = true) (hn : token.kind ≠ .newline) : ¬Followed (token :: rest) := by
  rintro ⟨other, ho, hk⟩
  have ha : token.kind ≠ .at := by
    intro ha
    rw [ha] at hl
    cases hl
  rw [behindDecorators_self hn ha] at ho
  cases ho
  rw [hl] at hk
  cases hk

theorem lineStarts_layout {token : Token} {rest : List Token} (hl : token.kind.isLayout = true)
    (first : Bool) : lineStarts first (token :: rest) = lineStarts true rest := by
  rw [lineStarts, if_pos hl]

theorem lineStarts_line {token : Token} {words left rest : List Token}
    (hw : ∀ other ∈ token :: words, other.kind.isLayout = false) (hr : Ends left rest) :
    lineStarts true (token :: words ++ left) =
      (token :: words ++ left) :: lineStarts true rest := by
  obtain ⟨htoken, hwords⟩ := List.forall_mem_cons.1 hw
  have hinside : lineStarts false (words ++ left) = lineStarts true rest := by
    induction words with
    | nil =>
      cases hr with
      | newline hk => exact lineStarts_layout (by rw [hk]; rfl) false
      | last => rfl
    | cons word words ih =>
      obtain ⟨hword, hothers⟩ := List.forall_mem_cons.1 hwords
      rw [List.cons_append, lineStarts, if_neg (by simp [hword]), if_neg (by simp)]
      exact ih (List.forall_mem_cons.2 ⟨htoken, hothers⟩) hothers
  rw [List.cons_append, lineStarts, if_neg (by simp [htoken]), if_pos rfl, hinside]

theorem mem_lineStarts {front rest : List Token} {mark : Token} (hm : mark.kind.isLayout = false)
    {first : Bool} (hf : front = [] → first = true)
    (hl : ∀ token ∈ front.getLast?, token.kind.isLayout = true) :
    mark :: rest ∈ lineStarts first (front ++ mark :: rest) := by
  induction front generalizing first with
  | nil =>
    rw [List.nil_append, lineStarts, if_neg (by simp [hm]), if_pos (hf rfl)]
    exact List.mem_cons_self
  | cons token front ih =>
    rw [List.cons_append, lineStarts]
    by_cases hn : front = []
    · subst hn
      rw [if_pos (hl token rfl)]
      exact ih (fun _ => rfl) nofun
    · have hlast : ∀ other ∈ front.getLast?, other.kind.isLayout = true := by
        obtain ⟨next, others, rfl⟩ := List.exists_cons_of_ne_nil hn
        rwa [List.getLast?_cons_cons] at hl
      have hrest := fun first => @ih first (fun he => absurd he hn) hlast
      split
      · exact hrest true
      · split
        · exact List.mem_cons_of_mem _ (hrest false)
        · exact hrest false

/-- The token that marks the end of the source starts no line. -/
theorem lineStarts_concat {final : Token} (hf : final.kind = .endOfFile) (first : Bool)
    (tokens : List Token) :
    lineStarts first (tokens ++ [final]) = (lineStarts first tokens).map (· ++ [final]) := by
  induction tokens generalizing first with
  | nil => exact lineStarts_layout (by rw [hf]; rfl) first
  | cons token tokens ih =>
    rw [List.cons_append, lineStarts, lineStarts]
    split
    · exact ih true
    · split
      · rw [List.map_cons, ih false]
        rfl
      · exact ih false

theorem behindDecorators_concat {final : Token} (hf : final.kind = .endOfFile) {tokens : List Token}
    {inside : Bool}
    (hn : ∃ token ∈ (behindDecorators inside (tokens ++ [final])).head?,
      token.kind.isLayout = false) :
    behindDecorators inside (tokens ++ [final]) = behindDecorators inside tokens ++ [final] ∧
      (behindDecorators inside (tokens ++ [final])).head? =
        (behindDecorators inside tokens).head? := by
  induction tokens generalizing inside with
  | nil =>
    obtain ⟨token, ht, hk⟩ := hn
    rw [List.nil_append, behindDecorators, if_neg (by simp [hf])] at ht
    split at ht
    · cases ht
    · cases ht
      rw [hf] at hk
      cases hk
  | cons token tokens ih =>
    rw [List.cons_append, behindDecorators] at hn ⊢
    rw [behindDecorators]
    split at hn
    · rename_i hk
      rw [if_pos hk, if_pos hk]
      exact ih hn
    · rename_i hk
      rw [if_neg hk, if_neg hk]
      split at hn
      · rename_i hi
        rw [if_pos hi, if_pos hi]
        exact ih hn
      · rename_i hi
        rw [if_neg hi, if_neg hi]
        exact ⟨rfl, rfl⟩

end Token

namespace Definition

def StandsAt (definition : Definition) (tokens : List Token) : Prop :=
  ∃ front keyword words colon rest, tokens = (front ++ keyword :: words) ++ colon :: rest ∧
    definition.Heads front keyword words colon

/-- The definition whose header follows the decorators takes one of which `p` holds. -/
def Attached (definitions : List Definition) (p : Decorator → Prop) (tokens : List Token) : Prop :=
  Token.Followed tokens → ∃ definition ∈ allOf definitions,
    (∃ decorator ∈ definition.decorators, p decorator) ∧
    definition.StandsAt (Token.behindDecorators false tokens)

theorem Attached.mono {definitions others : List Definition} {p : Decorator → Prop}
    {tokens : List Token} (h : Attached definitions p tokens)
    (hs : allOf definitions ⊆ allOf others) :
    Attached others p tokens := by
  intro hf
  obtain ⟨definition, hm, hd⟩ := h hf
  exact ⟨definition, hs hm, hd⟩

theorem Attached.congr {definitions : List Definition} {p : Decorator → Prop}
    {tokens others : List Token} (h : Attached definitions p tokens)
    (he : Token.behindDecorators false others = Token.behindDecorators false tokens) :
    Attached definitions p others := by
  unfold Attached Token.Followed
  rw [he]
  exact h

/-- The decorator that starts a line goes to the definition behind it. -/
def Settled (definitions : List Definition) (line : List Token) : Prop :=
  ∀ mark, line.head? = some mark → mark.kind = .at →
    Attached definitions (·.extent.start = mark.offset) line

theorem Settled.mono {definitions others : List Definition} {line : List Token}
    (h : Settled definitions line) (hs : allOf definitions ⊆ allOf others) : Settled others line :=
  fun mark hh hk => (h mark hh hk).mono hs

theorem allOf_subset_cons (definition : Definition) (others : List Definition) :
    allOf definition.definitions ⊆ allOf (definition :: others) ∧
      allOf others ⊆ allOf (definition :: others) := by
  rw [allOf, all_eq]
  exact ⟨fun _ hm => List.mem_append_left _ (List.mem_cons_of_mem _ hm),
    List.subset_append_right _ _⟩

namespace Heads

variable {definition : Definition} {front words rest : List Token} {keyword colon : Token}
  (h : definition.Heads front keyword words colon)

include h

/-- A header starts with no decorator and no line end. -/
theorem head?_ne {first : Token}
    (hf : ((front ++ keyword :: words) ++ colon :: rest).head? = some first) :
    first.kind ≠ .at ∧ first.kind ≠ .newline := by
  cases front with
  | nil =>
    cases hf
    rcases h.isKeyword with hk | hk <;> rw [hk] <;> decide
  | cons first front =>
    cases hf
    rw [h.async first List.mem_cons_self]
    decide

theorem standsAt : definition.StandsAt (Token.behindDecorators false
    ((front ++ keyword :: words) ++ colon :: rest)) := by
  refine ⟨front, keyword, words, colon, rest, ?_, h⟩
  cases he : (front ++ keyword :: words) ++ colon :: rest with
  | nil => simp at he
  | cons first others =>
    obtain ⟨ha, hn⟩ := h.head?_ne (show _ = some first by rw [he]; rfl)
    exact Token.behindDecorators_self hn ha

theorem settled (definitions : List Definition) :
    Settled definitions ((front ++ keyword :: words) ++ colon :: rest) :=
  fun _ hh hk => absurd hk (h.head?_ne hh).1

end Heads

end Definition

open Definition (Attached Settled allOf)

/-- Every decorator that is pending or read goes to the definition whose header follows it. -/
structure Attaches (pending : List Decorator) (tokens : List Token) (definitions : List Definition)
    (next : List Token) : Prop where
  pending : ∀ decorator ∈ pending, Attached definitions (· = decorator) tokens
  read : ∀ line ∈ Token.lineStarts true tokens,
    line ∈ Token.lineStarts true next ∨ Settled definitions line

namespace Attaches

variable {pending before : List Decorator} {tokens rest close next : List Token}
  {definitions others : List Definition}

/-- In front of a change of indentation nothing is promised to what is pending. -/
theorem layout {token : Token} (hl : token.kind.isLayout = true) (hn : token.kind ≠ .newline)
    (hr : ∀ line ∈ Token.lineStarts true rest,
      line ∈ Token.lineStarts true next ∨ Settled definitions line) :
    Attaches pending (token :: rest) definitions next :=
  ⟨fun _ _ hf => absurd hf (Token.not_followed_of_isLayout hl hn),
    (Token.lineStarts_layout hl true).symm ▸ hr⟩

theorem mono (h : Attaches pending rest definitions next)
    (hs : allOf definitions ⊆ allOf others) : ∀ line ∈ Token.lineStarts true rest,
      line ∈ Token.lineStarts true next ∨ Settled others line :=
  fun line hm => (h.read line hm).imp_right fun hd => hd.mono hs

/-- What an inner block leaves is read behind it. -/
theorem trans {all : List Definition} (h : Attaches before rest definitions close)
    (h' : Attaches pending close others next) (hs : allOf definitions ⊆ allOf all)
    (hs' : allOf others ⊆ allOf all) : ∀ line ∈ Token.lineStarts true rest,
      line ∈ Token.lineStarts true next ∨ Settled all line := by
  intro line hm
  rcases h.mono hs line hm with hc | hc
  · exact h'.mono hs' line hc
  · exact .inr hc

/-- A definition takes what is pending. -/
theorem definition {definition : Definition} {front words : List Token} {keyword colon : Token}
    (hh : definition.Heads front keyword words colon) (hd : definition.decorators = pending)
    (ht : Token.lineStarts true ((front ++ keyword :: words) ++ colon :: rest) =
      ((front ++ keyword :: words) ++ colon :: rest) :: Token.lineStarts true tokens)
    (hr : ∀ line ∈ Token.lineStarts true tokens,
      line ∈ Token.lineStarts true next ∨ Settled (definition :: others) line) :
    Attaches pending ((front ++ keyword :: words) ++ colon :: rest)
      (definition :: others) next := by
  refine ⟨fun decorator hm _ => ⟨definition, ?_, ⟨decorator, hd ▸ hm, rfl⟩, hh.standsAt⟩, ?_⟩
  · rw [allOf, Definition.all_eq]
    exact List.mem_append_left _ List.mem_cons_self
  · rw [ht]
    exact List.forall_mem_cons.2 ⟨.inr (hh.settled _), hr⟩

end Attaches

theorem Definition.Heads.lineStarts_eq {definition : Definition}
    {front words behind left rest : List Token}
    {keyword colon : Token} (h : definition.Heads front keyword words colon)
    (hb : ∀ token ∈ behind, token.kind.isLayout = false) (hr : Token.Ends left rest) :
    Token.lineStarts true ((front ++ keyword :: words) ++ colon :: (behind ++ left)) =
      ((front ++ keyword :: words) ++ colon :: (behind ++ left)) :: Token.lineStarts true rest := by
  have hline := h.forall_line hb
  obtain ⟨first, others, he⟩ := List.exists_cons_of_ne_nil
    (show (front ++ keyword :: words) ++ colon :: behind ≠ [] by simp)
  have heq :
      (front ++ keyword :: words) ++ colon :: (behind ++ left) = first :: others ++ left := by
    rw [← he, List.append_assoc _ (colon :: behind)]
    rfl
  rw [heq]
  exact Token.lineStarts_line (he ▸ hline) hr

theorem BlockLines.attaches {pending : List Decorator} {tokens next : List Token}
    {contents : Cursor.Contents} (h : BlockLines pending tokens contents next) :
    Attaches pending tokens contents.definitions next := by
  -- Along the lines of a block. What is pending changes at a decorator and at a definition only.
  induction h with
  | nil =>
    refine ⟨fun _ _ hf => ?_, nofun⟩
    obtain ⟨_, ht, -⟩ := hf
    cases ht
  | close hk => exact .layout (by rw [hk]; rfl) (by rw [hk]; decide) fun _ hm => .inl hm
  | @pass pending token rest next contents hk _ ih =>
    rcases hk with hk | hk
    · exact .layout (by rw [hk]; rfl) (by rw [hk]; decide) ih.read
    · have he :
          Token.behindDecorators false (token :: rest) = Token.behindDecorators false rest := by
        rw [Token.behindDecorators, if_pos hk]
      refine ⟨fun decorator hd => (ih.pending decorator hd).congr he, ?_⟩
      rw [Token.lineStarts_layout (by rw [hk]; rfl)]
      exact ih.read
  | indent hk _ _ ihi ih =>
    refine .layout (by rw [hk]; rfl) (by rw [hk]; decide) (ihi.trans ih ?_ ?_)
    · rw [Definition.allOf_append]
      exact List.subset_append_left _ _
    · rw [Definition.allOf_append]
      exact List.subset_append_right _ _
  | @decorator pending mark words left rest next decorator contents hk hw hr he _ ih =>
    have hbehind := Token.behindDecorators_line hk hw hr
    have hwords : ∀ token ∈ mark :: words, token.kind.isLayout = false :=
      List.forall_mem_cons.2 ⟨by rw [hk]; rfl, hw⟩
    refine ⟨fun other hm => (ih.pending other (List.mem_append_left _ hm)).congr hbehind, ?_⟩
    rw [Token.lineStarts_line hwords hr]
    refine List.forall_mem_cons.2 ⟨.inr fun first hf _ hfollowed => ?_, ih.read⟩
    cases hf
    obtain ⟨definition, hm, ⟨other, ho, rfl⟩, hs⟩ :=
      (ih.pending decorator (by simp)).congr hbehind hfollowed
    exact ⟨definition, hm, ⟨other, ho, congrArg Extent.start he⟩, hs⟩
  | @line pending front words behind left close next keyword colon definition others hd hh hb hr _
      hn _ ih =>
    rw [List.append_assoc, List.cons_append]
    exact .definition hh hd (hh.lineStarts_eq hb hr)
      (ih.mono (Definition.allOf_subset_cons definition others.definitions).2)
  | @body pending front words below close next keyword colon line indent definition others hd hh hl
      hk _ _ ihi ih =>
    obtain ⟨hinner, hothers⟩ := Definition.allOf_subset_cons definition others.definitions
    have hstarts := hh.lineStarts_eq (List.forall_mem_nil _)
      (.newline hl : Token.Ends (line :: indent :: below) _)
    rw [Token.lineStarts_layout (by rw [hk]; rfl)] at hstarts
    rw [List.append_assoc]
    exact .definition hh hd hstarts (ihi.trans ih hinner hothers)
  | statement ha hw hr _ _ ih =>
    refine ⟨nofun, ?_⟩
    rw [Token.lineStarts_line hw hr]
    refine List.forall_mem_cons.2 ⟨.inr fun first hf hk => ?_, ih.read⟩
    cases hf
    exact absurd hk ha

theorem Definition.StandsAt.followed {definition : Definition} {tokens : List Token}
    (h : definition.StandsAt (Token.behindDecorators false tokens)) : Token.Followed tokens := by
  obtain ⟨front, keyword, words, colon, rest, he, hh⟩ := h
  have hline := hh.forall_line (List.forall_mem_nil _)
  obtain ⟨first, others, hf⟩ := List.exists_cons_of_ne_nil
    (show (front ++ keyword :: words) ++ [colon] ≠ [] by simp)
  rw [hf] at hline
  refine ⟨first, ?_, hline first List.mem_cons_self⟩
  rw [he, List.append_cons, hf]
  rfl

/-- In a source whose outline has no fault, an `@` at the start of a line starts exactly one
decorator, and the definition that has it is the one whose header follows, with only decorators
and line ends between them, if and only if what follows these is no change of indentation and
not the end. -/
theorem Outline.decorator_attached {source : Bytes} {front rest : List Token} {mark : Token}
    (hf : (Script.ofSource source).outlineFaults = [])
    (ht : (tokenize source).tokens = front ++ mark :: rest) (hm : mark.kind = .at)
    (hs : ∀ token ∈ front.getLast?, token.kind.isLayout = true) :
    let outline := (Script.ofSource source).outline
    (outline.decorators.map (·.extent.start)).count mark.offset = 1 ∧
        (∃ definition ∈ outline.allDefinitions,
          (∃ decorator ∈ definition.decorators, decorator.extent.start = mark.offset) ∧
          definition.StandsAt (Token.behindDecorators false (mark :: rest))) ↔
      Token.Followed (mark :: rest) := by
  intro outline
  refine ⟨fun ⟨_, _, _, _, hstands⟩ => hstands.followed, fun hfollowed => ?_⟩
  obtain ⟨cursor, final, next, he, hfinal, hl, hfresh, hpath, hn⟩ := path_ofSource hf
  obtain ⟨-, -, hlines⟩ := hpath.blockLines hn hl hfresh
  rw [hpath.rest_nil] at hlines
  -- The blocks are read from the tokens in front of the final one, which starts no line.
  have hstart := @Token.mem_lineStarts front rest mark (by rw [hm]; rfl) true (fun _ => rfl) hs
  rw [← ht, he, Token.lineStarts_concat hfinal] at hstart
  obtain ⟨line, hline, hconcat⟩ := List.mem_map.1 hstart
  obtain ⟨hbehind, hhead⟩ := Token.behindDecorators_concat hfinal (hconcat.symm ▸ hfollowed)
  have hmark : line.head? = some mark := by
    cases line with
    | nil =>
      cases hconcat
      cases hm.symm.trans hfinal
    | cons first others =>
      cases hconcat
      rfl
  rcases hlines.attaches.read line hline with hnone | hsettled
  · cases hnone
  obtain ⟨definition, hmem, ⟨decorator, hd, hoffset⟩, words⟩ := hsettled mark hmark hm (by
    obtain ⟨token, htoken, hlayout⟩ := hfollowed
    rw [← hconcat, hhead] at htoken
    exact ⟨token, htoken, hlayout⟩)
  refine ⟨?_, definition, hmem, ⟨decorator, hd, hoffset⟩, ?_⟩
  · refine List.count_eq_one_of_mem (decorators_ofSource source).2 ?_
    rw [← hoffset]
    exact List.mem_map_of_mem (List.mem_flatMap.2 ⟨definition, hmem, hd⟩)
  · obtain ⟨front, keyword, words, colon, more, hstands, hh⟩ := words
    refine ⟨front, keyword, words, colon, more ++ [final], ?_, hh⟩
    rw [← hconcat, hbehind, hstands, List.append_assoc, List.cons_append]

/-- An empty line and a second decorator stand between the decorator and the function
in the class. -/
theorem Outline.decorator_attached_async :
    let source := ascii "class A:\n  @a\n\n  @b.c(1)\n  async def f(): pass\n"
    let outline := (Script.ofSource source).outline
    let tokens := (tokenize source).tokens
    let mark : Token := ⟨.at, ascii "@", 11, ⟨⟨2, 3⟩, ⟨2, 4⟩⟩⟩
    (Script.ofSource source).outlineFaults = [] ∧ tokens = tokens.take 5 ++ mark :: tokens.drop 6 ∧
      (∀ token ∈ (tokens.take 5).getLast?, token.kind.isLayout = true) ∧
      Token.Followed (mark :: tokens.drop 6) ∧
      (outline.decorators.map (·.extent.start)).count 11 = 1 ∧
      ∃ definition ∈ outline.allDefinitions,
        (∃ decorator ∈ definition.decorators, decorator.extent.start = 11) ∧
        definition.StandsAt (Token.behindDecorators false (mark :: tokens.drop 6)) := by
  intro source outline tokens mark
  have hf : (Script.ofSource source).outlineFaults = [] := by decide +kernel
  have ht : tokens = tokens.take 5 ++ mark :: tokens.drop 6 := by decide +kernel
  have hs : ∀ token ∈ (tokens.take 5).getLast?, token.kind.isLayout = true := by
    rw [show (tokens.take 5).getLast? = some ⟨.indent, [], 11, ⟨⟨2, 3⟩, ⟨2, 3⟩⟩⟩ by decide +kernel]
    rintro token ⟨⟩
    rfl
  have hfollowed : Token.Followed (mark :: tokens.drop 6) :=
    ⟨⟨.asyncWord, ascii "async", 27, ⟨⟨5, 3⟩, ⟨5, 8⟩⟩⟩, by decide +kernel, rfl⟩
  exact ⟨hf, ht, hs, hfollowed, (decorator_attached hf ht rfl hs).2 hfollowed⟩

/-- A decorator in front of the end of the source is in no definition, and nothing is reported. -/
theorem Outline.decorator_dropped :
    let source := ascii "@foo\n"
    let script := Script.ofSource source
    script.lexicalFaults = [] ∧ script.outlineFaults = [] ∧ script.outline.decorators = [] ∧
      (tokenize source).tokens.head?.map (·.kind) = some .at := by
  decide +kernel

end ManifestScan
