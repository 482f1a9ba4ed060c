import ManifestScan.Proofs.Outline.BlockLines

namespace ManifestScan

mutual

/-- A definition and those in its body, at every depth. -/
def Definition.all : Definition → List Definition
  | ⟨kind, name, decorators, parameters, returns, body, extent, span, calls, definitions⟩ =>
    ⟨kind, name, decorators, parameters, returns, body, extent, span, calls, definitions⟩ ::
      Definition.allOf definitions

def Definition.allOf : List Definition → List Definition
  | [] => []
  | definition :: definitions => definition.all ++ Definition.allOf definitions

end

namespace Definition

theorem all_eq (definition : Definition) :
    definition.all = definition :: allOf definition.definitions := by
  cases definition
  rw [all]

theorem allOf_append (definitions others : List Definition) :
    allOf (definitions ++ others) = allOf definitions ++ allOf others := by
  induction definitions with
  | nil => rfl
  | cons definition definitions ih => rw [List.cons_append, allOf, allOf, ih, List.append_assoc]

theorem allOf_singleton (definition : Definition) :
    allOf [definition] = definition :: allOf definition.definitions := by
  rw [allOf, allOf, List.append_nil, all_eq]

/-- The calls in the bodies, at every depth, by offset and callee. -/
def names (definitions : List Definition) : List (Nat × Bytes) :=
  (allOf definitions).flatMap fun definition => Call.names definition.calls

def bodies (definitions : List Definition) : List Nat := (allOf definitions).filterMap (·.body)

def decoratorsOf (definitions : List Definition) : List Decorator :=
  (allOf definitions).flatMap (·.decorators)

end Definition

inductive LogicalLine where
  | decorator (mark : Token) (words : List Token)
  /-- The line of a definition's header, with what stands behind the colon. -/
  | definition (front : List Token) (keyword : Token) (words : List Token) (colon : Token)
    (behind : List Token)
  | statement (words : List Token)

namespace LogicalLine

def tokens : LogicalLine → List Token
  | .decorator mark words => mark :: words
  | .definition front keyword words colon behind =>
    (front ++ keyword :: words) ++ colon :: behind
  | .statement words => words

def names : LogicalLine → List (Nat × Bytes)
  | .decorator _ _ => []
  | .definition _ _ _ _ behind => Token.called behind
  | .statement words => Token.called words

def body? : LogicalLine → Option Nat
  | .definition _ _ _ colon _ => some colon.stop
  | _ => none

inductive Proper : LogicalLine → Prop
  | decorator {mark : Token} {words : List Token} (hm : mark.kind = .at) :
    Proper (.decorator mark words)
  | definition {front words behind : List Token} {keyword colon : Token}
    (hf : ∀ token ∈ front, token.kind = .asyncWord)
    (hk : keyword.kind = .defWord ∨ keyword.kind = .classWord) (hc : colon.kind = .colon) :
    Proper (.definition front keyword words colon behind)
  | statement {token : Token} {words : List Token} (ha : token.kind ≠ .at) :
    Proper (.statement (token :: words))

end LogicalLine

/-- Calls and definitions are what the lines hold, but for decorators that were pending before. -/
structure Covers (pending : List Decorator) (lines : List LogicalLine) (calls : List Call)
    (definitions : List Definition) : Prop where
  proper : ∀ line ∈ lines, line.Proper
  names : (Call.names calls ++ Definition.names definitions).Perm (lines.flatMap LogicalLine.names)
  bodies : (Definition.bodies definitions).Perm (lines.filterMap LogicalLine.body?)
  decorators : ∀ decorator ∈ Definition.decoratorsOf definitions, decorator ∈ pending ∨
    ∃ mark words, .decorator mark words ∈ lines ∧
      decorator.extent = ⟨mark.offset, (words.getLastD mark).stop⟩

namespace Covers

variable {pending : List Decorator} {lines others : List LogicalLine} {calls more : List Call}
  {definitions further : List Definition}

theorem nil (pending : List Decorator) : Covers pending [] [] [] :=
  ⟨List.forall_mem_nil _, .nil, .nil, List.forall_mem_nil _⟩

theorem append {before after : List Decorator} (h : Covers before lines calls definitions)
    (h' : Covers after others more further) (hb : before ⊆ pending) (ha : after ⊆ pending) :
    Covers pending (lines ++ others) (calls ++ more) (definitions ++ further) := by
  refine ⟨fun line hm => ?_, ?_, ?_, fun decorator hm => ?_⟩
  · exact (List.mem_append.1 hm).elim (h.proper line) (h'.proper line)
  · have hd : Definition.names (definitions ++ further) =
        Definition.names definitions ++ Definition.names further := by
      rw [Definition.names, Definition.allOf_append, List.flatMap_append]
      rfl
    rw [Call.names_append, hd, List.flatMap_append]
    refine .trans ?_ (h.names.append h'.names)
    rw [List.append_assoc, List.append_assoc]
    exact (List.perm_append_comm_assoc _ _ _).append_left _
  · rw [Definition.bodies, Definition.allOf_append, List.filterMap_append, List.filterMap_append]
    exact h.bodies.append h'.bodies
  · rw [Definition.decoratorsOf, Definition.allOf_append, List.flatMap_append] at hm
    rcases List.mem_append.1 hm with hm | hm
    · refine (h.decorators decorator hm).imp (fun hp => hb hp) ?_
      rintro ⟨mark, words, hl, he⟩
      exact ⟨mark, words, List.mem_append_left _ hl, he⟩
    · refine (h'.decorators decorator hm).imp (fun hp => ha hp) ?_
      rintro ⟨mark, words, hl, he⟩
      exact ⟨mark, words, List.mem_append_right _ hl, he⟩

theorem statement {token : Token} {words : List Token} (ha : token.kind ≠ .at)
    (hn : Call.names calls = Token.called (token :: words)) :
    Covers pending [.statement (token :: words)] calls [] := by
  refine ⟨fun line hm => ?_, ?_, .nil, List.forall_mem_nil _⟩
  · rw [List.mem_singleton.1 hm]
    exact .statement ha
  · rw [hn, List.flatMap_singleton]
    show (Token.called (token :: words) ++ []).Perm _
    rw [List.append_nil]
    rfl

/-- A decorator that is read is one more that is pending. -/
theorem decorator {mark : Token} {words : List Token} {decorator : Decorator}
    (h : Covers (pending ++ [decorator]) lines calls definitions) (hm : mark.kind = .at)
    (he : decorator.extent = ⟨mark.offset, (words.getLastD mark).stop⟩) :
    Covers pending (.decorator mark words :: lines) calls definitions := by
  refine ⟨List.forall_mem_cons.2 ⟨.decorator hm, h.proper⟩, h.names, h.bodies, fun other hd => ?_⟩
  rcases h.decorators other hd with hp | ⟨mark', words', hl, he'⟩
  · rcases List.mem_append.1 hp with hp | hp
    · exact .inl hp
    · rw [List.mem_singleton.1 hp]
      exact .inr ⟨mark, words, List.mem_cons_self, he⟩
  · exact .inr ⟨mark', words', List.mem_cons_of_mem _ hl, he'⟩

/-- A definition takes the pending decorators. -/
theorem definition {front words behind : List Token} {keyword colon : Token}
    {definition : Definition} (h : Covers [] lines more definition.definitions)
    (hp : LogicalLine.Proper (.definition front keyword words colon behind))
    (hc : definition.calls = calls ++ more) (hn : Call.names calls = Token.called behind)
    (hb : definition.body = some colon.stop) (hd : definition.decorators = pending) :
    Covers pending (.definition front keyword words colon behind :: lines) [] [definition] := by
  refine ⟨List.forall_mem_cons.2 ⟨hp, h.proper⟩, ?_, ?_, fun decorator hm => ?_⟩
  · rw [Definition.names, Definition.allOf_singleton, List.flatMap_cons, List.flatMap_cons, hc,
      Call.names_append, hn, List.append_assoc]
    exact h.names.append_left _
  · rw [Definition.bodies, Definition.allOf_singleton, List.filterMap_cons_some hb]
    exact h.bodies.cons _
  · rw [Definition.decoratorsOf, Definition.allOf_singleton, List.flatMap_cons, hd] at hm
    rcases List.mem_append.1 hm with hm | hm
    · exact .inl hm
    · rcases h.decorators decorator hm with hn | ⟨mark, words', hl, he⟩
      · cases hn
      · exact .inr ⟨mark, words', List.mem_cons_of_mem _ hl, he⟩

end Covers

theorem Definition.Heads.proper {definition : Definition} {front words : List Token}
    {keyword colon : Token} (h : definition.Heads front keyword words colon) (behind : List Token) :
    LogicalLine.Proper (.definition front keyword words colon behind) :=
  .definition h.async h.isKeyword h.isColon

/-- The lines of a block hold its calls and definitions. -/
theorem BlockLines.covers {pending : List Decorator} {tokens next : List Token}
    {contents : Cursor.Contents} (h : BlockLines pending tokens contents next) :
    ∃ lines, Token.lines tokens = lines.map LogicalLine.tokens ++ Token.lines next ∧
      Covers pending lines contents.calls contents.definitions := by
  induction h with
  | nil => exact ⟨[], rfl, .nil _⟩
  | close hk => exact ⟨[], Token.lines_layout (by rw [hk]; rfl), .nil _⟩
  | pass hk _ ih =>
    rw [Token.lines_layout (by rcases hk with hk | hk <;> rw [hk] <;> rfl)]
    exact ih
  | indent hk _ _ ihi ih =>
    obtain ⟨lines, hlines, hc⟩ := ihi
    obtain ⟨others, hothers, hco⟩ := ih
    refine ⟨lines ++ others, ?_, hc.append hco (List.nil_subset _) (fun _ hm => hm)⟩
    rw [Token.lines_layout (by rw [hk]; rfl), hlines, hothers, List.map_append, List.append_assoc]
  | @decorator pending mark words left rest next decorator contents hk hw hr he _ ih =>
    obtain ⟨lines, hlines, hc⟩ := ih
    have hwords : ∀ token ∈ mark :: words, token.kind.isLayout = false :=
      List.forall_mem_cons.2 ⟨by rw [hk]; rfl, hw⟩
    refine ⟨.decorator mark words :: lines, ?_, hc.decorator hk he⟩
    rw [Token.lines_ends hr (List.cons_ne_nil _ _) hwords, hlines]
    rfl
  | @line pending front words behind left close next keyword colon definition others hd hh hb hr hc
      hn _ ih =>
    obtain ⟨lines, hlines, hco⟩ := ih
    -- Behind the colon of a header are statements, so the line is this definition's alone.
    have hdefinition : Covers pending [.definition front keyword words colon behind] []
        [definition] := by
      refine .definition ?_ (hh.proper behind) (List.append_nil _).symm hc hh.body_eq hd
      rw [hn]
      exact .nil _
    refine ⟨.definition front keyword words colon behind :: lines, ?_,
      hdefinition.append hco (fun _ hm => hm) (List.nil_subset _)⟩
    rw [Token.lines_ends hr (by simp) (hh.forall_line hb), hlines]
    rfl
  | @body pending front words below close next keyword colon line indent definition others hd hh hl
      hk _ _ ihi ih =>
    obtain ⟨lines, hlines, hc⟩ := ihi
    obtain ⟨further, hfurther, hco⟩ := ih
    have hdefinition := hc.definition (hh.proper []) (List.nil_append definition.calls).symm rfl
      hh.body_eq hd
    refine ⟨.definition front keyword words colon [] :: lines ++ further, ?_,
      hdefinition.append hco (fun _ hm => hm) (List.nil_subset _)⟩
    rw [Token.lines_append_layout (by rw [hl]; rfl), Token.lines_layout (by rw [hk]; rfl),
      Token.lines_line (by simp) (hh.forall_line (List.forall_mem_nil _)), hlines, hfurther]
    simp [LogicalLine.tokens]
  | @statement token words left close next calls others ha hw hr hc _ ih =>
    obtain ⟨lines, hlines, hco⟩ := ih
    refine ⟨.statement (token :: words) :: lines, ?_,
      (Covers.statement ha hc).append hco (List.nil_subset _) (List.nil_subset _)⟩
    rw [Token.lines_ends hr (List.cons_ne_nil _ _) hw, hlines]
    rfl

end ManifestScan
