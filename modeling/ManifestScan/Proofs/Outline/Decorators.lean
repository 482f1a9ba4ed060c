import ManifestScan.Outline.Query
import ManifestScan.Proofs.Outline.Nest
import Mathlib.Data.List.Perm.Subperm

namespace ManifestScan

def Definition.isDecorated (definition : Definition) : Bool :=
  definition.kind = .function ∧ !definition.decorators.isEmpty

mutual

theorem Definition.decorated_eq_filter (definition : Definition) :
    definition.decorated = definition.all.filter isDecorated := by
  cases definition with
  | mk kind name decorators parameters returns body extent span calls members =>
    rw [decorated, all, List.filter_cons, decoratedIn_eq_filter members]
    split <;> simp_all [isDecorated]

theorem Definition.decoratedIn_eq_filter (definitions : List Definition) :
    decoratedIn definitions = (allOf definitions).filter isDecorated := by
  cases definitions with
  | nil => rw [decoratedIn, allOf, List.filter_nil]
  | cons definition others =>
    rw [decoratedIn, allOf, List.filter_append, decorated_eq_filter definition,
      decoratedIn_eq_filter others]

end

namespace Definition

theorem decoratorsOf_append (definitions others : List Definition) :
    decoratorsOf (definitions ++ others) = decoratorsOf definitions ++ decoratorsOf others := by
  rw [decoratorsOf, allOf_append, List.flatMap_append]
  rfl

theorem decoratorsOf_cons (definition : Definition) (others : List Definition) :
    decoratorsOf (definition :: others) =
      definition.decorators ++ (decoratorsOf definition.definitions ++ decoratorsOf others) := by
  rw [← List.singleton_append, decoratorsOf_append, decoratorsOf, allOf_singleton,
    List.flatMap_cons, List.append_assoc]
  rfl

end Definition

def Token.marks (tokens : List Token) : List Nat :=
  (tokens.filter (·.kind = .at)).map (·.offset)

theorem Token.marks_cons {mark : Token} (hm : mark.kind = .at) (tokens : List Token) :
    marks (mark :: tokens) = mark.offset :: marks tokens := by
  rw [marks, List.filter_cons_of_pos (by simp [hm])]
  rfl

theorem Token.marks_sublist {tokens others : List Token} (h : tokens.Sublist others) :
    (marks tokens).Sublist (marks others) :=
  (h.filter _).map _

theorem Token.nodup_marks (source : Bytes) : (marks (tokenize source).tokens).Nodup := by
  have hfilter : (tokenize source).tokens.filter (·.kind = .at) =
      ((tokenize source).tokens.filter (!·.kind.isLayout)).filter (·.kind = .at) := by
    rw [List.filter_filter]
    refine List.filter_congr fun token _ => ?_
    cases token.kind <;> rfl
  rw [marks, hfilter]
  exact (spaced_tokenize source).nodup.sublist (List.filter_sublist.map _)

namespace Cursor

variable {cursor next : Cursor} {pending : List Decorator}

/-- The definitions take decorators that were pending, and decorators read on the way. -/
structure Takes (cursor next : Cursor) (pending : List Decorator) (definitions : List Definition)
    (read : List Decorator) : Prop where
  subperm : List.Subperm (Definition.decoratorsOf definitions) (pending ++ read)
  text_eq : ∀ decorator ∈ read, decorator.text = decorator.extent.of cursor.source
  marks : (read.map (·.extent.start) ++ Token.marks next.rest).Sublist (Token.marks cursor.rest)

namespace Takes

variable {middle : Cursor} {first second : List Decorator} {definitions others : List Definition}
  {read more : List Decorator}

theorem nil (h : cursor.Reaches next) (pending : List Decorator) :
    Takes cursor next pending [] [] :=
  ⟨List.nil_subperm, List.forall_mem_nil _, Token.marks_sublist h.suffix.sublist⟩

theorem before (h : Takes middle next pending definitions read) (hr : cursor.Reaches middle) :
    Takes cursor next pending definitions read :=
  ⟨h.subperm, hr.source_eq ▸ h.text_eq, h.marks.trans (Token.marks_sublist hr.suffix.sublist)⟩

theorem append (h : Takes cursor middle first definitions read)
    (h' : Takes middle next second others more) (hr : cursor.Reaches middle)
    (hp : List.Subperm (first ++ second) pending) :
    Takes cursor next pending (definitions ++ others) (read ++ more) := by
  refine ⟨?_, List.forall_mem_append.2 ⟨h.text_eq, hr.source_eq ▸ h'.text_eq⟩, ?_⟩
  · rw [Definition.decoratorsOf_append]
    have hswap :
        ((first ++ read) ++ (second ++ more)).Perm ((first ++ second) ++ (read ++ more)) := by
      rw [List.append_assoc, List.append_assoc]
      exact (List.perm_append_comm_assoc _ _ _).append_left _
    exact (h.subperm.append h'.subperm).trans
      (hswap.subperm.trans (hp.append (List.Subperm.refl _)))
  · rw [List.map_append, List.append_assoc]
    exact (h'.marks.append_left _).trans h.marks

/-- A decorator that is read is one more that is pending. -/
theorem decorator {mark : Token} {rest : List Token} {decorator : Decorator}
    (h : Takes middle next (pending ++ [decorator]) definitions read)
    (hr : cursor.rest = mark :: rest) (hm : mark.kind = .at)
    (hq : cursor.decorator mark rest = (decorator, middle)) :
    Takes cursor next pending definitions (decorator :: read) := by
  have hreach := reaches_decorator hr hq
  have hstart : decorator.extent.start = mark.offset := by
    unfold Cursor.decorator at hq
    cases hq
    rfl
  have htext : decorator.text = decorator.extent.of cursor.source := by
    unfold Cursor.decorator at hq
    cases hq
    rfl
  refine ⟨?_, List.forall_mem_cons.2 ⟨htext, hreach.source_eq ▸ h.text_eq⟩, ?_⟩
  · rw [List.append_cons]
    exact h.subperm
  · rw [List.map_cons, List.cons_append, hr, hstart, Token.marks_cons hm]
    exact .cons_cons _ (h.marks.trans (Token.marks_sublist (reaches_behind_mark hq).suffix.sublist))

/-- A definition takes the pending decorators, and its members take those read in its body. -/
theorem definition {start : Cursor} {definition : Definition}
    (h : Takes start next [] definition.definitions read)
    (hr : cursor.Reaches start) (hd : definition.decorators = pending) :
    Takes cursor next pending [definition] read := by
  refine ⟨?_, hr.source_eq ▸ h.text_eq, h.marks.trans (Token.marks_sublist hr.suffix.sublist)⟩
  rw [Definition.decoratorsOf_cons, hd, show Definition.decoratorsOf [] = [] from rfl,
    List.append_nil]
  exact (List.Subperm.refl _).append h.subperm

end Takes

theorem BlockPath.takes {outermost : Bool} {contents : Contents}
    (h : BlockPath outermost pending cursor contents next) :
    ∃ read, Takes cursor next pending contents.definitions read := by
  have hnil (pending : List Decorator) : List.Subperm (pending ++ []) pending := by
    rw [List.append_nil]
  -- A block hands out each pending decorator once or drops it, so the order is all that may change.
  induction h with
  | nil => exact ⟨[], .nil (.refl _) _⟩
  | close h => exact ⟨[], .nil (.past h) _⟩
  | pass h _ _ _ ih =>
    obtain ⟨read, ih⟩ := ih
    exact ⟨read, ih.before (.past h)⟩
  | indent h _ hi _ ihi ih =>
    obtain ⟨read, ihi⟩ := ihi
    obtain ⟨more, ih⟩ := ih
    have hreach := (Reaches.past h).trans hi.reaches
    exact ⟨read ++ more, (ihi.before (.past h)).append ih hreach (List.Subperm.refl _)⟩
  | decorator h hk hq _ ih =>
    obtain ⟨read, ih⟩ := ih
    exact ⟨_, ih.decorator h hk hq⟩
  | @missing outermost pending cursor inside body next keyword definition others hk hq _ ih =>
    obtain ⟨more, ih⟩ := ih
    have hinner : Takes body body [] definition.definitions [] := by
      rw [header_members hq]
      exact .nil (.refl _) _
    have hdefinition : Takes cursor body pending [closeDefinition definition body] [] :=
      .definition hinner (reaches_heading hk hq) (header_takes hq).1
    exact ⟨_, hdefinition.append ih (reaches_heading hk hq) (hnil _)⟩
  | @line outermost pending cursor inside body close next keyword definition calls others hk hq
      hi _ ih =>
    obtain ⟨more, ih⟩ := ih
    have hinner : Takes body close [] definition.definitions [] := by
      rw [header_members hq]
      exact .nil hi.reaches _
    have hdefinition : Takes cursor close pending
        [closeDefinition { definition with calls := calls } close] [] :=
      .definition hinner (reaches_heading hk hq) (header_takes hq).1
    exact ⟨_, hdefinition.append ih ((reaches_heading hk hq).trans hi.reaches) (hnil _)⟩
  | @body outermost pending cursor inside body close next keyword definition inner others hk hq hi _
      ihi ih =>
    obtain ⟨read, ihi⟩ := ihi
    obtain ⟨more, ih⟩ := ih
    have hdefinition : Takes cursor close pending [closeDefinition { definition with
        calls := inner.calls, definitions := inner.definitions } close] read :=
      .definition ihi (reaches_heading hk hq) (header_takes hq).1
    exact ⟨_, hdefinition.append ih ((reaches_heading hk hq).trans hi.reaches) (hnil _)⟩
  | statement _ _ _ hi _ ih =>
    obtain ⟨more, ih⟩ := ih
    have hreach := (reaches_reportStray _ _).trans hi.reaches
    exact ⟨_, (Takes.nil hreach _).append ih hreach (hnil _)⟩

end Cursor

/-- The decorators of an outline are parts of its source, and each starts at an `@` of its own. -/
theorem Outline.decorators_ofSource (source : Bytes) :
    let outline := (Script.ofSource source).outline
    (∀ decorator ∈ outline.decorators, decorator.text = decorator.extent.of source) ∧
      (outline.decorators.map (·.extent.start)).Nodup := by
  intro outline
  obtain ⟨tokens, final, he, hk, hl⟩ := laid_tokenize source
  obtain ⟨cursor, hcursor, hrest, -⟩ :=
    @Cursor.ofTokens?_snoc source tokens final hl.not_endOfFile hk
  have houtline : outline =
      ⟨(cursor.block true []).value.calls, (cursor.block true []).value.definitions⟩ := by
    show (Outline.ofTokens source (tokenize source).tokens).outline = _
    rw [he, Outline.ofTokens, hcursor]
  obtain ⟨read, hread⟩ := (Cursor.blockPath true [] cursor).takes
  have hsubperm : List.Subperm outline.decorators read := by
    rw [houtline]
    exact hread.subperm
  refine ⟨fun decorator hm => ?_, ?_⟩
  · rw [hread.text_eq decorator (hsubperm.subset hm), Cursor.source_ofTokens? hcursor]
  · obtain ⟨same, hperm, hsub⟩ := hsubperm
    have hmarks := (List.sublist_append_left _ _).trans hread.marks
    rw [hrest] at hmarks
    refine (hperm.map _).nodup_iff.1 (.sublist ((hsub.map _).trans hmarks) ?_)
    have hnodup := Token.nodup_marks source
    rw [he] at hnodup
    exact hnodup.sublist (Token.marks_sublist (List.sublist_append_left _ _))

end ManifestScan
