import ManifestScan.Proofs.Outline.Calls
import ManifestScan.Proofs.Outline.Passes

namespace ManifestScan

namespace Cursor

structure Contents.Closed (contents : Contents) : Prop where
  calls : ∀ call ∈ Call.allOf contents.calls, call.closed = true
  members : ∀ definition ∈ Definition.allOf contents.definitions,
    ∀ call ∈ Call.allOf definition.calls, call.closed = true

namespace Contents.Closed

variable {contents others : Contents}

theorem nil : Closed ⟨[], []⟩ := ⟨List.forall_mem_nil _, List.forall_mem_nil _⟩

theorem append (h : contents.Closed) (h' : others.Closed) :
    Closed ⟨contents.calls ++ others.calls, contents.definitions ++ others.definitions⟩ := by
  refine ⟨?_, ?_⟩
  · rw [Call.allOf_append]
    exact List.forall_mem_append.2 ⟨h.calls, h'.calls⟩
  · rw [Definition.allOf_append]
    exact List.forall_mem_append.2 ⟨h.members, h'.members⟩

/-- In front of others a definition is added with what is in it. -/
theorem cons {definition : Definition} (h : Closed ⟨definition.calls, definition.definitions⟩)
    (h' : others.Closed) : Closed ⟨others.calls, definition :: others.definitions⟩ := by
  have hd : Closed ⟨[], [definition]⟩ := by
    refine ⟨List.forall_mem_nil _, ?_⟩
    rw [Definition.allOf_singleton]
    exact List.forall_mem_cons.2 ⟨h.calls, h.members⟩
  exact hd.append h'

end Contents.Closed

variable {cursor next : Cursor} {calls : List Call}

/-- A call that is not reported is closed. -/
theorem closed_called {call : Call} (hc : call.closed = true)
    (hn : ∀ inner ∈ Call.allOf call.nested, inner.closed = true)
    (h : ∀ other ∈ Call.allOf calls, other.closed = true) :
    ∀ other ∈ Call.allOf (call :: calls), other.closed = true := by
  rw [Call.allOf, Call.all_eq]
  exact List.forall_mem_append.2 ⟨List.forall_mem_cons.2 ⟨hc, hn⟩, h⟩

theorem ArgumentsPath.closed {depth : Nat} {list : Arguments}
    (h : ArgumentsPath depth cursor list next) (hf : next.faults = []) :
    ∀ call ∈ Call.allOf list.calls, call.closed = true := by
  induction h with
  | nil => exact List.forall_mem_nil _
  | uncalled _ _ _ _ _ ih => exact ih hf
  | called _ _ _ _ _ hp ihi ih =>
    obtain ⟨hclosed, hinner⟩ := faults_reportUnclosed (hp.faults hf)
    exact closed_called hclosed (ihi hinner) (ih hf)
  | close => exact List.forall_mem_nil _
  | skip _ _ _ _ ih => exact ih hf

theorem StatementPath.closed (h : StatementPath cursor calls next) (hf : next.faults = []) :
    ∀ call ∈ Call.allOf calls, call.closed = true := by
  induction h with
  | nil => exact List.forall_mem_nil _
  | newline => exact List.forall_mem_nil _
  | indentation => exact List.forall_mem_nil _
  | uncalled _ _ _ _ _ ih => exact ih hf
  | called _ _ _ _ hi hp ih =>
    obtain ⟨hclosed, hinner⟩ := faults_reportUnclosed (hp.faults hf)
    exact closed_called hclosed (hi.closed hinner) (ih hf)
  | skip _ _ _ _ ih => exact ih hf

theorem BlockPath.closed {outermost : Bool} {pending : List Decorator} {contents : Contents}
    (h : BlockPath outermost pending cursor contents next) (hf : next.faults = []) :
    contents.Closed := by
  have hbare {pending : List Decorator} {keyword : Token} {cursor body : Cursor}
      {definition : Definition} {form : BodyForm}
      (hq : header pending keyword cursor = ⟨definition, form, body⟩) : definition.Bare := by
    have := header_bare pending keyword cursor
    rwa [hq] at this
  induction h with
  | nil => exact .nil
  | close => exact .nil
  | pass _ _ _ _ ih => exact ih hf
  | indent _ _ _ hp ihi ih => exact (ihi (hp.faults hf)).append (ih hf)
  | decorator _ _ _ _ ih => exact ih hf
  | @missing outermost pending cursor inside body next keyword definition others _ hq _ ih =>
    refine .cons ?_ (ih hf)
    show Contents.Closed ⟨definition.calls, definition.definitions⟩
    rw [(hbare hq).1, (hbare hq).2]
    exact .nil
  | @line outermost pending cursor inside body close next keyword definition calls others _ hq hi hp
      ih =>
    refine .cons ?_ (ih hf)
    show Contents.Closed ⟨calls, definition.definitions⟩
    rw [(hbare hq).2]
    exact ⟨hi.closed (hp.faults hf), List.forall_mem_nil _⟩
  | body _ _ _ hp ihi ih => exact .cons (ihi (hp.faults hf)) (ih hf)
  | statement _ _ _ hi hp ih =>
    have hstatement : Contents.Closed ⟨_, []⟩ := ⟨hi.closed (hp.faults hf), List.forall_mem_nil _⟩
    exact hstatement.append (ih hf)

end Cursor

/-- In an outline without faults something closes every call. -/
theorem Outline.closed_ofSource {source : Bytes}
    (hf : (Script.ofSource source).outlineFaults = []) :
    ∀ call ∈ (Script.ofSource source).outline.allCalls, call.closed = true := by
  obtain ⟨cursor, final, next, -, -, -, -, hpath, hn⟩ := Outline.path_ofSource hf
  have hclosed := hpath.closed hn
  refine List.forall_mem_append.2 ⟨hclosed.calls, fun call hm => ?_⟩
  obtain ⟨definition, hd, hm⟩ := List.mem_flatMap.1 hm
  exact hclosed.members definition hd call hm

end ManifestScan
