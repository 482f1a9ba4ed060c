import ManifestScan.Proofs.Lexing.Path

namespace ManifestScan.Lexer

/-- `next` comes from `lexer` by going on in the text: tokens come behind those before, and no fault
is taken back. -/
structure Precedes (lexer next : Lexer) : Prop where
  offset_le : lexer.offset ≤ next.offset
  tokens :
    ∃ added, next.tokens = added ++ lexer.tokens ∧ ∀ token ∈ added, lexer.offset ≤ token.offset
  faults : ∃ added, next.faults = added ++ lexer.faults

variable {lexer next last : Lexer}

namespace Precedes

theorem trans (h : lexer.Precedes next) (h' : next.Precedes last) : lexer.Precedes last := by
  obtain ⟨ho, ⟨added, ht, ha⟩, found, hf⟩ := h
  obtain ⟨ho', ⟨more, ht', hm⟩, others, hf'⟩ := h'
  refine ⟨Nat.le_trans ho ho', ⟨more ++ added, ?_, ?_⟩, others ++ found, ?_⟩
  · rw [ht', ht, List.append_assoc]
  · intro token hk
    rcases List.mem_append.1 hk with hk | hk
    · exact Nat.le_trans ho (hm token hk)
    · exact ha token hk
  · rw [hf', hf, List.append_assoc]

theorem of_path (h : Path lexer next) : lexer.Precedes next := by
  have hone : ∀ {token : Token} {offset : Nat}, token.offset = offset →
      ∀ other ∈ [token], offset ≤ other.offset := by
    rintro token offset ho other hm
    rw [List.mem_singleton.1 hm, ho]
  induction h with
  | trans _ _ ih ih' => exact ih.trans ih'
  | same _ ho _ ht hf => exact ⟨ho.ge, ⟨[], ht, nofun⟩, [], hf⟩
  | gap => exact ⟨Nat.le_add_right _ _, ⟨[], rfl, nofun⟩, [], rfl⟩
  | layout => exact ⟨Nat.le_refl _, ⟨[_], rfl, hone rfl⟩, [], rfl⟩
  | token => exact ⟨Nat.le_add_right _ _, ⟨[_], rfl, hone rfl⟩, [], rfl⟩
  | unclosed => exact ⟨Nat.le_add_right _ _, ⟨[_], rfl, hone rfl⟩, [_], rfl⟩
  | unknown => exact ⟨Nat.le_add_right _ _, ⟨[], rfl, nofun⟩, [_], rfl⟩
  | unindent => exact ⟨Nat.le_refl _, ⟨[], rfl, nofun⟩, [_], rfl⟩

theorem run (lexer : Lexer) : lexer.Precedes lexer.run := of_path (.run lexer)

theorem finish (lexer : Lexer) : lexer.Precedes lexer.finish := of_path (.finish lexer)

/-- Without faults at the end there were none before. -/
theorem faults_nil (h : lexer.Precedes next) (hn : next.faults = []) : lexer.faults = [] := by
  obtain ⟨added, ha⟩ := h.faults
  rw [hn] at ha
  exact (List.append_eq_nil_iff.1 ha.symm).2

end Precedes

/-- `next` has layout tokens behind those of `lexer`, and no other. -/
def AddsLayout (lexer next : Lexer) : Prop :=
  ∃ added, next.tokens = added ++ lexer.tokens ∧ ∀ token ∈ added, token.kind.isLayout = true

namespace AddsLayout

theorem of_eq (h : next.tokens = lexer.tokens) : lexer.AddsLayout next := ⟨[], h, nofun⟩

theorem trans (h : lexer.AddsLayout next) (h' : next.AddsLayout last) : lexer.AddsLayout last := by
  obtain ⟨added, ht, ha⟩ := h
  obtain ⟨more, ht', hm⟩ := h'
  refine ⟨more ++ added, ?_, ?_⟩
  · rw [ht', ht, List.append_assoc]
  · intro token hk
    rcases List.mem_append.1 hk with hk | hk
    · exact hm token hk
    · exact ha token hk

theorem addToken {kind : TokenKind} (hk : kind.isLayout = true) (lexer : Lexer) (text : Bytes) :
    lexer.AddsLayout (lexer.addToken kind text) := by
  refine ⟨[_], rfl, ?_⟩
  intro token hm
  rw [List.mem_singleton.1 hm]
  exact hk

theorem closeBlocks (column : Nat) (lexer : Lexer) (indents : List Nat) :
    lexer.AddsLayout (Lexer.closeBlocks column lexer indents) := by
  fun_induction Lexer.closeBlocks column lexer indents with
  | case1 => exact of_eq rfl
  | case2 lexer indent outer _ ih => exact (addToken rfl lexer _).trans ih
  | case3 => exact of_eq rfl

theorem endLine (lexer : Lexer) : lexer.AddsLayout lexer.endLine := by
  unfold Lexer.endLine
  split
  · exact of_eq rfl
  · split
    · exact of_eq rfl
    · exact addToken rfl lexer _

theorem settle (lexer : Lexer) (column : Nat) : lexer.AddsLayout (lexer.settle column) := by
  have hline : lexer.AddsLayout { lexer with atLineStart := false } := of_eq rfl
  unfold Lexer.settle
  dsimp only
  split
  · exact (addToken rfl lexer _).trans (of_eq rfl)
  · split
    · exact hline.trans (closeBlocks _ _ _)
    · exact (hline.trans (closeBlocks _ _ _)).trans (of_eq rfl)

/-- What the end of a source adds holds no text. -/
theorem finish (lexer : Lexer) : lexer.AddsLayout lexer.finish :=
  (endLine lexer).trans ((closeBlocks _ _ _).trans (addToken rfl _ _))

end AddsLayout

end ManifestScan.Lexer
