import ManifestScan.Proofs.Listing.Tree
import ManifestScan.Proofs.Printing.Source

namespace ManifestScan

open Lexeme

theorem PlainLines.append {tokens others : List Token} (h : PlainLines tokens)
    (h' : PlainLines others) : PlainLines (tokens ++ others) := by
  induction h with
  | nil => exact h'
  | line hf hp hl _ ih =>
    rw [List.cons_append, List.append_assoc, List.cons_append]
    exact .line hf hp hl ih

theorem Lexeme.exists_of_mem_tokensOf {token : Token} {offset : Nat} {location : Location}
    {lexemes : List Lexeme} (h : token ∈ tokensOf offset location lexemes) :
    ∃ lexeme ∈ lexemes, lexeme.kind = .token token.kind := by
  induction lexemes generalizing offset location with
  | nil => cases h
  | cons lexeme others ih =>
    rw [tokensOf, List.mem_append] at h
    rcases h with h | h
    · refine ⟨lexeme, List.mem_cons_self, ?_⟩
      unfold tokenAt? at h
      split at h
      · rename_i kind hk
        rw [hk, List.mem_singleton.1 h]
      · cases h
    · obtain ⟨other, hm, hk⟩ := ih h
      exact ⟨other, List.mem_cons_of_mem _ hm, hk⟩

/-- Flat lexemes leave tokens of a plain line. -/
theorem Lexes.isPlain_of_allFlat {text rest : Bytes} {lexemes : List Lexeme}
    (h : Lexes rest text lexemes) (hf : AllFlat lexemes) (offset : Nat) (location : Location) :
    ∀ token ∈ tokensOf offset location lexemes, token.kind.isPlain = true := by
  intro token hm
  obtain ⟨lexeme, hl, hk⟩ := exists_of_mem_tokensOf hm
  have hflat := (hf lexeme hl).1
  unfold isFlat at hflat
  rw [hk] at hflat
  have hparen : token.kind ≠ .leftParen := by
    intro he
    rw [he] at hflat
    cases hflat
  simp [TokenKind.isPlain, h.not_layout offset location token hm, hparen]

/-- One more plain line is read. -/
theorem Lexer.Reads.append_line {front line word : Bytes} {tokens : List Token}
    {lexemes : List Lexeme} (h : Reads front tokens) (hp : PlainLines tokens)
    (hl : ∀ rest, Lexes (lineFeed :: rest) line (ofWord word :: lexemes))
    (hw : line.head?.any startsWord = true) (hf : AllFlat (ofWord word :: lexemes))
    (hk : TokenKind.ofWord word ∉ [.at, .asyncWord, .defWord, .classWord]) :
    ∃ next, Reads (front ++ (line ++ [lineFeed])) next ∧ PlainLines next := by
  let location := Location.start.after front
  let stop := (location.after line).after [lineFeed]
  let newline := Token.layout .newline (front.length + line.length + 1) stop
  have hplain := (hl []).isPlain_of_allFlat hf front.length location
  have hlines : PlainLines (tokensOf front.length location (ofWord word :: lexemes) ++ [newline]) :=
    .line hk hplain rfl .nil
  refine ⟨tokens ++ (tokensOf front.length location (ofWord word :: lexemes) ++ [newline]), ?_,
    hp.append hlines⟩
  intro rest
  have hsource : front ++ (line ++ [lineFeed]) ++ rest = front ++ (line ++ lineFeed :: rest) := by
    simp
  have hlength : (front ++ (line ++ [lineFeed])).length = front.length + line.length + 1 := by
    simp only [List.length_append, List.length_singleton]
    omega
  have hlocation : Location.start.after (front ++ (line ++ [lineFeed])) = stop := by
    rw [location_after_append, location_after_append]
  have htokens : (tokens ++ (tokensOf front.length location (ofWord word :: lexemes) ++
      [newline])).reverse =
      newline :: ((tokensOf front.length location (ofWord word :: lexemes)).reverse ++
        tokens.reverse) := by
    simp
  rw [hsource, h, run_line (hl rest) hw (hf.flow_eq 0) (hf.nestingAfter_eq 0), hlength, hlocation,
    htokens]

namespace Catalog

def importLexemes (entry : Bytes × Bytes) : List Lexeme :=
  blank :: (nameLexemes (fields dot entry.2) ++
    [blank, ofWord (ascii "import"), blank, ofWord entry.1])

theorem lexes_importLine {entry : Bytes × Bytes} (hs : isSymbol entry.1 = true)
    (hm : isModulePath entry.2 = true) (rest : Bytes) :
    Lexes (lineFeed :: rest) (importLine entry) (ofWord (ascii "from") :: importLexemes entry) := by
  rw [importLine_eq, ← joinWith_fields dot entry.2]
  apply Lexes.append (.word (by decide) (by rfl))
  apply Lexes.append (.space _)
  apply Lexes.append (lexes_dotted (fields_ne_nil _ _) (List.all_eq_true.1 hm) (by rfl))
  apply Lexes.append (.space _)
  apply Lexes.append (.word (by decide) (by rfl))
  apply Lexes.append (.space _)
  exact .word (isIdentifier_of_isSymbol hs) (by rfl)

theorem allFlat_importLexemes (entry : Bytes × Bytes) :
    AllFlat (ofWord (ascii "from") :: importLexemes entry) := by
  refine .cons rfl nofun ?_
  refine .cons rfl nofun ?_
  apply AllFlat.append (allFlat_nameLexemes _)
  refine .cons rfl nofun ?_
  refine .cons rfl nofun ?_
  refine .cons rfl nofun ?_
  exact .cons (isFlat_ofWord _) nofun .nil

/-- The lines of imports are plain. -/
theorem exists_reads {imports : List (Bytes × Bytes)}
    (hs : ∀ entry ∈ imports, isSymbol entry.1 = true)
    (hm : ∀ entry ∈ imports, isModulePath entry.2 = true) :
    ∃ tokens, Lexer.Reads (imports.flatMap fun entry => importLine entry ++ [lineFeed]) tokens ∧
      PlainLines tokens := by
  -- Lines are read from the start of a source, so the induction is on what is in front.
  suffices h : ∀ front tokens, Lexer.Reads front tokens → PlainLines tokens →
      ∃ next, Lexer.Reads (front ++ imports.flatMap fun entry => importLine entry ++ [lineFeed])
        next ∧ PlainLines next from h [] [] Lexer.reads_nil .nil
  induction imports with
  | nil =>
    intro front tokens hr hp
    rw [List.flatMap_nil, List.append_nil]
    exact ⟨tokens, hr, hp⟩
  | cons entry others ih =>
    intro front tokens hr hp
    have hw : (importLine entry).head?.any startsWord = true := by
      have hf : ascii "from " = 0x66 :: ascii "rom " := by decide
      rw [importLine, hf]
      show startsWord 0x66 = true
      decide
    obtain ⟨next, hn, hp⟩ := hr.append_line hp
      (lexes_importLine (hs entry List.mem_cons_self) (hm entry List.mem_cons_self)) hw
      (allFlat_importLexemes entry) (by decide)
    rw [List.flatMap_cons, ← List.append_assoc]
    exact ih (fun other ho => hs other (List.mem_cons_of_mem _ ho))
      (fun other ho => hm other (List.mem_cons_of_mem _ ho)) _ _ hn hp

end Catalog

end ManifestScan
