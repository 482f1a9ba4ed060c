import ManifestScan.Proofs.Extraction.Bindings
import ManifestScan.Proofs.Printing.Arguments
import ManifestScan.Proofs.Printing.Preamble
import ManifestScan.Proofs.Text.Call
import ManifestScan.Proofs.Text.Trim

namespace ManifestScan

open Lexeme Place

namespace ImportTable

/-- Names that are imported once each are found with their modules. -/
theorem find?_foldl_of_nodup {imports : List (Bytes × Bytes)} (hn : (imports.map (·.1)).Nodup)
    (table : ImportTable) {symbol module : Bytes} (h : imports.lookup symbol = some module) :
    (imports.foldl (fun table entry => table.insert entry.1 ⟨entry.2, entry.1⟩)
      table).find? symbol = some ⟨module, symbol⟩ := by
  let bound (entry : Bytes × Bytes) : Bytes × Binding := (entry.1, ⟨entry.2, entry.1⟩)
  have hnames : ((imports.map bound).reverse.map (·.1)).Nodup := by
    rw [List.map_reverse, List.map_map, (List.reverse_perm _).nodup_iff]
    exact hn
  have hmem : bound (symbol, module) ∈ (imports.map bound).reverse :=
    List.mem_reverse.2 (List.mem_map_of_mem (mem_of_lookup h))
  have hf := find?_foldl (imports.map bound) table symbol
  rw [List.foldl_map, lookup_of_mem hnames hmem] at hf
  exact hf

end ImportTable

namespace Import

theorem firstWord_self {blanks word rest : Bytes} (hb : ∀ b ∈ blanks, isSpace b = true)
    (hn : word ≠ []) (hw : ∀ b ∈ word, isSpace b = false) (hr : rest.head?.all isSpace = true) :
    firstWord (blanks ++ (word ++ rest)) = (word, rest) := by
  have hspan : ∀ b ∈ word, (!isSpace b) = true := fun b hb => by rw [hw b hb]; rfl
  have hd : (blanks ++ (word ++ rest)).dropWhile isSpace = word ++ rest := by
    rw [List.dropWhile_append_of_pos hb]
    cases word with
    | nil => exact absurd rfl hn
    | cons b word => exact List.dropWhile_cons_of_neg (by simp [hw b])
  have ht : rest.takeWhile (!isSpace ·) = [] ∧ rest.dropWhile (!isSpace ·) = rest := by
    cases rest with
    | nil => exact ⟨rfl, rfl⟩
    | cons c rest =>
      have hc : isSpace c = true := hr
      exact ⟨List.takeWhile_cons_of_neg (by simp [hc]), List.dropWhile_cons_of_neg (by simp [hc])⟩
  unfold firstWord
  rw [hd, List.span_eq_takeWhile_dropWhile, List.takeWhile_append_of_pos hspan,
    List.dropWhile_append_of_pos hspan, ht.1, ht.2, List.append_nil]

/-- What a line says, without its comment and the blanks around it. -/
def code (line : Bytes) : Bytes := trim (line.takeWhile (· != hash))

theorem hash_notMem_blanks {blanks : Bytes} (h : ∀ b ∈ blanks, isBlank b = true) :
    ∀ b ∈ blanks, (b != hash) = true := by
  have hne : ∀ b, isBlank b = true → (b != hash) = true := by decide +kernel
  exact fun b hb => hne b (h b hb)

theorem takeWhile_append_blanks (text : Bytes) {blanks : Bytes}
    (h : ∀ b ∈ blanks, isBlank b = true) :
    ∃ back, (∀ b ∈ back, isBlank b = true) ∧
      (text ++ blanks).takeWhile (· != hash) = text.takeWhile (· != hash) ++ back := by
  rw [List.takeWhile_append]
  split
  · rename_i hl
    refine ⟨blanks, h, ?_⟩
    rw [List.takeWhile_eq_self_iff.2 (hash_notMem_blanks h)]
    exact congrArg (· ++ blanks) ((List.takeWhile_prefix _).eq_of_length hl).symm
  · exact ⟨[], nofun, (List.append_nil _).symm⟩

/-- Cutting off blanks in front of the comment as well makes no difference. -/
theorem trim_takeWhile_trim (line : Bytes) :
    trim ((trim line).takeWhile (· != hash)) = code line := by
  obtain ⟨front, back, hl, hf, hb⟩ := exists_padded line
  obtain ⟨back', hb', ht⟩ := takeWhile_append_blanks (trim line) hb
  have hline : line.takeWhile (· != hash) =
      front ++ ((trim line).takeWhile (· != hash) ++ back') := by
    rw [← ht, ← List.takeWhile_append_of_pos (hash_notMem_blanks hf), ← hl]
  rw [code, hline, trim_padding hf hb']

/-- A line imports nothing unless it starts with the keyword and a space behind it. -/
theorem statement?_of_code {line : Bytes}
    (h : ∀ b rest, code line = ascii "from" ++ b :: rest → isSpace b = false) :
    statement? line = none := by
  unfold statement?
  rw [trim_takeWhile_trim]
  dsimp only
  split
  · rfl
  · rename_i rest hr
    have hcode := eq_append_of_afterWord? hr
    refine if_neg fun hs => ?_
    cases rest with
    | nil => cases hs.1
    | cons b rest =>
      have hb := hs.1
      rw [List.head?_cons, Option.any_some, h b rest hcode] at hb
      cases hb

structure IsGap (text : Bytes) : Prop where
  ne_nil : text ≠ []
  all : ∀ b ∈ text, isSpace b = true

theorem IsGap.head? {text : Bytes} (h : IsGap text) (more : Bytes) :
    (text ++ more).head?.all isSpace = true := by
  obtain ⟨b, rest, rfl⟩ := List.exists_cons_of_ne_nil h.ne_nil
  exact h.all b List.mem_cons_self

/-- The keyword, the module, the second keyword and the list are taken off one by one. -/
theorem statement?_words {line before module behind gap list : Bytes}
    (hc : code line = ascii "from" ++ (before ++ (module ++ (behind ++ (ascii "import" ++
      (gap ++ list)))))) (hb : IsGap before) (hn : module ≠ [])
        (hm : ∀ b ∈ module, isSpace b = false)
    (hh : IsGap behind) (hg : IsGap gap) (hl : trim (gap ++ list) ≠ []) :
    statement? line = some ⟨module, trim (gap ++ list)⟩ := by
  have hmodule := firstWord_self hb.all hn hm (hh.head? (ascii "import" ++ (gap ++ list)))
  have hkeyword := @firstWord_self behind (ascii "import") _ hh.all (by decide) (by decide +kernel)
    (hg.head? list)
  have hhead : (before ++ (module ++ (behind ++ (ascii "import" ++ (gap ++ list))))).head?.any
      isSpace = true := by
    obtain ⟨b, more, rfl⟩ := List.exists_cons_of_ne_nil hb.ne_nil
    exact hb.all b List.mem_cons_self
  unfold statement?
  rw [trim_takeWhile_trim, hc]
  dsimp only
  rw [afterWord?_self]
  dsimp only
  rw [hmodule]
  dsimp only
  rw [hkeyword]
  exact if_pos ⟨hhead, rfl, hl⟩

/-- A line whose first byte is another than that of the keyword imports nothing. -/
theorem statement?_none {blanks text : Bytes} (hb : ∀ c ∈ blanks, isBlank c = true) {b : UInt8}
    (hn : isBlank b = false) (hh : b ≠ hash) (hf : b ≠ 0x66) :
    statement? (blanks ++ b :: text) = none := by
  refine statement?_of_code fun c rest hc => ?_
  have hcode : (code (blanks ++ b :: text)).head? = some b := by
    rw [code, List.takeWhile_append_of_pos (hash_notMem_blanks hb),
      List.takeWhile_cons_of_pos (by simpa using hh)]
    exact head?_trim hb hn
  rw [hc] at hcode
  exact absurd (Option.some.inj hcode).symm hf

end Import

namespace Catalog

open Import

variable {entry : Bytes × Bytes}

theorem mem_modulePath {module : Bytes} (h : isModulePath module = true) {b : UInt8}
    (hb : b ∈ module) : isNameByte b = true ∨ b = dot := by
  rcases @mem_fields dot b _ hb with hd | ⟨name, hf, hn⟩
  · exact .inr hd
  · exact .inl (List.all_eq_true.1 (all_isNameByte (List.all_eq_true.1 h name hf)) b hn)

theorem isModulePath_ne_nil {module : Bytes} (h : isModulePath module = true) : module ≠ [] := by
  rintro rfl
  cases h

theorem isIdentifier_ne_nil {name : Bytes} (h : isIdentifier name = true) : name ≠ [] := by
  rintro rfl
  cases h

theorem mem_importLine (hi : isIdentifier entry.1 = true)
    (hm : ∀ b ∈ entry.2, isNameByte b = true ∨ b = dot) {b : UInt8} (h : b ∈ importLine entry) :
    isNameByte b = true ∨ b = dot ∨ b = space := by
  have hwords :
      ∀ c ∈ ascii "from " ++ ascii " import ", isNameByte c = true ∨ c = dot ∨ c = space := by
    decide +kernel
  simp only [importLine, List.mem_append] at h
  rcases h with ((h | h) | h) | h
  · exact hwords b (List.mem_append_left _ h)
  · exact (hm b h).imp_right .inl
  · exact hwords b (List.mem_append_right _ h)
  · exact .inl (List.all_eq_true.1 (all_isNameByte hi) b h)

/-- The line of an import is read as it was meant. -/
theorem statement?_importLine (hi : isIdentifier entry.1 = true) (hn : entry.2 ≠ [])
    (hm : ∀ b ∈ entry.2, isNameByte b = true ∨ b = dot) :
    statement? (importLine entry) = some ⟨entry.2, entry.1⟩ := by
  have hgap : IsGap [space] := ⟨by decide, by decide +kernel⟩
  have hspace : ∀ b ∈ entry.2, isSpace b = false := by
    intro b hb
    rcases hm b hb with hb | rfl
    · exact (isNameByte_apart b hb).1
    · rfl
  have hname := isTrimmed_of_isIdentifier hi
  have hlist : trim ([space] ++ entry.1) = entry.1 := by
    have := hname.trim_padded (show ∀ b ∈ [space], isBlank b = true by decide +kernel)
      (List.forall_mem_nil _)
    rwa [List.append_nil] at this
  have hhash : hash ∉ importLine entry := by
    intro hb
    have := mem_importLine hi hm hb
    revert this
    decide
  have hcode : code (importLine entry) = ascii "from" ++ ([space] ++ (entry.2 ++ ([space] ++
      (ascii "import" ++ ([space] ++ entry.1))))) := by
    have htake := takeWhile_ne_append hhash (show ([] : Bytes).head?.all (· == hash) = true by rfl)
    rw [List.append_nil] at htake
    have hfrom : IsTrimmed (ascii "from") := isTrimmed_of_isIdentifier (by decide)
    have htrim := (hfrom.append hname ([space] ++ (entry.2 ++ ([space] ++ (ascii "import" ++
      [space]))))).trim_eq
    simp only [List.append_assoc] at htrim
    rw [code, htake, importLine_eq, htrim]
  rw [statement?_words hcode hgap hn hspace hgap hgap (hlist.symm ▸ hname.ne_nil), hlist]

theorem nameOf?_of_isIdentifier {name : Bytes} (h : isIdentifier name = true) :
    nameOf? name = some (name, name) := by
  have hname : ∀ b ∈ name, isNameByte b = true := List.all_eq_true.1 (all_isNameByte h)
  have hmarks : ∀ b, isNameByte b = true →
      (b != leftParen && b != rightParen && b != comma) = true := by
    decide +kernel
  have hfilter : name.filter (fun b => b != leftParen && b != rightParen && b != comma) = name :=
    List.filter_eq_self.2 fun b hb => hmarks b (hname b hb)
  have hword : firstWord name = (name, []) := by
    have hw := @firstWord_self [] name [] nofun (isIdentifier_ne_nil h)
      (fun b hb => (isNameByte_apart b (hname b hb)).1) rfl
    rwa [List.nil_append, List.append_nil] at hw
  have hnone : firstWord [] = ([], []) := rfl
  unfold nameOf?
  rw [hfilter, trim_name (all_isNameByte h)]
  dsimp only
  rw [hword]
  dsimp only
  rw [hnone]
  dsimp only
  rw [if_neg (show [] ≠ ascii "as" by decide), if_pos ⟨h, h⟩]

/-- An imported name is bound to itself. -/
theorem names_importLine {name : Bytes} (h : isIdentifier name = true) (line : Nat)
    (module : Bytes) : names line ⟨module, name⟩ = .ok [(name, name)] := by
  have hlast : name.getLast? ≠ some backslash :=
    fun hl => notMem_of_isIdentifier h rfl (List.mem_of_getLast? hl)
  have hparen : name.contains leftParen = false := by
    simpa using notMem_of_isIdentifier h (show isNameByte leftParen = false from rfl)
  have hcomma : comma ∉ name := notMem_of_isIdentifier h rfl
  unfold names
  dsimp only
  rw [if_neg hlast, hparen, if_neg (by simp), fields_of_notMem hcomma, List.filterMap_cons,
    nameOf?_of_isIdentifier h]
  rfl

/-- The line of an import binds its name and nothing else. -/
theorem addLine_importLine (hi : isIdentifier entry.1 = true) (hn : entry.2 ≠ [])
    (hm : ∀ b ∈ entry.2, isNameByte b = true ∨ b = dot) (package : Bytes) (imports : Imports)
    (line : Nat) : imports.addLine package line (importLine entry) =
      ⟨imports.table.insert entry.1 ⟨moduleOf package entry.2, entry.1⟩, imports.warnings⟩ := by
  unfold Imports.addLine
  rw [statement?_importLine hi hn hm]
  dsimp only
  rw [names_importLine hi]
  rfl

theorem head?_modulePath {module : Bytes} (h : isModulePath module = true) :
    module.head? ≠ some dot := by
  cases module with
  | nil => exact nofun
  | cons b module =>
    intro hb
    rw [Option.some.inj hb, isModulePath, fields, if_pos rfl, List.all_cons] at h
    cases h

/-- A path without leading dots is no path from the package. -/
theorem moduleOf_isModulePath {module : Bytes} (h : isModulePath module = true) (package : Bytes) :
    moduleOf package module = module := by
  have hd : module.takeWhile (· == dot) = [] := by
    have hh := head?_modulePath h
    cases module with
    | nil => rfl
    | cons b module => exact List.takeWhile_cons_of_neg (by simpa using hh)
  unfold moduleOf
  rw [hd]
  exact if_pos (.inl rfl)

/-- The imports that lines of imports add. -/
theorem addLines_importLine {entries : List (Bytes × Bytes)}
    (hs : ∀ entry ∈ entries, isSymbol entry.1 = true)
    (hm : ∀ entry ∈ entries, isModulePath entry.2 = true) (package : Bytes) (imports : Imports)
    (line : Nat) (others : List Bytes) :
    Imports.addLines package imports line (entries.map importLine ++ others) =
      Imports.addLines package
        ⟨entries.foldl (fun table entry => table.insert entry.1 ⟨entry.2, entry.1⟩) imports.table,
          imports.warnings⟩ (line + entries.length) others := by
  induction entries generalizing imports line with
  | nil => rfl
  | cons entry entries ih =>
    have hsymbol := hs entry List.mem_cons_self
    have hmodule := hm entry List.mem_cons_self
    have ha : imports.addLine package line (importLine entry) =
        ⟨imports.table.insert entry.1 ⟨entry.2, entry.1⟩, imports.warnings⟩ := by
      rw [addLine_importLine (isIdentifier_of_isSymbol hsymbol) (isModulePath_ne_nil hmodule)
        (fun b => mem_modulePath hmodule), moduleOf_isModulePath hmodule]
    rw [List.map_cons, List.cons_append, Imports.addLines, ha,
      ih (fun other ho => hs other (List.mem_cons_of_mem _ ho))
        (fun other ho => hm other (List.mem_cons_of_mem _ ho)), List.length_cons, Nat.add_assoc,
      Nat.add_comm 1]
    rfl

theorem addLines_none {texts : List Bytes} (h : ∀ text ∈ texts, statement? text = none)
    (package : Bytes) (imports : Imports) (line : Nat) :
    Imports.addLines package imports line texts = imports := by
  induction texts generalizing line with
  | nil => rfl
  | cons text texts ih =>
    have ha : imports.addLine package line text = imports := by
      unfold Imports.addLine
      rw [h text List.mem_cons_self]
    rw [Imports.addLines, ha]
    exact ih (fun other ho => h other (List.mem_cons_of_mem _ ho)) _

end Catalog

end ManifestScan
