import ManifestScan.Proofs.Extraction.Package

namespace ManifestScan

namespace Import

def listed (list : Bytes) : List (Bytes × Bytes) := (fields comma list).filterMap nameOf?

/-- Of the text of an entry the bytes that are no marks of the list. -/
def unmarked (entry : Bytes) : Bytes :=
  entry.filter fun b => b != leftParen && b != rightParen && b != comma

theorem nameOf?_congr {entry other : Bytes} (h : trim (unmarked entry) = trim (unmarked other)) :
    nameOf? entry = nameOf? other := by
  unfold unmarked at h
  unfold nameOf?
  rw [h]

theorem nameOf?_padding {front back : Bytes} (hf : ∀ b ∈ front, isBlank b = true)
    (hb : ∀ b ∈ back, isBlank b = true) (entry : Bytes) :
    nameOf? (front ++ (entry ++ back)) = nameOf? entry := by
  refine nameOf?_congr ?_
  rw [unmarked, List.filter_append, List.filter_append]
  exact trim_padding (fun b hm => hf b (List.mem_of_mem_filter hm))
    (fun b hm => hb b (List.mem_of_mem_filter hm)) _

theorem listed_padding {front back : Bytes} (hf : ∀ b ∈ front, isBlank b = true)
    (hb : ∀ b ∈ back, isBlank b = true) (list : Bytes) :
    listed (front ++ (list ++ back)) = listed list := by
  have hcomma : ∀ blanks : Bytes, (∀ b ∈ blanks, isBlank b = true) → comma ∉ blanks :=
    fun blanks h hm => nomatch h comma hm
  have hnil : ∀ b ∈ ([] : Bytes), isBlank b = true := nofun
  obtain ⟨init, last, hi, hi'⟩ := fields_append_last (hcomma back hb) list
  obtain ⟨first, others, ho, ho'⟩ := fields_append_of_not_mem (hcomma front hf) (list ++ back)
  have hfront : listed (front ++ (list ++ back)) = listed (list ++ back) := by
    have hn := nameOf?_padding hf hnil first
    rw [List.append_nil] at hn
    rw [listed, ho', listed, ho, List.filterMap_cons, List.filterMap_cons, hn]
  rw [hfront, listed, hi', listed, hi, List.filterMap_append, List.filterMap_append,
    List.filterMap_cons, List.filterMap_cons, ← List.nil_append (last ++ back),
    nameOf?_padding hnil hb last]

theorem listed_trim (list : Bytes) : listed (trim list) = listed list := by
  obtain ⟨front, back, hl, hf, hb⟩ := exists_padded list
  have h := listed_padding hf hb (trim list)
  rw [← hl] at h
  exact h.symm

def isParen (b : UInt8) : Bool := b == leftParen || b == rightParen

/-- Parentheses in a list are passed over. -/
theorem listed_filter (list : Bytes) : listed (list.filter (!isParen ·)) = listed list := by
  rw [listed, fields_filter (by decide), List.filterMap_map, listed]
  refine List.filterMap_congr fun entry _ => nameOf?_congr ?_
  rw [unmarked, List.filter_filter, unmarked]
  refine congrArg trim (List.filter_congr fun b _ => ?_)
  cases hl : b == leftParen <;> cases hr : b == rightParen <;> simp [isParen, bne, hl, hr]

/-- Blanks that end no line. -/
def IsPadding (text : Bytes) : Prop := ∀ b ∈ text, isBlank b = true ∧ b ≠ lineFeed

theorem IsPadding.isBlank {text : Bytes} (h : IsPadding text) : ∀ b ∈ text, isBlank b = true :=
  fun b hb => (h b hb).1

theorem IsGap.isPadding {text : Bytes} (h : IsGap text) : IsPadding text := by
  have hs : ∀ b, isSpace b = true → isBlank b = true ∧ b ≠ lineFeed := by decide +kernel
  exact fun b hb => hs b (h.all b hb)

structure Alias where
  front : Bytes
  inner : Bytes
  localName : Bytes
  isGap_front : IsGap front
  isGap_inner : IsGap inner
  isIdentifier : isIdentifier localName = true

def Alias.text (given : Alias) : Bytes :=
  given.front ++ (ascii "as" ++ (given.inner ++ given.localName))

structure Entry where
  front : Bytes
  name : Bytes
  alias? : Option Alias
  back : Bytes
  isPadding_front : IsPadding front
  isIdentifier : isIdentifier name = true
  isPadding_back : IsPadding back

namespace Entry

def words (entry : Entry) : Bytes := entry.name ++ entry.alias?.elim [] Alias.text

def text (entry : Entry) : Bytes := entry.front ++ (entry.words ++ entry.back)

def localName (entry : Entry) : Bytes := entry.alias?.elim entry.name (·.localName)

/-- The bytes of names and of the blanks between them. -/
def isOwn (b : UInt8) : Bool := isNameByte b || (isBlank b && b != lineFeed)

theorem isOwn_of_isIdentifier {name : Bytes} (h : ManifestScan.isIdentifier name = true) :
    ∀ b ∈ name, isOwn b = true := by
  intro b hb
  rw [isOwn, List.all_eq_true.1 (all_isNameByte h) b hb, Bool.true_or]

theorem isOwn_of_isPadding {text : Bytes} (h : IsPadding text) : ∀ b ∈ text, isOwn b = true := by
  intro b hb
  rw [isOwn, (h b hb).1, bne_iff_ne.2 (h b hb).2, Bool.true_and, Bool.or_true]

theorem isOwn_words (entry : Entry) : ∀ b ∈ entry.words, isOwn b = true := by
  refine List.forall_mem_append.2 ⟨isOwn_of_isIdentifier entry.isIdentifier, ?_⟩
  cases entry.alias? with
  | none => exact nofun
  | some given =>
    rw [Option.elim_some, Alias.text]
    simp only [List.forall_mem_append]
    exact ⟨isOwn_of_isPadding given.isGap_front.isPadding, by decide +kernel,
      isOwn_of_isPadding given.isGap_inner.isPadding, isOwn_of_isIdentifier given.isIdentifier⟩

theorem isOwn_text (entry : Entry) : ∀ b ∈ entry.text, isOwn b = true := by
  simp only [text, List.forall_mem_append]
  exact ⟨isOwn_of_isPadding entry.isPadding_front, entry.isOwn_words,
    isOwn_of_isPadding entry.isPadding_back⟩

theorem isTrimmed_words (entry : Entry) : IsTrimmed entry.words := by
  have hname := isTrimmed_of_isIdentifier entry.isIdentifier
  unfold words
  cases entry.alias? with
  | none =>
    rw [Option.elim_none, List.append_nil]
    exact hname
  | some given =>
    have := hname.append (isTrimmed_of_isIdentifier given.isIdentifier)
      (given.front ++ (ascii "as" ++ given.inner))
    simpa only [Option.elim_some, Alias.text, List.append_assoc] using this

/-- An entry is read as it was meant. -/
theorem nameOf?_text (entry : Entry) : nameOf? entry.text = some (entry.localName, entry.name) := by
  have hmarks : ∀ b, isOwn b = true → (b != leftParen && b != rightParen && b != comma) = true := by
    decide +kernel
  have hspace {name : Bytes} (h : ManifestScan.isIdentifier name = true) :
      ∀ b ∈ name, isSpace b = false :=
    fun b hb => (isNameByte_apart b (List.all_eq_true.1 (all_isNameByte h) b hb)).1
  have hwords : trim (unmarked entry.words) = entry.words := by
    rw [unmarked, List.filter_eq_self.2 fun b hb => hmarks b (entry.isOwn_words b hb),
      entry.isTrimmed_words.trim_eq]
  have hname := isTrimmed_of_isIdentifier entry.isIdentifier
  rw [text, nameOf?_padding entry.isPadding_front.isBlank entry.isPadding_back.isBlank]
  unfold unmarked at hwords
  unfold nameOf? localName
  rw [hwords]
  unfold words
  cases entry.alias? with
  | none =>
    have hfirst :=
      @firstWord_self [] entry.name [] nofun hname.ne_nil (hspace entry.isIdentifier) rfl
    rw [List.nil_append] at hfirst
    have hnone : firstWord [] = ([], []) := rfl
    dsimp only [Option.elim_none]
    rw [hfirst]
    dsimp only
    rw [hnone, if_neg (show ([] : Bytes) ≠ ascii "as" by decide)]
    exact if_pos ⟨entry.isIdentifier, entry.isIdentifier⟩
  | some given =>
    have hlocal := isTrimmed_of_isIdentifier given.isIdentifier
    have hfirst := @firstWord_self [] entry.name given.text nofun hname.ne_nil
      (hspace entry.isIdentifier) (given.isGap_front.head? _)
    rw [List.nil_append] at hfirst
    have hsecond := @firstWord_self given.front (ascii "as") (given.inner ++ given.localName)
      given.isGap_front.all (by decide) (by decide +kernel) (given.isGap_inner.head? _)
    have hthird := @firstWord_self given.inner given.localName [] given.isGap_inner.all
      hlocal.ne_nil (hspace given.isIdentifier) rfl
    rw [List.append_nil] at hthird
    -- The name, the word behind it and the local name are taken off one by one.
    dsimp only [Option.elim_some]
    rw [hfirst]
    dsimp only
    rw [Alias.text, hsecond]
    dsimp only
    rw [hthird, if_pos rfl]
    exact if_pos ⟨entry.isIdentifier, given.isIdentifier⟩

end Entry

/-- An import statement on a line of its own, with a comment behind it or none. -/
structure Line where
  indent : Bytes
  beforeModule : Bytes
  levels : Nat
  remainder : Bytes
  behindModule : Bytes
  beforeList : Bytes
  entries : List Entry
  parenthesized : Bool
  back : Bytes
  comment? : Option Bytes
  isPadding_indent : IsPadding indent
  isGap_beforeModule : IsGap beforeModule
  isRemainder : IsRemainder remainder
  module_ne_nil : List.replicate levels dot ++ remainder ≠ []
  isGap_behindModule : IsGap behindModule
  isGap_beforeList : IsGap beforeList
  entries_ne_nil : entries ≠ []
  isPadding_back : IsPadding back
  comment_line : ∀ comment ∈ comment?, lineFeed ∉ comment

namespace Line

def module (line : Line) : Bytes := List.replicate line.levels dot ++ line.remainder

def list (line : Line) : Bytes :=
  if line.parenthesized then
    leftParen :: joinWith [comma] (line.entries.map Entry.text) ++ [rightParen]
  else joinWith [comma] (line.entries.map Entry.text)

def body (line : Line) : Bytes :=
  line.indent ++ (ascii "from" ++ (line.beforeModule ++ (line.module ++ (line.behindModule ++
    (ascii "import" ++ (line.beforeList ++ (line.list ++ line.back)))))))

def text (line : Line) : Bytes := line.body ++ line.comment?.elim [] (hash :: ·)

def bindings (package : Bytes) (line : Line) : List (Bytes × Binding) :=
  line.entries.map fun entry => (entry.localName, ⟨moduleOf package line.module, entry.name⟩)

variable (line : Line)

theorem isNameByte_module : ∀ b ∈ line.module, isNameByte b = true ∨ b = dot := by
  refine List.forall_mem_append.2 ⟨fun b hb => .inr (List.eq_of_mem_replicate hb), fun b hb => ?_⟩
  rcases line.isRemainder with hr | hr
  · rw [hr] at hb
    cases hb
  · exact Catalog.mem_modulePath hr hb

/-- The list without its parentheses. -/
theorem filter_list :
    line.list.filter (!isParen ·) = joinWith [comma] (line.entries.map Entry.text) := by
  have hown : ∀ b, Entry.isOwn b = true → (!isParen b) = true := by decide +kernel
  have hentries : ∀ b ∈ joinWith [comma] (line.entries.map Entry.text), (!isParen b) = true := by
    intro b hb
    by_contra hp
    refine @notMem_joinWith b [comma] ?_ _ (fun text ht hm => ?_) hb
    · rintro hm
      rw [List.mem_singleton.1 hm] at hp
      exact hp (by decide)
    · obtain ⟨entry, -, rfl⟩ := List.mem_map.1 ht
      exact hp (hown b (entry.isOwn_text b hm))
  unfold list
  split
  · rw [List.cons_append, List.filter_cons_of_neg (by decide), List.filter_append,
      List.filter_eq_self.2 hentries, List.filter_cons_of_neg (by decide), List.filter_nil,
      List.append_nil]
  · exact List.filter_eq_self.2 hentries

theorem notMem_list {b : UInt8} (ho : Entry.isOwn b = false) (hc : b ≠ comma)
    (hp : isParen b = false) : b ∉ line.list := by
  intro hb
  have hm : b ∈ line.list.filter (!isParen ·) := List.mem_filter.2 ⟨hb, by rw [hp]; rfl⟩
  rw [filter_list] at hm
  refine notMem_joinWith (fun h => hc (List.mem_singleton.1 h)) (fun text ht hm => ?_) hm
  obtain ⟨entry, -, rfl⟩ := List.mem_map.1 ht
  rw [entry.isOwn_text b hm] at ho
  cases ho

theorem list_listed :
    listed (trim line.list) = line.entries.map fun entry => (entry.localName, entry.name) := by
  have hcomma : ∀ text ∈ line.entries.map Entry.text, comma ∉ text := by
    intro text ht hm
    obtain ⟨entry, -, rfl⟩ := List.mem_map.1 ht
    exact nomatch entry.isOwn_text comma hm
  rw [listed_trim, ← listed_filter, filter_list, listed,
    fields_joinWith (by simpa using line.entries_ne_nil) hcomma, List.filterMap_map]
  refine List.filterMap_eq_map_iff_forall_eq_some.2 fun entry _ => ?_
  exact entry.nameOf?_text

theorem isTrimmed_list : IsTrimmed (trim line.list) := by
  refine isTrimmed_of_trim (fun hn => ?_) (trim_trim _)
  have hl := line.list_listed
  rw [hn] at hl
  exact line.entries_ne_nil (List.map_eq_nil_iff.1 hl.symm)

theorem names_list (number : Nat) : names number ⟨line.module, trim line.list⟩ =
    .ok (line.entries.map fun entry => (entry.localName, entry.name)) := by
  have hlast : (trim line.list).getLast? ≠ some backslash := by
    intro hl
    exact line.notMem_list (by decide) (by decide) (by decide)
      ((mem_trim (by decide)).1 (List.mem_of_getLast? hl))
  have hparen : ¬((trim line.list).contains leftParen ∧ !(trim line.list).contains rightParen) := by
    simp only [List.contains_iff_mem, Bool.not_eq_true', Bool.eq_false_iff, ne_eq,
      mem_trim (show isBlank leftParen = false from rfl),
      mem_trim (show isBlank rightParen = false from rfl)]
    rintro ⟨hl, hr⟩
    have hf := line.filter_list
    unfold list at hl hr hf
    split at hl
    · rename_i hp
      rw [if_pos hp] at hr
      exact hr (by simp)
    · rename_i hp
      rw [if_neg hp] at hf
      have := (List.mem_filter.1 (hf ▸ hl)).2
      cases this
  unfold names
  dsimp only
  rw [if_neg hlast, if_neg hparen]
  exact congrArg Except.ok line.list_listed

theorem notMem_body {b : UInt8} (ho : Entry.isOwn b = false) (hd : b ≠ dot) (hc : b ≠ comma)
    (hp : isParen b = false) : b ∉ line.body := by
  have hpadding {text : Bytes} (h : IsPadding text) : b ∉ text := by
    intro hm
    rw [Entry.isOwn_of_isPadding h b hm] at ho
    cases ho
  have hword {word : Bytes} (h : isIdentifier word = true) : b ∉ word := by
    intro hm
    rw [Entry.isOwn_of_isIdentifier h b hm] at ho
    cases ho
  have hmodule : b ∉ line.module := by
    intro hm
    rcases line.isNameByte_module b hm with hn | hn
    · rw [Entry.isOwn, hn, Bool.true_or] at ho
      cases ho
    · exact hd hn
  simp only [body, List.mem_append, not_or]
  exact ⟨hpadding line.isPadding_indent, hword (by decide),
    hpadding line.isGap_beforeModule.isPadding, hmodule, hpadding line.isGap_behindModule.isPadding,
    hword (by decide), hpadding line.isGap_beforeList.isPadding, line.notMem_list ho hc hp,
    hpadding line.isPadding_back⟩

theorem lineFeed_notMem_text : lineFeed ∉ line.text := by
  rw [text, List.mem_append, not_or]
  refine ⟨line.notMem_body (by decide) (by decide) (by decide) (by decide), ?_⟩
  cases hc : line.comment? with
  | none => exact nofun
  | some comment =>
    rw [Option.elim_some, List.mem_cons, not_or]
    exact ⟨by decide, line.comment_line comment hc⟩

/-- Blanks at the ends of the list go to the gap in front of it and to the end of the line. -/
theorem code_text : ∃ front, (∀ b ∈ front, isBlank b = true) ∧
    code line.text = ascii "from" ++ (line.beforeModule ++ (line.module ++ (line.behindModule ++
      (ascii "import" ++ (line.beforeList ++ (front ++ trim line.list)))))) := by
  obtain ⟨front, back, hl, hf, hb⟩ := exists_padded line.list
  refine ⟨front, hf, ?_⟩
  have hcomment : (line.comment?.elim [] (hash :: ·)).head?.all (· == hash) = true := by
    cases line.comment? <;> rfl
  let middle := line.beforeModule ++ (line.module ++ (line.behindModule ++ (ascii "import" ++
    (line.beforeList ++ front))))
  have hbody : line.body =
      line.indent ++ ((ascii "from" ++ (middle ++ trim line.list)) ++ (back ++ line.back)) := by
    have hlist := congrArg (fun list => line.indent ++ (ascii "from" ++ (line.beforeModule ++
      (line.module ++ (line.behindModule ++ (ascii "import" ++ (line.beforeList ++
        (list ++ line.back)))))))) hl
    refine hlist.trans ?_
    simp only [middle, List.append_assoc]
  have hfrom : IsTrimmed (ascii "from") := isTrimmed_of_isIdentifier (by decide)
  have htrim := (hfrom.append line.isTrimmed_list middle).trim_padded line.isPadding_indent.isBlank
    (List.forall_mem_append.2 ⟨hb, line.isPadding_back.isBlank⟩)
  rw [code, text, takeWhile_ne_append (line.notMem_body (by decide) (by decide) (by decide)
    (by decide)) hcomment, hbody, htrim]
  simp only [middle, List.append_assoc]

/-- The line is read as it was meant. -/
theorem statement?_text : statement? line.text = some ⟨line.module, trim line.list⟩ := by
  obtain ⟨front, hf, hcode⟩ := line.code_text
  have hspace : ∀ b ∈ line.module, isSpace b = false := by
    intro b hm
    rcases line.isNameByte_module b hm with hn | rfl
    · exact (isNameByte_apart b hn).1
    · rfl
  have hlist : trim (line.beforeList ++ (front ++ trim line.list)) = trim line.list := by
    have := line.isTrimmed_list.trim_padded (List.forall_mem_append.2
      ⟨line.isGap_beforeList.isPadding.isBlank, hf⟩) (List.forall_mem_nil _)
    rwa [List.append_nil, List.append_assoc] at this
  have h := statement?_words hcode line.isGap_beforeModule line.module_ne_nil hspace
    line.isGap_behindModule line.isGap_beforeList
  rw [hlist] at h
  exact h line.isTrimmed_list.ne_nil

end Line

/-- A line of a script: an import statement, or one that does not start like one. -/
inductive SourceLine where
  | statement (line : Line)
  | other (text : Bytes) (oneLine : lineFeed ∉ text)
      (differs : ∀ b rest, code text = ascii "from" ++ b :: rest → isSpace b = false)

namespace SourceLine

def text : SourceLine → Bytes
  | .statement line => line.text
  | .other text _ _ => text

def bindings (package : Bytes) : SourceLine → List (Bytes × Binding)
  | .statement line => line.bindings package
  | .other _ _ _ => []

theorem lineFeed_notMem_text (line : SourceLine) : lineFeed ∉ line.text := by
  cases line with
  | statement line => exact line.lineFeed_notMem_text
  | other text oneLine => exact oneLine

theorem bindings_text (package : Bytes) (line : SourceLine) :
    Import.bindings package line.text = line.bindings package := by
  unfold Import.bindings
  cases line with
  | statement line =>
    rw [text, line.statement?_text, Option.elim_some, line.names_list]
    exact List.map_map
  | other text _ differs =>
    rw [SourceLine.text, statement?_of_code differs]
    rfl

end SourceLine

end Import

namespace Imports

open Import

theorem addLine_warnings (package : Bytes) (imports : Imports) (number : Nat) (line : SourceLine) :
    (imports.addLine package number line.text).warnings = imports.warnings := by
  unfold addLine
  cases line with
  | statement line =>
    rw [SourceLine.text, line.statement?_text]
    dsimp only
    rw [line.names_list]
  | other text _ differs =>
    rw [SourceLine.text, statement?_of_code differs]

theorem addLines_warnings (package : Bytes) (imports : Imports) (number : Nat)
    (lines : List SourceLine) :
    (addLines package imports number (lines.map (·.text))).warnings = imports.warnings := by
  induction lines generalizing imports number with
  | nil => rfl
  | cons line lines ih => rw [List.map_cons, addLines, ih, addLine_warnings]

/-- The imports of a script bind each local name as the last statement that gives it does, and
nothing else, without a warning. Of two scripts below each other the second counts where it
binds a name. -/
theorem ofSource_statements (package : Bytes) (lines : List SourceLine) :
    let imports := ofSource package (joinWith [lineFeed] (lines.map (·.text)))
    imports.warnings = [] ∧
      (∀ name, imports.table.find? name =
        (lines.flatMap (·.bindings package)).reverse.lookup name) ∧
      ∀ first second name, (ofSource package (first ++ lineFeed :: second)).table.find? name =
        ((ofSource package second).table.find? name).or
          ((ofSource package first).table.find? name) := by
  intro imports
  have hflat : (lines.map (·.text)).flatMap (bindings package) =
      lines.flatMap (·.bindings package) := by
    rw [List.flatMap_map]
    exact List.flatMap_congr fun line _ => line.bindings_text package
  refine ⟨?_, fun name => ?_, find?_ofSource_append package⟩
  all_goals
    by_cases hn : lines = []
    · subst hn
      rfl
    have hlines : ManifestScan.lines (joinWith [lineFeed] (lines.map (·.text))) =
        lines.map (·.text) := by
      refine fields_joinWith (by simpa using hn) fun text ht => ?_
      obtain ⟨line, -, rfl⟩ := List.mem_map.1 ht
      exact line.lineFeed_notMem_text
  · rw [show imports = ofSource package _ from rfl, ofSource, hlines, addLines_warnings]
  · rw [show imports = ofSource package _ from rfl, find?_ofSource_eq_lookup, hlines, hflat]

theorem isGap_space : IsGap [space] := ⟨by decide, by decide +kernel⟩

/-- Two names in parentheses, one of them under another name, in front of a comment. -/
def packageLine : Line where
  indent := []
  beforeModule := [space]
  levels := 1
  remainder := ascii "a"
  behindModule := [space]
  beforeList := [space]
  entries :=
    [⟨[], ascii "B", some ⟨[space], [space], ascii "C", isGap_space, isGap_space, by decide⟩, [],
        nofun, by decide, nofun⟩,
      ⟨[], ascii "D", none, [space], nofun, by decide, isGap_space.isPadding⟩]
  parenthesized := true
  back := []
  comment? := some (ascii " x")
  isPadding_indent := nofun
  isGap_beforeModule := isGap_space
  isRemainder := .inr (by decide +kernel)
  module_ne_nil := by decide
  isGap_behindModule := isGap_space
  isGap_beforeList := isGap_space
  entries_ne_nil := List.cons_ne_nil _ _
  isPadding_back := nofun
  comment_line := by decide

def parentLine : Line where
  indent := []
  beforeModule := [space, space]
  levels := 2
  remainder := []
  behindModule := [tab]
  beforeList := [space]
  entries := [⟨[], ascii "C", none, [], nofun, by decide, nofun⟩]
  parenthesized := false
  back := []
  comment? := none
  isPadding_indent := nofun
  isGap_beforeModule := ⟨by decide, by decide +kernel⟩
  isRemainder := .inl rfl
  module_ne_nil := by decide
  isGap_behindModule := ⟨by decide, by decide +kernel⟩
  isGap_beforeList := isGap_space
  entries_ne_nil := List.cons_ne_nil _ _
  isPadding_back := nofun
  comment_line := nofun

def plainLine : SourceLine :=
  .other (ascii "import C") (by decide) fun b rest h => by
    have hcode : code (ascii "import C") = ascii "import C" := by decide +kernel
    have hhead : some (0x69 : UInt8) = some 0x66 := congrArg List.head? (hcode.symm.trans h)
    cases hhead

theorem ofSource_statements_rebound :
    let lines := [.statement packageLine, plainLine, .statement parentLine]
    let source := joinWith [lineFeed] (lines.map SourceLine.text)
    let imports := ofSource (ascii "p.q") source
    source = ascii "from .a import (B as C,D )# x\nimport C\nfrom  ..\timport C" ∧
      imports.warnings = [] ∧
      imports.table.find? (ascii "C") = some ⟨ascii "p", ascii "C"⟩ ∧
      imports.table.find? (ascii "D") = some ⟨ascii "p.q.a", ascii "D"⟩ ∧
      imports.table.find? (ascii "B") = none := by
  intro lines source imports
  obtain ⟨hw, hfind, -⟩ := ofSource_statements (ascii "p.q") lines
  refine ⟨by decide +kernel, hw, ?_, ?_, ?_⟩
  all_goals exact (hfind _).trans (by decide +kernel)

end Imports

end ManifestScan
