import ManifestScan.EntryPoint
import ManifestScan.Proofs.Text.Qualified
import ManifestScan.Proofs.Text.Split
import ManifestScan.Proofs.Text.Trim

namespace ManifestScan

structure IsRemark (text : Bytes) : Prop where
  lineFeed_notMem : lineFeed ∉ text
  silent : (∀ b ∈ text, isBlank b = true) ∨ ∃ blanks mark comment,
    text = blanks ++ mark :: comment ∧ (∀ b ∈ blanks, isBlank b = true) ∧
      (mark = hash ∨ mark = 0x3B)

/-- An entry of an index. Its gaps are spaces and tabs. -/
structure IndexEntry where
  name : Bytes
  module : Bytes
  function? : Option Bytes
  /-- What stands in brackets at the end. -/
  extras? : Option Bytes
  beforeEquals : Bytes
  behindEquals : Bytes
  beforeColon : Bytes
  behindColon : Bytes
  beforeExtras : Bytes
  isTrimmed_name : IsTrimmed name
  equals_notMem : equals ∉ name
  lineFeed_notMem : lineFeed ∉ name
  name_head? : ∀ b ∈ name.head?, b ∉ [hash, 0x3B, 0x5B]
  isModule : isIdentifier module = true ∨ isDottedName module = true
  isFunction : ∀ function ∈ function?, isIdentifier function = true
  extras_line : ∀ extras ∈ extras?, lineFeed ∉ extras
  gaps : ∀ gap ∈ [beforeEquals, behindEquals, beforeColon, behindColon, beforeExtras],
    ∀ b ∈ gap, isSpace b = true

namespace IndexEntry

def call (entry : IndexEntry) : Bytes :=
  entry.function?.elim [] fun function =>
    entry.beforeColon ++ colon :: (entry.behindColon ++ function)

def extras (entry : IndexEntry) : Bytes :=
  entry.extras?.elim [] fun extras => 0x5B :: (extras ++ [0x5D])

def value (entry : IndexEntry) : Bytes :=
  entry.module ++ (entry.call ++ (entry.beforeExtras ++ entry.extras))

def text (entry : IndexEntry) : Bytes :=
  entry.name ++ (entry.beforeEquals ++ equals :: (entry.behindEquals ++ entry.value))

/-- The entry as it is read: with a gap at the colon it has no function. -/
def reading (entry : IndexEntry) : EntryPoint where
  name := entry.name
  module := entry.module
  function :=
    if entry.beforeColon = [] ∧ entry.behindColon = [] then entry.function? else none

end IndexEntry

inductive IndexLine where
  | remark (text : Bytes) (h : IsRemark text)
  | entry (entry : IndexEntry)

namespace IndexLine

def text : IndexLine → Bytes
  | .remark text _ => text
  | .entry given => given.text

def entry? : IndexLine → Option IndexEntry
  | .remark _ _ => none
  | .entry given => some given

end IndexLine

structure IndexSection where
  name : Bytes
  lines : List IndexLine
  isTrimmed_name : IsTrimmed name
  lineFeed_notMem : lineFeed ∉ name

namespace IndexSection

def header (part : IndexSection) : Bytes := 0x5B :: (part.name ++ [0x5D])

def texts (part : IndexSection) : List Bytes := part.header :: part.lines.map IndexLine.text

def first? (part : IndexSection) : Option IndexEntry := part.lines.findSome? IndexLine.entry?

end IndexSection

structure EntryIndex where
  preamble : List Bytes
  sections : List IndexSection
  isRemark_preamble : ∀ text ∈ preamble, IsRemark text

def EntryIndex.text (index : EntryIndex) : Bytes :=
  joinWith [lineFeed] (index.preamble ++ index.sections.flatMap IndexSection.texts)

namespace IndexEntry

variable (entry : IndexEntry)

theorem qualified_module : Qualified entry.module :=
  Qualified.iff_isIdentifier_or_isDottedName.2 entry.isModule

/-- What is left of the function in front of the first blank, if its colon is left. -/
def kept? : Option Bytes :=
  if entry.beforeColon = [] then
    entry.function?.map fun function => if entry.behindColon = [] then function else []
  else none

/-- The value up to its first blank or bracket. -/
def stretch : Bytes := entry.module ++ entry.kept?.elim [] (colon :: ·)

def endsValue (b : UInt8) : Bool := isSpace b || b == 0x5B

theorem function_reading : entry.reading.function =
    if (entry.kept?.getD []).isEmpty then none else some (entry.kept?.getD []) := by
  unfold reading kept?
  dsimp only
  by_cases hb : entry.beforeColon = []
  · cases hf : entry.function? with
    | none => simp
    | some function =>
      have hn := (isTrimmed_of_isIdentifier (entry.isFunction function hf)).ne_nil
      by_cases hc : entry.behindColon = []
      · simp [hb, hc, hn]
      · simp [hb, hc]
  · simp [hb]

theorem isIdentifier_kept : ∀ kept ∈ entry.kept?, kept = [] ∨ isIdentifier kept = true := by
  intro kept hk
  unfold kept? at hk
  split at hk
  · obtain ⟨function, hf, rfl⟩ := Option.map_eq_some_iff.1 hk
    split
    · exact .inr (entry.isFunction function hf)
    · exact .inl rfl
  · cases hk

/-- The bytes of a stretch are those of names, dots and the colon. -/
theorem mem_stretch : ∀ b ∈ entry.stretch, isNameByte b = true ∨ b = dot ∨ b = colon := by
  refine List.forall_mem_append.2 ⟨fun b hb => ?_, fun b hb => ?_⟩
  · exact (entry.qualified_module.isNameByte_or_dot b hb).imp_right .inl
  · cases hk : entry.kept? with
    | none =>
      rw [hk] at hb
      cases hb
    | some kept =>
      rw [hk, Option.elim_some, List.mem_cons] at hb
      rcases hb with rfl | hb
      · exact .inr (.inr rfl)
      · rcases entry.isIdentifier_kept kept hk with rfl | hi
        · cases hb
        · exact .inl (List.all_eq_true.1 (all_isNameByte hi) b hb)

theorem notMem_module {b : UInt8} (hb : isNameByte b = false) (hd : b ≠ dot) :
    b ∉ entry.module := by
  intro hm
  rcases entry.qualified_module.isNameByte_or_dot b hm with hn | rfl
  · rw [hb] at hn
    cases hn
  · exact hd rfl

theorem stretch_plain : ∀ b ∈ entry.stretch, endsValue b = false ∧ isBlank b = false := by
  have hbytes : ∀ b, isNameByte b = true → endsValue b = false ∧ isBlank b = false := by
    decide +kernel
  intro b hb
  rcases entry.mem_stretch b hb with hn | rfl | rfl
  · exact hbytes b hn
  · decide
  · decide

/-- A value is read as far as its stretch. -/
theorem takeWhile_stretch {rest : Bytes} (hr : rest.head?.all endsValue = true) :
    (entry.stretch ++ rest).takeWhile (fun b => !endsValue b) = entry.stretch := by
  have hrest : rest.takeWhile (fun b => !endsValue b) = [] := by
    cases rest with
    | nil => rfl
    | cons b rest => exact List.takeWhile_cons_of_neg (by simpa using hr)
  rw [List.takeWhile_append_of_pos fun b hb => by simp [(entry.stretch_plain b hb).1], hrest,
    List.append_nil]

theorem isTrimmed_stretch : IsTrimmed entry.stretch := by
  refine isTrimmed_of_notBlank ?_ fun b hb => (entry.stretch_plain b hb).2
  exact List.append_ne_nil_of_left_ne_nil entry.qualified_module.ne_nil _

theorem isTrimmed_module : IsTrimmed entry.module := by
  refine isTrimmed_of_notBlank entry.qualified_module.ne_nil fun b hb => ?_
  rcases entry.qualified_module.isNameByte_or_dot b hb with hn | rfl
  · exact (isNameByte_apart b hn).2
  · rfl

/-- A blank follows the stretch in front of a function that is lost. -/
theorem exists_call : ∃ rest, entry.module ++ entry.call = entry.stretch ++ rest ∧
    rest.head?.all endsValue = true ∧ IsTrimmed (entry.module ++ entry.call) := by
  have htrimmed := entry.isTrimmed_module
  have hends (gap more : Bytes) (hg : ∀ b ∈ gap, isSpace b = true) (hn : gap ≠ []) :
      (gap ++ more).head?.all endsValue = true := by
    obtain ⟨b, gap, rfl⟩ := List.exists_cons_of_ne_nil hn
    show endsValue b = true
    rw [endsValue, hg b List.mem_cons_self, Bool.true_or]
  unfold stretch kept? call
  cases hf : entry.function? with
  | none =>
    refine ⟨[], ?_, rfl, ?_⟩
    · simp
    · simpa using htrimmed
  | some function =>
    have hfunction := isTrimmed_of_isIdentifier (entry.isFunction function hf)
    have hwhole : IsTrimmed (entry.module ++
        (entry.beforeColon ++ colon :: (entry.behindColon ++ function))) := by
      have := htrimmed.append hfunction (entry.beforeColon ++ colon :: entry.behindColon)
      simpa using this
    by_cases hb : entry.beforeColon = []
    · by_cases hc : entry.behindColon = []
      · exact ⟨[], by simp [hb, hc], rfl, hwhole⟩
      · refine ⟨entry.behindColon ++ function, by simp [hb, hc], ?_, hwhole⟩
        exact hends _ _ (entry.gaps _ (by simp)) hc
    · refine ⟨entry.beforeColon ++ colon :: (entry.behindColon ++ function), by simp [hb],
        ?_, hwhole⟩
      exact hends _ _ (entry.gaps _ (by simp)) hb

/-- Without the blanks at its end the value starts with its stretch. -/
theorem exists_inner : ∃ inner pad rest, entry.value = inner ++ pad ∧
    (∀ b ∈ pad, isBlank b = true) ∧ IsTrimmed inner ∧ inner = entry.stretch ++ rest ∧
    rest.head?.all endsValue = true := by
  obtain ⟨rest, hcall, hrest, htrimmed⟩ := entry.exists_call
  have hgap : ∀ b ∈ entry.beforeExtras, isSpace b = true := entry.gaps _ (by simp)
  unfold value extras
  cases entry.extras? with
  | none =>
    refine ⟨entry.module ++ entry.call, entry.beforeExtras, rest, by simp, ?_, htrimmed, hcall,
      hrest⟩
    exact fun b hb => isBlank_of_isSpace b (hgap b hb)
  | some extras =>
    have hextras : IsTrimmed (0x5B :: (extras ++ [0x5D])) := by
      refine ⟨List.cons_ne_nil _ _, fun b hb => ?_, fun b hb => ?_⟩
      · cases hb
        rfl
      · rw [← List.cons_append, List.getLast?_concat] at hb
        cases hb
        rfl
    refine ⟨entry.module ++ (entry.call ++ (entry.beforeExtras ++ 0x5B :: (extras ++ [0x5D]))), [],
      rest ++ (entry.beforeExtras ++ 0x5B :: (extras ++ [0x5D])), by simp, List.forall_mem_nil _,
      ?_, ?_, ?_⟩
    · have := htrimmed.append hextras entry.beforeExtras
      rwa [List.append_assoc] at this
    · rw [← List.append_assoc, hcall, List.append_assoc]
    · cases rest with
      | nil =>
        cases hb : entry.beforeExtras with
        | nil => rfl
        | cons b gap =>
          show endsValue b = true
          rw [endsValue, hgap b (by simp [hb]), Bool.true_or]
      | cons b rest => exact hrest

/-- The trimmed line of an entry, cut at its equals sign. -/
theorem exists_trim_text : ∃ inner rest, trim entry.text =
      (entry.name ++ entry.beforeEquals) ++ equals :: (entry.behindEquals ++ inner) ∧
    IsTrimmed inner ∧ inner = entry.stretch ++ rest ∧ rest.head?.all endsValue = true := by
  obtain ⟨inner, pad, rest, hv, hpad, hinner, hi, hrest⟩ := entry.exists_inner
  have hwhole := entry.isTrimmed_name.append hinner
    (entry.beforeEquals ++ equals :: entry.behindEquals)
  have htrim := @IsTrimmed.trim_padded _ [] pad hwhole (List.forall_mem_nil _) hpad
  refine ⟨inner, rest, ?_, hinner, hi, hrest⟩
  rw [text, hv]
  simpa using htrim

theorem ofLine?_text : EntryPoint.ofLine? (trim entry.text) = some entry.reading := by
  obtain ⟨inner, rest, htext, hinner, hi, hrest⟩ := entry.exists_trim_text
  have hblank (gap : Bytes)
      (hg : gap ∈ [entry.beforeEquals, entry.behindEquals, entry.beforeColon, entry.behindColon,
        entry.beforeExtras]) : ∀ b ∈ gap, isBlank b = true :=
    fun b hb => isBlank_of_isSpace b (entry.gaps gap hg b hb)
  have hsplit : equals ∉ entry.name ++ entry.beforeEquals := by
    rw [List.mem_append, not_or]
    exact ⟨entry.equals_notMem, fun hm => absurd (hblank _ (by simp) equals hm) (by decide)⟩
  have hname : trim (entry.name ++ entry.beforeEquals) = entry.name :=
    @IsTrimmed.trim_padded _ [] _ entry.isTrimmed_name (List.forall_mem_nil _) (hblank _ (by simp))
  have hvalue : trim (entry.behindEquals ++ inner) = inner := by
    have := @IsTrimmed.trim_padded _ entry.behindEquals [] hinner (hblank _ (by simp))
      (List.forall_mem_nil _)
    rwa [List.append_nil] at this
  have hcut : inner.takeWhile (fun b => !endsValue b) = entry.stretch := by
    rw [hi]
    exact entry.takeWhile_stretch hrest
  have hmodule : isDottedName entry.module = true ∨ isIdentifier entry.module = true :=
    entry.isModule.symm
  have hcolon : colon ∉ entry.module := entry.notMem_module rfl (by decide)
  unfold endsValue at hcut
  unfold EntryPoint.ofLine?
  rw [htext, splitFirst?_append hsplit]
  dsimp only
  rw [hvalue, hcut, entry.isTrimmed_stretch.trim_eq, hname]
  have hreading : entry.reading = ⟨entry.name, entry.module, entry.reading.function⟩ := rfl
  rw [hreading, function_reading, stretch]
  cases hk : entry.kept? with
  | none =>
    rw [Option.elim_none, List.append_nil, splitFirst?_of_notMem hcolon]
    dsimp only
    rw [if_pos hmodule]
    rfl
  | some kept =>
    have hkept : trim kept = kept := by
      rcases entry.isIdentifier_kept kept hk with rfl | hi
      · rfl
      · exact (isTrimmed_of_isIdentifier hi).trim_eq
    rw [Option.elim_some, splitFirst?_append hcolon]
    dsimp only
    simp only [entry.isTrimmed_module.trim_eq, hkept]
    rw [if_pos hmodule]
    rfl

theorem lineFeed_notMem_text : lineFeed ∉ entry.text := by
  have hgap (gap : Bytes)
      (hg : gap ∈ [entry.beforeEquals, entry.behindEquals, entry.beforeColon, entry.behindColon,
        entry.beforeExtras]) : lineFeed ∉ gap :=
    fun hm => absurd (entry.gaps gap hg lineFeed hm) (by decide)
  have hmodule : lineFeed ∉ entry.module := entry.notMem_module rfl (by decide)
  have hcall : lineFeed ∉ entry.call := by
    unfold call
    cases hf : entry.function? with
    | none => exact List.not_mem_nil
    | some function =>
      have hfunction := notMem_of_isIdentifier (entry.isFunction function hf)
        (show isNameByte lineFeed = false by decide)
      simp only [Option.elim_some, List.mem_append, List.mem_cons, not_or]
      exact ⟨hgap _ (by simp), by decide, hgap _ (by simp), hfunction⟩
  have hextras : lineFeed ∉ entry.extras := by
    unfold extras
    cases he : entry.extras? with
    | none => exact List.not_mem_nil
    | some extras =>
      simp only [Option.elim_some, List.mem_append, List.mem_cons, List.not_mem_nil, not_or,
        or_false]
      exact ⟨by decide, entry.extras_line extras he, by decide⟩
  simp only [text, value, List.mem_append, List.mem_cons, not_or]
  exact ⟨entry.lineFeed_notMem, hgap _ (by simp), by decide, hgap _ (by simp), hmodule, hcall,
    hgap _ (by simp), hextras⟩

/-- The line of an entry is no remark and no header. -/
theorem head?_trim_text :
    ∃ b, (trim entry.text).head? = some b ∧ b ≠ hash ∧ b ≠ 0x3B ∧ b ≠ 0x5B := by
  obtain ⟨inner, rest, htext, -⟩ := entry.exists_trim_text
  obtain ⟨b, name, hn⟩ := List.exists_cons_of_ne_nil entry.isTrimmed_name.ne_nil
  have hb := entry.name_head? b (by rw [hn]; rfl)
  simp only [List.mem_cons, List.not_mem_nil, or_false, not_or] at hb
  refine ⟨b, ?_, hb⟩
  rw [htext, hn]
  rfl

end IndexEntry

theorem IsRemark.isIdle {text : Bytes} (h : IsRemark text) :
    EntryPoint.isIdle (trim text) = true := by
  rcases h.silent with hb | ⟨blanks, mark, comment, rfl, hb, hm⟩
  · have ht := trim_padding hb (List.forall_mem_nil _) []
    rw [List.append_nil, List.append_nil] at ht
    rw [ht]
    rfl
  · have hmark : isBlank mark = false := by rcases hm with rfl | rfl <;> rfl
    unfold EntryPoint.isIdle
    rw [@head?_trim blanks comment hb mark hmark]
    rcases hm with rfl | rfl <;> simp

namespace IndexSection

variable (part : IndexSection)

theorem isTrimmed_header : IsTrimmed part.header := by
  refine ⟨List.cons_ne_nil _ _, fun b hb => ?_, fun b hb => ?_⟩
  · cases hb
    rfl
  · rw [header, ← List.cons_append, List.getLast?_concat] at hb
    cases hb
    rfl

theorem sectionOf?_header : EntryPoint.sectionOf? part.header = some part.name := by
  have hlast : part.header.getLast? = some 0x5D := by
    rw [header, ← List.cons_append, List.getLast?_concat]
  have hname : part.header.tail.dropLast = part.name := List.dropLast_concat
  have hlength : 2 ≤ part.header.length := by simp [header]
  unfold EntryPoint.sectionOf?
  rw [if_pos ⟨hlength, hlast⟩, hname, part.isTrimmed_name.trim_eq]

theorem lineFeed_notMem_texts : ∀ text ∈ part.texts, lineFeed ∉ text := by
  refine List.forall_mem_cons.2 ⟨?_, List.forall_mem_map.2 fun line _ => ?_⟩
  · simp only [header, List.mem_cons, List.mem_append, List.not_mem_nil, not_or, or_false]
    exact ⟨by decide, part.lineFeed_notMem, by decide⟩
  · cases line with
    | remark text h => exact h.lineFeed_notMem
    | entry given => exact given.lineFeed_notMem_text

end IndexSection

namespace EntryPoint

variable {group : Bytes} {isOpen : Bool} {text : Bytes} {rest : List Bytes}

theorem first?_remark (h : IsRemark text) : first? group isOpen (text :: rest) =
    first? group isOpen rest := by
  rw [first?, if_pos h.isIdle]

/-- A header ends an open section. -/
theorem first?_header (part : IndexSection) : first? group isOpen (part.header :: rest) =
    if isOpen then none else first? group (part.name == group) rest := by
  have hidle : EntryPoint.isIdle part.header = false := rfl
  have hhead : part.header.head? = some 0x5B := rfl
  rw [first?, part.isTrimmed_header.trim_eq, if_neg (by simp [hidle]), if_pos hhead,
    part.sectionOf?_header]
  rfl

theorem first?_entry (entry : IndexEntry) : first? group isOpen (entry.text :: rest) =
    if isOpen then some entry.reading else first? group false rest := by
  obtain ⟨b, hb, hh, hs, ho⟩ := entry.head?_trim_text
  have hidle : EntryPoint.isIdle (trim entry.text) = false := by
    unfold EntryPoint.isIdle
    rw [hb]
    cases ht : trim entry.text with
    | nil =>
      rw [ht] at hb
      cases hb
    | cons => simp [hh, hs]
  rw [first?, if_neg (by simp [hidle]), hb, if_neg (by simpa using ho), entry.ofLine?_text]
  rfl

/-- The lines of an open section are searched up to its first entry, and those of another
one are passed. -/
theorem first?_lines (lines : List IndexLine) :
    first? group isOpen (lines.map IndexLine.text ++ rest) =
      if isOpen then ((lines.findSome? IndexLine.entry?).map IndexEntry.reading).or
        (first? group true rest)
      else first? group false rest := by
  induction lines with
  | nil => cases isOpen <;> rfl
  | cons line lines ih =>
    rw [List.map_cons, List.cons_append, List.findSome?_cons]
    cases line with
    | remark text h => exact (first?_remark h).trans ih
    | entry given =>
      refine (first?_entry given).trans ?_
      cases isOpen with
      | true => rfl
      | false => exact ih

/-- Behind an open section nothing is found. -/
theorem first?_open (sections : List IndexSection) :
    first? group true (sections.flatMap IndexSection.texts) = none := by
  cases sections with
  | nil => rfl
  | cons part sections =>
    rw [List.flatMap_cons, IndexSection.texts, List.cons_append, first?_header]
    rfl

theorem first?_sections (sections : List IndexSection) :
    first? group false (sections.flatMap IndexSection.texts) =
      ((sections.find? (·.name == group)).bind IndexSection.first?).map IndexEntry.reading := by
  induction sections with
  | nil => rfl
  | cons part sections ih =>
    rw [List.flatMap_cons, IndexSection.texts, List.cons_append, first?_header, List.find?_cons]
    cases hg : part.name == group with
    | true =>
      refine (first?_lines part.lines).trans ?_
      rw [if_pos rfl, first?_open, Option.or_none]
      rfl
    | false => exact (first?_lines part.lines).trans ih

end EntryPoint

namespace EntryIndex

variable (index : EntryIndex)

theorem lineFeed_notMem_texts :
    ∀ text ∈ index.preamble ++ index.sections.flatMap IndexSection.texts, lineFeed ∉ text := by
  refine List.forall_mem_append.2 ⟨fun text hm => (index.isRemark_preamble text hm).lineFeed_notMem,
    fun text hm => ?_⟩
  obtain ⟨part, -, hm⟩ := List.mem_flatMap.1 hm
  exact part.lineFeed_notMem_texts text hm

/-- The first entry of a section is found in the text of the index, however it is spaced and
whatever remarks stand between the lines. Its function is lost when there is a gap at the colon. -/
theorem find?_text (group : Bytes) : EntryPoint.find? index.text group =
    ((index.sections.find? (·.name == group)).bind IndexSection.first?).map IndexEntry.reading := by
  have hpreamble (preamble : List Bytes) (hp : ∀ text ∈ preamble, IsRemark text) :
      EntryPoint.first? group false (preamble ++ index.sections.flatMap IndexSection.texts) =
        EntryPoint.first? group false (index.sections.flatMap IndexSection.texts) := by
    induction preamble with
    | nil => rfl
    | cons text preamble ih =>
      obtain ⟨ht, hp⟩ := List.forall_mem_cons.1 hp
      exact (EntryPoint.first?_remark ht).trans (ih hp)
  rw [← EntryPoint.first?_sections, ← hpreamble index.preamble index.isRemark_preamble,
    EntryPoint.find?, lines, text]
  by_cases hn : index.preamble ++ index.sections.flatMap IndexSection.texts = []
  · rw [hn]
    rfl
  · rw [fields_joinWith hn index.lineFeed_notMem_texts]

end EntryIndex

/-- An entry with a blank on both sides of its colon. -/
def IndexEntry.spaced : IndexEntry where
  name := ascii "d"
  module := ascii "m"
  function? := some (ascii "f")
  extras? := none
  beforeEquals := [space]
  behindEquals := [space]
  beforeColon := [space]
  behindColon := [space]
  beforeExtras := []
  isTrimmed_name := isTrimmed_of_isIdentifier (by decide)
  equals_notMem := by decide
  lineFeed_notMem := by decide
  name_head? := by decide +kernel
  isModule := .inl rfl
  isFunction := fun f hf => by cases hf; rfl
  extras_line := fun extras he => by cases he
  gaps := by decide +kernel

/-- The function of such an entry is not read. -/
theorem EntryIndex.find?_spaced :
    let part : IndexSection :=
      ⟨ascii "r2x_plugin", [.entry .spaced, .remark [] ⟨by decide, .inl (List.forall_mem_nil _)⟩],
        isTrimmed_of_isIdentifier (by decide), by decide⟩
    let index : EntryIndex := ⟨[], [part], List.forall_mem_nil _⟩
    index.text = ascii "[r2x_plugin]\nd = m : f\n" ∧ part.first? = some .spaced ∧
      IndexEntry.spaced.function? = some (ascii "f") ∧
      EntryPoint.find? index.text part.name = some ⟨ascii "d", ascii "m", none⟩ := by
  intro part index
  refine ⟨by decide +kernel, rfl, rfl, by decide +kernel⟩

end ManifestScan
