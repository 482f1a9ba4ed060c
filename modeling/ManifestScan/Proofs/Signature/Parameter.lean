import ManifestScan.Proofs.Lexing.Inline
import ManifestScan.Proofs.Listing.Body
import ManifestScan.Proofs.Text.Name
import ManifestScan.Proofs.Text.Part
import ManifestScan.Signature

namespace ManifestScan

def Piece.isComment : Piece → Bool
  | .comment _ => true
  | _ => false

/-- An expression on one line: it is read without faults and comments, and its brackets
are balanced. -/
structure IsExpression (text : Bytes) : Prop where
  ne_nil : text ≠ []
  trim_eq : trim text = text
  lineFeed_notMem : lineFeed ∉ text
  comment_notMem : ∀ comment, .comment comment ∉ codePieces text
  faults_eq : (tokenize text).faults = []
  balanced : Turn.through 0 ((tokenize text).tokens.filterMap Token.turn?) = some 0

theorem isExpression_iff {text : Bytes} : IsExpression text ↔
    text ≠ [] ∧ trim text = text ∧ lineFeed ∉ text ∧
      (∀ piece ∈ codePieces text, piece.isComment = false) ∧ (tokenize text).faults = [] ∧
      Turn.through 0 ((tokenize text).tokens.filterMap Token.turn?) = some 0 := by
  constructor
  · refine fun h =>
      ⟨h.ne_nil, h.trim_eq, h.lineFeed_notMem, fun piece hm => ?_, h.faults_eq, h.balanced⟩
    cases piece with
    | comment comment => exact absurd hm (h.comment_notMem comment)
    | _ => rfl
  · rintro ⟨hn, ht, hl, hc, hf, hb⟩
    exact ⟨hn, ht, hl, fun comment hm => Bool.noConfusion (hc _ hm), hf, hb⟩

instance (text : Bytes) : Decidable (IsExpression text) := decidable_of_iff _ isExpression_iff.symm

namespace IsExpression

variable {text : Bytes}

theorem isTrimmed (h : IsExpression text) : IsTrimmed text := isTrimmed_of_trim h.ne_nil h.trim_eq

/-- In front of a boundary an expression is read as it is read alone. -/
theorem exists_inline (h : IsExpression text) : ∃ lexemes, Inline text lexemes := by
  obtain ⟨lexemes, hl, hh, ht⟩ :=
    exists_lexes_tokenize h.isTrimmed h.lineFeed_notMem h.comment_notMem h.faults_eq
  exact ⟨lexemes, fun rest hr => hl.extend hh hr, hl.isInline h.lineFeed_notMem hh, ht ▸ h.balanced⟩

theorem isPart (h : IsExpression text) : IsPart text := by
  obtain ⟨lexemes, hl, -, ht⟩ := h.exists_inline
  have hcut {rest : Bytes} (hr : IsBoundary rest) :
      codePieces (text ++ rest) = codePieces text ++ codePieces rest ∧
        Piece.Cover (codePieces text) text (turnsOf lexemes) := by
    obtain ⟨found, hf, hc⟩ := (hl rest hr).pieces
    have hfound := hf rest rfl
    rw [Piece.cut_own hfound hc.text_eq hc.closed]
    exact ⟨hfound, hc⟩
  have hcover := (hcut .nil).2
  refine ⟨fun rest hr => (hcut hr).1, fun piece hm => ?_, ?_⟩
  · cases piece with
    | byte b => rfl
    | literal literal => rfl
    | unclosed open_ => exact absurd hm (hcover.closed open_)
    | comment comment => exact absurd hm (h.comment_notMem comment)
  · rw [hcover.turns_eq]
    exact ht

end IsExpression

theorem inert_of_isIdentifier {name : Bytes} (h : isIdentifier name = true) : Lexeme.Inert name :=
  fun b hb => Lexeme.isInert_wordByte b
    (Lexeme.isWordByte_of_isNameByte b (List.all_eq_true.1 (all_isNameByte h) b hb))

theorem assignment?_of_none {text : Bytes} (h : outerPosition? equals text = none) :
    assignment? text = none := by
  unfold assignment?
  rw [assignmentAfter?]
  split
  · rfl
  · rename_i i hi
    rw [h] at hi
    cases hi

/-- The first equals sign is an assignment where blanks stand around it. -/
theorem assignment?_of_blanks {front behind : Bytes}
    (h : outerPosition? equals (front ++ space :: equals :: space :: behind) =
      some (front.length + 1)) :
    assignment? (front ++ space :: equals :: space :: behind) = some (front.length + 1) := by
  have hbehind :
      (front ++ space :: equals :: space :: behind)[front.length + 1 + 1]? = some space := by
    rw [Nat.add_assoc, List.getElem?_append_right (Nat.le_add_right _ _), Nat.add_sub_cancel_left]
    rfl
  have hbefore : (front ++ space :: equals :: space :: behind)[front.length]? = some space := by
    rw [List.getElem?_append_right (Nat.le_refl _), Nat.sub_self]
    rfl
  unfold assignment?
  rw [assignmentAfter?]
  split
  · rename_i hi
    rw [h] at hi
    cases hi
  · rename_i i hi
    obtain rfl : front.length + 1 = i := by
      rw [h] at hi
      exact Option.some.inj hi
    dsimp only
    rw [hbehind, if_neg (by decide), if_neg (Nat.succ_ne_zero _), Nat.add_sub_cancel, hbefore]
    exact if_neg (by decide)

theorem inert_separators : Lexeme.Inert (ascii ": ") ∧ Lexeme.Inert (ascii " = ") ∧
    Lexeme.Inert (ascii ", ") := by
  refine ⟨?_, ?_, ?_⟩ <;> exact fun b hb => List.all_eq_true.1 (by decide) b hb

theorem isBoundary_separators (rest : Bytes) : IsBoundary (ascii ": " ++ rest) ∧
    IsBoundary (ascii " = " ++ rest) ∧ IsBoundary (ascii ", " ++ rest) :=
  ⟨.cons (by decide) _, .cons (by decide) _, .cons (by decide) _⟩

namespace Parameter

structure Written where
  name : Bytes
  hint : Option Bytes
  default : Option Bytes

namespace Written

open Lexeme

def head (written : Written) : Bytes :=
  written.name ++ (written.hint.elim [] (ascii ": " ++ ·))

def text (written : Written) : Bytes :=
  written.head ++ (written.default.elim [] (ascii " = " ++ ·))

def parameter (written : Written) : Parameter :=
  ⟨written.name, written.hint, written.default.map Default.serialize, written.default.isNone⟩

structure IsProper (written : Written) : Prop where
  name : isIdentifier written.name = true
  hint : ∀ hint ∈ written.hint, IsExpression hint ∧ outerPosition? equals hint = none ∧
    outerPosition? colon hint = none
  default : ∀ default ∈ written.default, IsExpression default

theorem isProper_iff {written : Written} : written.IsProper ↔ isIdentifier written.name = true ∧
    (∀ hint ∈ written.hint, IsExpression hint ∧ outerPosition? equals hint = none ∧
      outerPosition? colon hint = none) ∧ ∀ default ∈ written.default, IsExpression default :=
  ⟨fun h => ⟨h.name, h.hint, h.default⟩, fun ⟨hn, hh, hd⟩ => ⟨hn, hh, hd⟩⟩

instance (written : Written) : Decidable written.IsProper := decidable_of_iff _ isProper_iff.symm

variable {written : Written}

/-- A parameter starts with its name. -/
theorem text_cons (h : written.IsProper) :
    ∃ b more, isNameByte b = true ∧ written.text = b :: more := by
  obtain ⟨b, name, hn⟩ := List.exists_cons_of_ne_nil (isTrimmed_of_isIdentifier h.name).ne_nil
  unfold text head
  rw [hn]
  exact ⟨b, _, List.all_eq_true.1 (all_isNameByte h.name) b (hn ▸ List.mem_cons_self), rfl⟩

theorem isTrimmed_head (h : written.IsProper) : IsTrimmed written.head := by
  have hn := isTrimmed_of_isIdentifier h.name
  unfold head
  cases hh : written.hint with
  | none => rwa [Option.elim_none, List.append_nil]
  | some hint => exact hn.append (h.hint hint hh).1.isTrimmed _

theorem isPart_head (h : written.IsProper) : IsPart written.head := by
  have hn := IsPart.of_inert (inert_of_isIdentifier h.name)
  unfold head
  cases hh : written.hint with
  | none => rwa [Option.elim_none, List.append_nil]
  | some hint =>
    exact hn.append_part (.inert_append inert_separators.1 (h.hint hint hh).1.isPart)
      (isBoundary_separators hint).1

theorem isPart_text (h : written.IsProper) : IsPart written.text := by
  have hn := isPart_head h
  unfold text
  cases hd : written.default with
  | none => rwa [Option.elim_none, List.append_nil]
  | some default =>
    exact hn.append_part (.inert_append inert_separators.2.1 (h.default default hd).isPart)
      (isBoundary_separators default).2.1

theorem isTrimmed_text (h : written.IsProper) : IsTrimmed written.text := by
  have hn := isTrimmed_head h
  unfold text
  cases hd : written.default with
  | none => rwa [Option.elim_none, List.append_nil]
  | some default => exact hn.append (h.default default hd).isTrimmed _

/-- A parameter is read as its name and the rest, which starts with the colon of its hint. -/
theorem exists_inline (h : written.IsProper) :
    ∃ lexemes, Inline written.text (ofWord written.name :: lexemes) ∧
      (written.hint.isSome → lexemes.head? = some ⟨.token .colon, [colon]⟩) := by
  have hhead : ∃ lexemes, Inline written.head (ofWord written.name :: lexemes) ∧
      (written.hint.isSome → lexemes.head? = some ⟨.token .colon, [colon]⟩) := by
    have hn := Inline.word h.name
    unfold head
    cases hh : written.hint with
    | none => exact ⟨[], by rwa [Option.elim_none, List.append_nil], nofun⟩
    | some hint =>
      obtain ⟨lexemes, hl⟩ := (h.hint hint hh).1.exists_inline
      exact ⟨_, hn.append (inline_separators hl).1 (isBoundary_separators hint).1, fun _ => rfl⟩
  obtain ⟨lexemes, hl, hcolon⟩ := hhead
  unfold text
  cases hd : written.default with
  | none => exact ⟨lexemes, by rwa [Option.elim_none, List.append_nil], hcolon⟩
  | some default =>
    obtain ⟨others, ho⟩ := (h.default default hd).exists_inline
    refine ⟨lexemes ++ (blank :: ⟨.token .equals, [equals]⟩ :: blank :: others),
      hl.append (inline_separators ho).2.1 (isBoundary_separators default).2.1, fun hs => ?_⟩
    rw [List.head?_append, hcolon hs]
    rfl

/-- A byte that is in neither the name nor the separators is outside brackets where it is so
in the hint. -/
theorem outerPosition?_head (h : written.IsProper) {target : UInt8}
    (hn : isNameByte target = false) (hs : target ∉ ascii ": ")
    (hh : ∀ hint ∈ written.hint, outerPosition? target hint = none) :
    outerPosition? target written.head = none := by
  have hname := inert_of_isIdentifier h.name
  have hmem := notMem_of_isIdentifier h.name hn
  unfold head
  cases ht : written.hint with
  | none =>
    rw [Option.elim_none, List.append_nil]
    exact hname.outerPosition?_eq_none hmem
  | some hint =>
    rw [Option.elim_some, hname.outerPosition?_append hmem,
      inert_separators.1.outerPosition?_append hs, hh hint ht]
    rfl

theorem outerPosition?_text (h : written.IsProper) {default : Bytes}
    (hd : written.default = some default) :
    written.text = written.head ++ space :: equals :: space :: default ∧
      outerPosition? equals written.text = some (written.head.length + 1) := by
  have he : written.text = written.head ++ space :: equals :: space :: default := by
    unfold text
    rw [hd]
    rfl
  have hnone := outerPosition?_head h (by decide) (by decide) fun hint hm => (h.hint hint hm).2.1
  have hi : Lexeme.Inert [space] := fun b hb => List.all_eq_true.1 (by decide) b hb
  have hself := @Lexeme.Inert.outerPosition?_append [space] equals hi (by decide)
    (equals :: space :: default)
  rw [outerPosition?_self (by decide)] at hself
  refine ⟨he, ?_⟩
  rw [he, (isPart_head h).outerPosition?_append (.cons (by decide) _) hnone]
  rw [List.singleton_append] at hself
  rw [hself]
  simp [Nat.add_comm]

theorem head_of_hint {hint : Bytes} (hh : written.hint = some hint) :
    written.head = written.name ++ colon :: space :: hint := by
  unfold head
  rw [hh]
  rfl

theorem serialize_blank (text : Bytes) :
    Default.serialize (space :: text) = Default.serialize text := by
  have ht : trim (space :: text) = trim text := rfl
  unfold Default.serialize
  rw [ht]

/-- The colon parts the name from the hint. -/
theorem read_head (h : written.IsProper) (default : Option Bytes) (required : Bool) :
    (let (name, hint) := match outerPosition? colon written.head with
      | some i => (trim (written.head.take i), trim (written.head.drop (i + 1)))
      | none => (written.head, [])
    if isIdentifier name then
      some (⟨name, if hint.isEmpty then none else some hint, default, required⟩ : Parameter)
    else none) = some ⟨written.name, written.hint, default, required⟩ := by
  have hname := inert_of_isIdentifier h.name
  have hmem : colon ∉ written.name := notMem_of_isIdentifier h.name (by decide)
  cases hh : written.hint with
  | none =>
    have he : written.head = written.name := by
      unfold head
      rw [hh, Option.elim_none, List.append_nil]
    rw [he, hname.outerPosition?_eq_none hmem]
    exact if_pos h.name
  | some hint =>
    have he := h.hint hint hh
    have htrim : trim (space :: hint) = hint := by
      have hblank : ∀ b ∈ [space], isBlank b = true := List.forall_mem_singleton.2 (by decide)
      have := he.1.isTrimmed.trim_padded hblank (List.forall_mem_nil _)
      rwa [List.append_nil] at this
    rw [head_of_hint hh, hname.outerPosition?_append hmem, outerPosition?_self (by decide),
      Option.map_some, Nat.zero_add]
    dsimp only
    rw [List.take_left, trim_name (all_isNameByte h.name), if_pos h.name,
      List.drop_length_add_append, List.drop_one, List.tail_cons, htrim,
      if_neg (by simpa using he.1.ne_nil)]

theorem ofText?_of_assignment (h : written.IsProper) {text : Bytes} {split : Option Nat}
    (hs : assignment? text = split)
    (hd : split.map (fun i => Default.serialize (text.drop (i + 1))) =
      written.default.map Default.serialize)
    (hh : (split.elim text fun i => trim (text.take i)) = written.head) :
    ofText? text = some written.parameter := by
  have hr : split.isNone = written.default.isNone := by
    have := congrArg Option.isNone hd
    rwa [Option.isNone_map, Option.isNone_map] at this
  unfold ofText? parameter
  rw [hs, ← hd, ← hr, ← read_head h, ← hh]
  cases split <;> rfl

/-- A parameter that is written is read. -/
theorem ofText?_text (h : written.IsProper) : ofText? written.text = some written.parameter := by
  cases hd : written.default with
  | none =>
    have he : written.text = written.head := by
      unfold text
      rw [hd, Option.elim_none, List.append_nil]
    have hnone := outerPosition?_head h (by decide) (by decide) fun hint hm => (h.hint hint hm).2.1
    rw [he]
    exact ofText?_of_assignment h (assignment?_of_none hnone) (by rw [hd]; rfl) rfl
  | some default =>
    obtain ⟨he, hp⟩ := outerPosition?_text h hd
    rw [he] at hp ⊢
    refine ofText?_of_assignment h (assignment?_of_blanks hp) ?_ ?_
    · rw [hd, Option.map_some, Option.map_some, Nat.add_assoc, List.drop_length_add_append]
      exact congrArg some (serialize_blank default)
    · rw [Option.elim_some, List.take_length_add_append]
      exact (isTrimmed_head h).trim_padded (List.forall_mem_nil _)
        (List.forall_mem_singleton.2 (by decide))

structure IsListed (written : Written) : Prop extends written.IsProper where
  comma_hint : ∀ hint ∈ written.hint, outerPosition? comma hint = none
  comma_default : ∀ default ∈ written.default, outerPosition? comma default = none

theorem isListed_iff : written.IsListed ↔ written.IsProper ∧
    (∀ hint ∈ written.hint, outerPosition? comma hint = none) ∧
      ∀ default ∈ written.default, outerPosition? comma default = none :=
  ⟨fun h => ⟨h.toIsProper, h.comma_hint, h.comma_default⟩, fun ⟨hp, hh, hd⟩ => ⟨hp, hh, hd⟩⟩

instance (written : Written) : Decidable written.IsListed := decidable_of_iff _ isListed_iff.symm

theorem outerPosition?_comma (h : written.IsListed) : outerPosition? comma written.text = none := by
  have hhead := outerPosition?_head h.toIsProper (by decide) (by decide) h.comma_hint
  unfold text
  cases hd : written.default with
  | none => rwa [Option.elim_none, List.append_nil]
  | some default =>
    have hi := @Lexeme.Inert.outerPosition?_append _ comma inert_separators.2.1 (by decide) default
    rw [h.comma_default default hd] at hi
    rw [Option.elim_some,
      (isPart_head h.toIsProper).outerPosition?_append
        (isBoundary_separators default).2.1 hhead, hi]
    rfl

theorem isMarker_text (h : written.IsProper) : isMarker written.text = false := by
  have hname : ∀ b, isNameByte b = true → b ≠ slash ∧ b ≠ 0x2A := by decide +kernel
  obtain ⟨b, more, hb, he⟩ := text_cons h
  unfold isMarker
  rw [he]
  simp [hname b hb]

end Written

/-- The texts that commas part are the fields of the list. -/
theorem outerFields_joinWith {first : Bytes} {others : List Bytes}
    (h : ∀ text ∈ first :: others, IsPart text ∧ outerPosition? comma text = none) :
    outerFields comma (joinWith (ascii ", ") (first :: others)) =
      first :: others.map (space :: ·) := by
  induction others generalizing first with
  | nil => exact (h first List.mem_cons_self).1.outerFields_eq (h first List.mem_cons_self).2
  | cons second others ih =>
    obtain ⟨⟨hp, hn⟩, hothers⟩ := List.forall_mem_cons.1 h
    have hi : Lexeme.Inert [space] := fun b hb => List.all_eq_true.1 (by decide) b hb
    have hspace := @Lexeme.Inert.outerFields_append [space] comma hi (by decide)
      (joinWith (ascii ", ") (second :: others))
    have he : ascii ", " ++ joinWith (ascii ", ") (second :: others) =
        comma :: ([space] ++ joinWith (ascii ", ") (second :: others)) := rfl
    rw [joinWith_cons _ (List.cons_ne_nil _ _),
      hp.outerFields_append (isBoundary_separators _).2.2 hn, he,
      outerFields_self (by decide) (by decide), hspace, ih hothers]
    simp [Bracket.prepend]

theorem isPart_joinWith {texts : List Bytes} (h : ∀ text ∈ texts, IsPart text) :
    IsPart (joinWith (ascii ", ") texts) := by
  induction texts with
  | nil => exact .nil
  | cons first others ih =>
    obtain ⟨hf, ho⟩ := List.forall_mem_cons.1 h
    by_cases hn : others = []
    · rwa [hn]
    · rw [joinWith_cons _ hn]
      exact hf.append_part (.inert_append inert_separators.2.2 (ih ho))
        (isBoundary_separators _).2.2

theorem exists_inline_joinWith {texts : List Bytes}
    (h : ∀ text ∈ texts, ∃ lexemes, Inline text lexemes) :
    ∃ lexemes, Inline (joinWith (ascii ", ") texts) lexemes := by
  induction texts with
  | nil => exact ⟨[], .nil⟩
  | cons first others ih =>
    obtain ⟨hf, ho⟩ := List.forall_mem_cons.1 h
    by_cases hn : others = []
    · rwa [hn]
    · rw [joinWith_cons _ hn]
      obtain ⟨lexemes, hl⟩ := hf
      obtain ⟨more, hm⟩ := ih ho
      exact ⟨_, hl.append (inline_separators hm).2.2 (isBoundary_separators _).2.2⟩

/-- Parameters of different names are all kept. -/
theorem foldl_addTo {parameters others : List Parameter}
    (h : ((parameters ++ others).map (·.name)).Nodup) :
    others.foldl addTo parameters = parameters ++ others := by
  induction others generalizing parameters with
  | nil => exact (List.append_nil _).symm
  | cons other others ih =>
    have hnew : parameters.any (·.name == other.name) = false := by
      rw [List.map_append, List.map_cons, List.nodup_append] at h
      rw [List.any_eq_false]
      intro parameter hm he
      exact h.2.2 _ (List.mem_map_of_mem hm) _ List.mem_cons_self (by simpa using he)
    have hadd : addTo parameters other = parameters ++ [other] := if_neg (by simp [hnew])
    rw [List.foldl_cons, hadd, ih (by rwa [List.append_assoc]), List.append_assoc]
    rfl

/-- A parameter that stands for the object or the class where it is the first. -/
def isReceiver (name : Bytes) : Bool := name == ascii "self" || name == ascii "cls"

def withoutReceiver (written : List Written) : List Written :=
  if (written.head?.map (·.name)).any isReceiver then written.tail else written

theorem map_trim_joinWith {first : Bytes} {others : List Bytes}
    (h : ∀ text ∈ first :: others, IsPart text ∧ outerPosition? comma text = none)
    (ht : ∀ text ∈ first :: others, IsTrimmed text) :
    (outerFields comma (joinWith (ascii ", ") (first :: others))).map trim = first :: others := by
  have hblank : ∀ b ∈ [space], isBlank b = true := List.forall_mem_singleton.2 (by decide)
  have htrim : (others.map (space :: ·)).map trim = others := by
    rw [List.map_map]
    refine (List.map_congr_left fun text hm => ?_).trans (List.map_id others)
    have := (ht text (List.mem_cons_of_mem _ hm)).trim_padded hblank (List.forall_mem_nil _)
    rwa [List.append_nil] at this
  rw [outerFields_joinWith h, List.map_cons, (ht first List.mem_cons_self).trim_eq, htrim]

theorem outerFields_nil (separator : UInt8) : outerFields separator [] = [[]] := by
  unfold outerFields pieces
  rw [Piece.cut]
  rfl

theorem entries_joinWith {texts : List Bytes}
    (h : ∀ text ∈ texts, IsPart text ∧ outerPosition? comma text = none)
    (ht : ∀ text ∈ texts, IsTrimmed text) :
    ((outerFields comma (joinWith (ascii ", ") texts)).map trim).filter (!·.isEmpty) = texts := by
  have hfilter : texts.filter (!·.isEmpty) = texts :=
    List.filter_eq_self.2 fun text hm => by simpa using (ht text hm).ne_nil
  cases texts with
  | nil =>
    rw [joinWith, outerFields_nil]
    rfl
  | cons first others => rw [map_trim_joinWith h ht, hfilter]

theorem filter_receiver (written : Written) :
    (some written.parameter).filter (fun p => p.name != ascii "self" && p.name != ascii "cls") =
      if isReceiver written.name then none else some written.parameter := by
  have hname : written.parameter.name = written.name := rfl
  rw [Option.filter_some, hname, isReceiver]
  cases hs : written.name == ascii "self" <;> cases hc : written.name == ascii "cls" <;>
    simp [bne, hs, hc]

/-- What is read from a list is what is written there, without a receiver in front. -/
theorem listOf_joinWith {written : List Written} (h : ∀ parameter ∈ written, parameter.IsListed)
    (hd : ((withoutReceiver written).map (·.name)).Nodup) :
    listOf (joinWith (ascii ", ") (written.map Written.text)) =
      (withoutReceiver written).map Written.parameter := by
  have htexts : ∀ text ∈ written.map Written.text, ∃ parameter ∈ written, parameter.text = text :=
    fun text hm => List.mem_map.1 hm
  have hparts :
      ∀ text ∈ written.map Written.text, IsPart text ∧ outerPosition? comma text = none := by
    intro text hm
    obtain ⟨parameter, hp, rfl⟩ := htexts text hm
    exact ⟨Written.isPart_text (h parameter hp).toIsProper,
      Written.outerPosition?_comma (h parameter hp)⟩
  have htrimmed : ∀ text ∈ written.map Written.text, IsTrimmed text := by
    intro text hm
    obtain ⟨parameter, hp, rfl⟩ := htexts text hm
    exact Written.isTrimmed_text (h parameter hp).toIsProper
  have hread : ∀ parameter ∈ written,
      (if isMarker parameter.text then none else ofText? parameter.text) =
        some parameter.parameter := by
    intro parameter hp
    rw [Written.isMarker_text (h parameter hp).toIsProper]
    exact Written.ofText?_text (h parameter hp).toIsProper
  have hkept : ((withoutReceiver written).map Written.parameter).foldl addTo [] =
      (withoutReceiver written).map Written.parameter := by
    refine (foldl_addTo ?_).trans (List.nil_append _)
    rw [List.nil_append, List.map_map]
    exact hd
  unfold listOf
  rw [(isPart_joinWith fun text hm => (hparts text hm).1).dropComments_eq]
  dsimp only
  rw [entries_joinWith hparts htrimmed]
  -- Only a first parameter can be a receiver, so it is taken apart from the others.
  cases written with
  | nil => rfl
  | cons first others =>
    have hothers : (others.map Written.text).filterMap
        (fun entry => if isMarker entry then none else ofText? entry) =
          others.map Written.parameter := by
      rw [List.filterMap_map, ← List.filterMap_eq_map]
      exact List.filterMap_congr fun parameter hm => hread parameter (List.mem_cons_of_mem _ hm)
    rw [List.map_cons, List.head?_cons, Option.bind_some, hread first List.mem_cons_self,
      List.drop_one, List.tail_cons, hothers]
    have hall : withoutReceiver (first :: others) =
        if isReceiver first.name then others else first :: others := rfl
    rw [hall] at hkept ⊢
    rw [filter_receiver]
    cases hr : isReceiver first.name with
    | true =>
      rw [hr] at hkept
      exact hkept
    | false =>
      rw [hr] at hkept
      exact hkept

end Parameter

end ManifestScan
