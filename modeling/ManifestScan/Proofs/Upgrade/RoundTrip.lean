import ManifestScan.Proofs.Signature.Decorated
import ManifestScan.Proofs.Text.Call
import ManifestScan.Proofs.Text.Qualified
import ManifestScan.Proofs.Upgrade.Priority

namespace ManifestScan

open ArgumentList Lexeme

namespace UpgradeStep

structure Quoted where
  mark : UInt8
  text : Bytes
  isQuote : Literal.isQuote mark = true

def Quoted.written (literal : Quoted) : Bytes := Literal.quoteIn literal.mark literal.text

inductive Detail where
  | target (version : Quoted)
  | kind (form : UpgradeKind)
  | priority (n : Int)
  | minVersion (version : Quoted)
  | maxVersion (version : Quoted)

namespace Detail

def pair : Detail → Bytes × Bytes
  | .target version => (ascii "target_version", version.written)
  | .kind form => (ascii "upgrade_type", ascii "UpgradeType." ++ form.name)
  | .priority n => (ascii "priority", signedDecimal n)
  | .minVersion version => (ascii "min_version", version.written)
  | .maxVersion version => (ascii "max_version", version.written)

def apply (step : UpgradeStep) : Detail → UpgradeStep
  | .target version => { step with target := version.text }
  | .kind form => { step with kind := form }
  | .priority n => { step with priority := n }
  | .minVersion version => { step with minVersion := some version.text }
  | .maxVersion version => { step with maxVersion := some version.text }

/-- A signed word of 64 bits holds the priority. -/
def InRange : Detail → Prop
  | .priority n => -2 ^ 63 ≤ n ∧ n ≤ 2 ^ 63 - 1
  | _ => True

theorem isEntry_pair (detail : Detail) : IsEntry detail.pair := by
  have hk : isIdentifier detail.pair.1 = true := by cases detail <;> rfl
  refine ⟨hk, ?_⟩
  cases detail with
  | target version => exact .quoteIn version.isQuote version.text
  | kind form => exact .dotted (by cases form <;> rfl)
  | priority n => exact .signedDecimal n
  | minVersion version => exact .quoteIn version.isQuote version.text
  | maxVersion version => exact .quoteIn version.isQuote version.text

theorem denotes_signedDecimal {n : Int} (h : -2 ^ 63 ≤ n ∧ n ≤ 2 ^ 63 - 1) :
    Denotes (signedDecimal n) n := by
  have hd : ∀ b ∈ decimal n.natAbs, isDigit b = true :=
    List.all_eq_true.1 (all_isDigit_decimal _)
  have hv : digitsValue (decimal n.natAbs) = n.natAbs := by
    rw [← numberOf_eq hd, numberOf_decimal]
  refine ⟨_, decimal_ne_nil _, hd, ?_, h.1, h.2⟩
  unfold signedDecimal
  rw [hv]
  split
  · exact .inr ⟨rfl, by omega⟩
  · exact .inl ⟨rfl, by omega⟩

/-- Reading a detail that is written applies it. -/
theorem set_pair {detail : Detail} (h : detail.InRange) (draft : Draft) :
    draft.set detail.pair.1 detail.pair.2 = { draft with step := apply draft.step detail } := by
  cases detail with
  | target version =>
    show Draft.set draft (ascii "target_version") version.written = _
    rw [Draft.set, if_pos rfl, Quoted.written, Literal.unquote_quoteIn version.isQuote]
    rfl
  | kind form =>
    have hk : UpgradeKind.ofText (ascii "UpgradeType." ++ form.name) = form := by
      cases form <;> decide +kernel
    show Draft.set draft (ascii "upgrade_type") (ascii "UpgradeType." ++ form.name) = _
    rw [Draft.set, if_neg (by decide), if_pos rfl, hk]
    rfl
  | priority n =>
    exact Draft.set_priority_some (priorityOf?_eq_some (denotes_signedDecimal h))
  | minVersion version =>
    show Draft.set draft (ascii "min_version") version.written = _
    rw [Draft.set, if_neg (by decide), if_neg (by decide), if_neg (by decide), if_pos rfl,
      Quoted.written, Literal.unquote_quoteIn version.isQuote]
    rfl
  | maxVersion version =>
    show Draft.set draft (ascii "max_version") version.written = _
    rw [Draft.set, if_neg (by decide), if_neg (by decide), if_neg (by decide), if_neg (by decide),
      if_pos rfl, Quoted.written, Literal.unquote_quoteIn version.isQuote]
    rfl

theorem foldl_set {details : List Detail} (h : ∀ detail ∈ details, detail.InRange) (draft : Draft) :
    details.foldl (fun draft detail => draft.set detail.pair.1 detail.pair.2) draft =
      { draft with step := details.foldl apply draft.step } := by
  induction details generalizing draft with
  | nil => rfl
  | cons detail others ih =>
    obtain ⟨hd, ho⟩ := List.forall_mem_cons.1 h
    rw [List.foldl_cons, set_pair hd, ih ho]
    rfl

theorem function_foldl (details : List Detail) (step : UpgradeStep) :
    (details.foldl apply step).function = step.function := by
  induction details generalizing step with
  | nil => rfl
  | cons detail others ih =>
    rw [List.foldl_cons, ih]
    cases detail <;> rfl

end Detail

/-- The details that a step is given; what is absent is left to its default. -/
structure Given where
  target : Option Quoted
  kind : Option UpgradeKind
  priority : Option Int
  minVersion : Option Quoted
  maxVersion : Option Quoted
  priority_range : ∀ n ∈ priority, -2 ^ 63 ≤ n ∧ n ≤ 2 ^ 63 - 1

namespace Given

def details (given : Given) : List Detail :=
  given.target.toList.map .target ++ given.kind.toList.map .kind ++
    given.priority.toList.map .priority ++ given.minVersion.toList.map .minVersion ++
      given.maxVersion.toList.map .maxVersion

def step (given : Given) (module function : Bytes) : UpgradeStep where
  name := function
  function := ⟨module, function, .function, none, []⟩
  target := (given.target.map (·.text)).getD (ascii "unknown")
  kind := given.kind.getD .file
  priority := given.priority.getD 100
  minVersion := given.minVersion.map (·.text)
  maxVersion := given.maxVersion.map (·.text)

variable {given : Given} {details : List Detail}

theorem mem_details {detail : Detail} : detail ∈ given.details ↔ match detail with
    | .target version => given.target = some version
    | .kind form => given.kind = some form
    | .priority n => given.priority = some n
    | .minVersion version => given.minVersion = some version
    | .maxVersion version => given.maxVersion = some version := by
  unfold Given.details
  cases detail <;> simp

theorem inRange {detail : Detail} (h : detail ∈ given.details) : detail.InRange := by
  cases detail with
  | priority n => exact given.priority_range n (mem_details.1 h)
  | _ => trivial

/-- The order of the details does not matter. -/
theorem foldl_perm (h : details.Perm given.details) (step : UpgradeStep) :
    details.foldl Detail.apply step = given.details.foldl Detail.apply step := by
  refine h.foldl_eq' (fun detail hd other ho step => ?_) step
  replace hd := mem_details.1 (h.subset hd)
  replace ho := mem_details.1 (h.subset ho)
  cases detail <;> cases other <;> first
    | rfl
    | (rw [Option.some.inj (hd.symm.trans ho)])

theorem foldl_details (given : Given) (module function : Bytes) :
    { given.details.foldl Detail.apply (plain function) with
        function := ⟨module, function, .function, none, []⟩ } = given.step module function := by
  obtain ⟨target, kind, priority, minVersion, maxVersion, -⟩ := given
  unfold Given.details Given.step
  simp only [List.foldl_append]
  cases target <;> cases kind <;> cases priority <;> cases minVersion <;> cases maxVersion <;> rfl

end Given

/-- A function below a decorator with the given details, in a source of its own. -/
def decorated (className function : Bytes) (details : List Detail) : Bytes :=
  callText (mark className) (details.map Detail.pair) ++
    (ascii "\ndef " ++ (function ++ ascii "():\n    pass\n"))

theorem decorated_eq (className function : Bytes) (details : List Detail) :
    decorated className function details =
      Signature.Written.below ⟨function, [], none⟩
        (callText (mark className) (details.map Detail.pair)) := by
  have hpass : ascii "():\n    pass\n" = leftParen :: rightParen :: colon :: lineFeed ::
      (ascii "    pass" ++ [lineFeed]) := by decide
  have hdef : ascii "\ndef " = lineFeed :: ascii "def " := by decide
  unfold decorated Signature.Written.below Signature.Written.source Signature.Written.header
  rw [hpass, hdef]
  simp [Signature.Written.list, Signature.Written.result, joinWith]

/-- The arguments of a decorator are those that are written in it. -/
theorem argumentsOf?_callText {className : Bytes} {pairs : List (Bytes × Bytes)}
    (h : ∀ pair ∈ pairs, IsEntry pair) :
    argumentsOf? className (callText (mark className) pairs) = some (inside pairs) := by
  have hpart := isPart_inside h
  have hclose : matching? (leftParen :: (inside pairs ++ [rightParen])) 0 =
      some (1 + (inside pairs).length) := by
    have hcover : Piece.Cover (codePieces (inside pairs)) (inside pairs)
        ((codePieces (inside pairs)).filterMap Piece.turn?) :=
      ⟨Piece.flatMap_text_codePieces _, fun _ hm => Bool.noConfusion (hpart.isPlain _ hm),
        Piece.text_ne_nil _, rfl⟩
    rw [@matching?_opened _ (inside pairs ++ [rightParen]) 0 leftParen rfl (by decide),
      hpart.append _ (.cons (by decide) _), Bracket.closing?_through hcover hpart.balanced,
      Piece.cut_byte (by decide) (by decide)]
    rfl
  have hslice : slice (leftParen :: (inside pairs ++ [rightParen])) 1 (1 + (inside pairs).length) =
      inside pairs := slice_between [leftParen] (inside pairs) [rightParen]
  unfold argumentsOf? callText
  rw [afterWord?_self]
  dsimp only
  rw [List.dropWhile_cons_of_neg (by decide), List.head?_cons, if_pos rfl, hclose, Option.map_some,
    hslice]

theorem lexes_at {rest : Bytes} (hr : rest.head? ≠ some equals) :
    Lexes rest [0x40] [⟨.token .at, [0x40]⟩] := by
  have h : Lexeme.read 0x40 rest = unlessAssigned .at [0x40] rest := rfl
  exact .one (h.trans (if_neg hr)) rfl (inert_token (.cons (by decide) nofun) rfl)

/-- A name of a class with or without dots. -/
theorem isIdentifier_fields {className : Bytes}
    (h : isIdentifier className = true ∨ isDottedName className = true) :
    (fields dot (className ++ registration)).all isIdentifier = true := by
  have hr : registration = dot :: ascii "register_step" := by decide
  rw [hr, List.all_eq_true, ← Qualified.iff_all_fields, Qualified.append_iff]
  exact ⟨Qualified.iff_isIdentifier_or_isDottedName.2 h, .name (by decide)⟩

/-- A decorator that registers a step takes up a line. -/
theorem isDecorator_callText {className : Bytes} {pairs : List (Bytes × Bytes)}
    (hc : isIdentifier className = true ∨ isDottedName className = true)
    (h : ∀ pair ∈ pairs, IsEntry pair) :
    ∃ lexemes, IsDecorator (callText (mark className) pairs) lexemes := by
  have hn := isIdentifier_fields hc
  have hi : ∀ name ∈ fields dot (className ++ registration), isIdentifier name = true :=
    List.all_eq_true.1 hn
  obtain ⟨inner, hinner⟩ := exists_inline_inside h
  have hnames := Inline.dotted hn
  have htext : callText (mark className) pairs = [0x40] ++ ((className ++ registration) ++
      ([leftParen] ++ (inside pairs ++ [rightParen]))) := by
    simp [callText, mark]
  -- The lexemes behind the mark: those of the name, and the arguments between parentheses.
  refine ⟨nameLexemes (fields dot (className ++ registration)) ++
    (⟨.token .leftParen, [leftParen]⟩ ::
    (inner ++ [⟨.token .rightParen, [rightParen]⟩])), ⟨fun rest hr => ?_, ?_, ?_⟩, ?_⟩
  · have hdotted := @lexes_dotted (fields dot (className ++ registration))
      ([leftParen] ++ (inside pairs ++ [rightParen]) ++ rest) (fields_ne_nil _ _) hi (by rfl)
    rw [joinWith_fields] at hdotted
    have hhead : ((className ++ registration) ++ ([leftParen] ++ (inside pairs ++ [rightParen])) ++
        rest).head? ≠ some equals := by
      have hpath := IsArgument.dotted hn
      rw [List.append_assoc, List.head?_append_of_ne_nil _ hpath.isTrimmed.ne_nil]
      exact hpath.head?_ne
    rw [htext]
    refine Lexes.append (lexes_at hhead) (hdotted.append ?_)
    refine Lexes.append (.mark (by rfl) fun he => absurd he (by decide)) ?_
    refine Lexes.append (hinner.lexes _ (.cons (by decide) _)) ?_
    exact .mark (by rfl) fun he => absurd he (by decide)
  · simp only [List.forall_mem_cons, List.forall_mem_append]
    exact ⟨.token _, hnames.isInline, .token _, hinner.isInline, .token _, List.forall_mem_nil _⟩
  · rw [turnsOf_cons, turnsOf_append, turnsOf_cons, turnsOf_append]
    show Turn.through 0 (turnsOf (nameLexemes _) ++ (.opening :: (turnsOf inner ++ [.closing]))) = _
    rw [Turn.through_append, hnames.balanced]
    show Turn.through 1 (turnsOf inner ++ [.closing]) = some 0
    rw [Turn.through_append, Turn.through_add hinner.balanced 1]
    rfl
  · refine ⟨?_, ?_, ?_⟩
    · rw [htext]
      exact List.cons_ne_nil _ _
    · intro b hb
      rw [htext] at hb
      cases hb
      rfl
    · intro b hb
      rw [callText, ← List.cons_append, ← List.append_assoc, List.getLast?_concat] at hb
      cases hb
      rfl

end UpgradeStep

/-- A step that a decorator registers is read with all that it is given, and with
nothing reported. -/
theorem StepList.ofModule_decorated {className function : Bytes} {given : UpgradeStep.Given}
    {details : List UpgradeStep.Detail}
    (hc : isIdentifier className = true ∨ isDottedName className = true)
    (hf : isIdentifier function = true) (hk : TokenKind.ofWord function = .identifier)
    (hd : details.Perm given.details) (module : Bytes) :
    StepList.ofModule (UpgradeStep.decorated className function details) className module =
      ⟨[given.step module function], []⟩ := by
  have hentries : ∀ pair ∈ details.map UpgradeStep.Detail.pair, IsEntry pair := by
    intro pair hm
    obtain ⟨detail, -, rfl⟩ := List.mem_map.1 hm
    exact detail.isEntry_pair
  have hp : Signature.Written.IsProper ⟨function, [], none⟩ := ⟨hf, nofun, nofun⟩
  obtain ⟨lexemes, hdecorator⟩ := UpgradeStep.isDecorator_callText hc hentries
  obtain ⟨calls, definition, decorator, start, hscript, htext, hstart, hkind, hname, hdecorators,
    hparameters, hreturns, hmembers⟩ := Signature.Written.script_below hdecorator hp hk
  generalize hsource : UpgradeStep.decorated className function details = source
  rw [UpgradeStep.decorated_eq] at hsource
  rw [hsource] at hscript
  -- The signature is that of a function without parameters.
  have hsignature : Signature.ofFunction source definition = ⟨[], none⟩ := by
    have hfront : source = (callText (UpgradeStep.mark className)
        (details.map UpgradeStep.Detail.pair) ++ [lineFeed]) ++
          (Signature.Written.header ⟨function, [], none⟩ ++
            (lineFeed :: (ascii "    pass" ++ [lineFeed]))) := by
      rw [← hsource, Signature.Written.below, Signature.Written.source, List.append_assoc]
      rfl
    rw [Signature.Written.ofFunction_written hp List.nodup_nil hfront
      (by rw [hstart, List.length_append, List.length_singleton]) hparameters, hreturns]
    rfl
  have hdraft : UpgradeStep.ofDecorator? source module className definition decorator =
      some ⟨given.step module function, []⟩ := by
    have hrange : ∀ detail ∈ details, detail.InRange :=
      fun detail hm => UpgradeStep.Given.inRange (hd.subset hm)
    unfold UpgradeStep.ofDecorator?
    rw [htext, UpgradeStep.argumentsOf?_callText hentries, Option.map_some, hname, hsignature,
      UpgradeStep.ofArguments_inside hentries, List.foldl_map, UpgradeStep.Detail.foldl_set hrange,
      UpgradeStep.Given.foldl_perm hd, ← given.foldl_details module function]
    dsimp only
    rw [UpgradeStep.Detail.function_foldl]
    rfl
  have hdecorated : Definition.decoratedIn [definition] = [definition] := by
    obtain ⟨kind, name, decorators, parameters, returns, body, extent, span, inner, members⟩ :=
      definition
    obtain rfl : kind = .function := hkind
    obtain rfl : decorators = [decorator] := hdecorators
    obtain rfl : members = [] := hmembers
    rfl
  unfold StepList.ofModule Script.firstFault?
  rw [hscript]
  dsimp only
  rw [hdecorated, List.flatMap_singleton, hdecorators, List.filterMap_cons_some hdraft]
  rfl

/-- What a decorator says about a step is read back, in whatever order it stands there. A priority
counts exactly if it is a number that a signed word of 64 bits holds, and else is reported. -/
theorem StepList.decorated_roundTrip :
    (∀ (className function module : Bytes) (given : UpgradeStep.Given)
        (details : List UpgradeStep.Detail),
      isIdentifier className = true ∨ isDottedName className = true →
      isIdentifier function = true → TokenKind.ofWord function = .identifier →
      details.Perm given.details →
      StepList.ofModule (UpgradeStep.decorated className function details) className module =
        ⟨[given.step module function], []⟩) ∧
    ∀ (function text : Bytes), trim text = text →
      (∀ b ∈ text, b ∉ [doubleQuote, singleQuote, comma, hash, equals]) →
      let draft := UpgradeStep.ofArguments function (ascii "priority=" ++ text)
      let plain := UpgradeStep.plain function
      (∀ n, draft = ⟨{ plain with priority := n }, []⟩ ↔ UpgradeStep.Denotes text n) ∧
        ((∀ n, ¬UpgradeStep.Denotes text n) →
          draft = ⟨plain, [.invalidPriority text function 100]⟩) := by
  refine ⟨fun className function module given details hc hf hk hd =>
    ofModule_decorated hc hf hk hd module, fun function text ht hb => ?_⟩
  intro draft plain
  have hread : draft = UpgradeStep.Draft.set ⟨plain, []⟩ (ascii "priority") text :=
    UpgradeStep.ofArguments_priority function ht hb
  cases hp : UpgradeStep.priorityOf? text with
  | none =>
    rw [UpgradeStep.Draft.set_priority_none hp] at hread
    have hnot : ∀ n, ¬UpgradeStep.Denotes text n := by
      intro n hn
      rw [UpgradeStep.priorityOf?_eq_some hn] at hp
      cases hp
    refine ⟨fun n => ⟨fun he => ?_, fun hn => absurd hn (hnot n)⟩, fun _ => hread⟩
    rw [hread] at he
    cases he
  | some m =>
    rw [UpgradeStep.Draft.set_priority_some hp] at hread
    refine ⟨fun n => ⟨fun he => ?_, fun hn => ?_⟩, fun hnot => ?_⟩
    · rw [hread] at he
      cases he
      exact UpgradeStep.denotes_of_priorityOf? hp
    · rw [UpgradeStep.priorityOf?_eq_some hn] at hp
      cases hp
      exact hread
    · exact absurd (UpgradeStep.denotes_of_priorityOf? hp) (hnot m)

/-- The least priority, and versions with quotes, escapes and what parts arguments elsewhere. -/
def UpgradeStep.Given.sample : UpgradeStep.Given where
  target := some ⟨doubleQuote, ascii "2, #=(\"\n\t'", rfl⟩
  kind := some .system
  priority := some (-2 ^ 63)
  minVersion := some ⟨singleQuote, ascii "it's \"1\"\\", rfl⟩
  maxVersion := none
  priority_range := by decide

theorem StepList.decorated_roundTrip_sample :
    let given := UpgradeStep.Given.sample
    let className := ascii "app.class.Base"
    let function := ascii "upgrade"
    let plain := UpgradeStep.plain function
    let least := ascii "-9223372036854775808"
    let beyond := ascii "9223372036854775808"
    StepList.ofModule (UpgradeStep.decorated className function given.details.reverse) className
        (ascii "app.steps") = ⟨[given.step (ascii "app.steps") function], []⟩ ∧
      UpgradeStep.ofArguments function (ascii "priority=" ++ least) =
        ⟨{ plain with priority := -2 ^ 63 }, []⟩ ∧
      UpgradeStep.ofArguments function (ascii "priority=" ++ beyond) =
        ⟨plain, [.invalidPriority beyond function 100]⟩ := by
  intro given className function plain least beyond
  have hleast : UpgradeStep.Denotes least (-2 ^ 63) :=
    ⟨beyond, by decide, by decide +kernel, .inr ⟨rfl, by decide +kernel⟩, by decide, by decide⟩
  have hbeyond : ∀ n, ¬UpgradeStep.Denotes beyond n := by
    intro n hn
    have hnone : UpgradeStep.priorityOf? beyond = none := by decide +kernel
    rw [UpgradeStep.priorityOf?_eq_some hn] at hnone
    cases hnone
  refine ⟨?_, ?_, ?_⟩
  · exact decorated_roundTrip.1 className function _ given _ (.inr (by decide +kernel)) (by decide)
      (by decide) (List.reverse_perm _)
  · exact ((decorated_roundTrip.2 function least (by decide +kernel) (by decide +kernel)).1 _).2
      hleast
  · exact (decorated_roundTrip.2 function beyond (by decide +kernel) (by decide +kernel)).2 hbeyond

end ManifestScan
