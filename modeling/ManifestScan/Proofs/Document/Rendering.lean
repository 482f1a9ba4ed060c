import ManifestScan.Proofs.Document.Scalar

namespace ManifestScan

namespace Document

theorem isGap_mark (b : UInt8) (hb : (Mark.ofByte? b).isSome) : isGap b = false := by
  grind [isGap, Mark.ofByte?]

theorem run_mark {text : Bytes} {b : UInt8} {mark : Mark} {state next : State} (ht : text = [b])
    (hm : Mark.ofByte? b = some mark) (hs : step state (.mark mark) = some next) (rest : Bytes) :
    run state (text ++ rest) = run next rest := by
  rw [ht, List.singleton_append, run_token (isGap_mark b (by simp [hm])), token?, hm]
  dsimp only [Option.bind]
  rw [hs]

section

variable (frames : List Frame) (rest : Bytes)

theorem run_openArray :
    run (.value frames) (ascii "[" ++ rest) = run (.value (.array [] :: frames)) rest :=
  run_mark (show ascii "[" = [0x5B] by decide) rfl rfl rest

theorem run_closeEmptyArray :
    run (.value (.array [] :: frames)) (ascii "]" ++ rest) = run (finish (.array []) frames) rest :=
  run_mark (show ascii "]" = [0x5D] by decide) rfl rfl rest

theorem run_nextElement (elements : List Document) :
    run (.elements elements frames) (ascii "," ++ rest) =
      run (.value (.array elements :: frames)) rest :=
  run_mark (show ascii "," = [0x2C] by decide) rfl rfl rest

theorem run_closeArray (elements : List Document) :
    run (.elements elements frames) (ascii "]" ++ rest) =
      run (finish (.array elements) frames) rest :=
  run_mark (show ascii "]" = [0x5D] by decide) rfl rfl rest

theorem run_openObject :
    run (.value frames) (ascii "\x7b" ++ rest) = run (.key [] frames) rest :=
  run_mark (show ascii "\x7b" = [0x7B] by decide) rfl rfl rest

theorem run_closeEmptyObject :
    run (.key [] frames) (ascii "\x7d" ++ rest) = run (finish (.object []) frames) rest :=
  run_mark (show ascii "\x7d" = [0x7D] by decide) rfl rfl rest

theorem run_colon (members : List (Bytes × Document)) (key : Bytes) :
    run (.colon members key frames) (ascii ": " ++ rest) =
      run (.value (.object members key :: frames)) rest := by
  have hc : ascii ": " ++ rest = [0x3A] ++ space :: rest := by
    rw [show ascii ": " = [0x3A, space] by decide]
    rfl
  rw [hc, run_mark rfl rfl rfl, run_gap (by decide)]

theorem run_nextMember (members : List (Bytes × Document)) :
    run (.members members frames) (ascii "," ++ rest) = run (.key members frames) rest :=
  run_mark (show ascii "," = [0x2C] by decide) rfl rfl rest

theorem run_closeObject (members : List (Bytes × Document)) :
    run (.members members frames) (ascii "\x7d" ++ rest) =
      run (finish (.object members) frames) rest :=
  run_mark (show ascii "\x7d" = [0x7D] by decide) rfl rfl rest

end

theorem run_text {body rest : Bytes} {parts : List Part} (hp : parts? body = some (parts, rest))
    (state : State) :
    run state (doubleQuote :: body) =
      (step state (.text (bytesOf parts))).bind fun state => run state rest := by
  rw [run_token (by decide), token?, hp]
  rfl

theorem run_newLine (state : State) (depth : Nat) (rest : Bytes) :
    run state (Json.newLine depth ++ rest) = run state rest := by
  rw [Json.newLine, List.cons_append, run_gap (by decide)]
  induction 2 * depth with
  | zero => rfl
  | succ n ih => rw [List.replicate_succ, List.cons_append, run_gap (by decide), ih]

/-- A key is always read back. -/
theorem run_key (state : State) (key rest : Bytes) :
    run state (Escape.quote key ++ rest) =
      (step state (.text key)).bind fun state => run state rest := by
  obtain ⟨parts, hp, hk⟩ := parts?_ofText key rest
  have hs : Escape.quote key ++ rest =
      doubleQuote :: (Escape.ofText key ++ doubleQuote :: rest) := by
    simp [Escape.quote]
  rw [hs, run_text hp, hk]

theorem run_quote (state : State) (text rest : Bytes) :
    run state (Json.quote text ++ rest) =
      if isPlain text then (step state (.text text)).bind fun state => run state rest
      else none := by
  have hs : Json.quote text ++ rest =
      doubleQuote :: (text.flatMap Json.guard ++ doubleQuote :: rest) := by
    simp [Json.quote]
  have hp := parts?_guard text rest
  rw [hs]
  split
  · rename_i ht
    rw [if_pos ht] at hp
    rw [run_text hp, bytesOf_bytes]
  · rename_i ht
    rw [if_neg ht] at hp
    rw [run_token (by decide), token?, hp]
    rfl

theorem run_bare {word rest : Bytes} {value : Document} (hv : bareValue? word = some value)
    (hw : word.all (!isDelimiter ·) = true) (hr : endsWord rest = true) (state : State) :
    run state (word ++ rest) = (step state (.bare value)).bind fun state => run state rest := by
  cases word with
  | nil => cases hv
  | cons b word =>
    rw [List.all_cons, Bool.and_eq_true] at hw
    have hd : isDelimiter b = false := by simpa using hw.1
    simp only [isDelimiter, Bool.or_eq_false_iff] at hd
    obtain ⟨⟨hg, hm⟩, hq⟩ := hd
    have ht : word.takeWhile (!isDelimiter ·) = word :=
      List.takeWhile_eq_self_iff.2 (List.all_eq_true.1 hw.2)
    have hn : word.dropWhile (!isDelimiter ·) = [] :=
      List.dropWhile_eq_nil_iff.2 (List.all_eq_true.1 hw.2)
    -- The first byte is no delimiter, so no mark, no gap and no quote.
    rw [Option.isSome_eq_false_iff, Option.isNone_iff_eq_none] at hm
    rw [List.cons_append, run_token hg, token?, hm]
    dsimp only
    rw [if_neg (by simpa using hq), takeWhile_append_of_endsWord word hr,
      dropWhile_append_of_endsWord word hr, ht, hn, hv]
    rfl

end Document

namespace Json

mutual

/-- What the text of a value says, unless it cannot be read. -/
def meaning? : Json → Option Document
  | .null => some .null
  | .boolean value => some (.boolean value)
  | .number value => some (.number value)
  | .string text => if isPlain text then some (.string text) else none
  | .verbatim text => Document.read? text
  | .array elements => (elementsMeaning? elements).map .array
  | .object members => (membersMeaning? members).map .object

def elementsMeaning? : List Json → Option (List Document)
  | [] => some []
  | element :: others =>
    (meaning? element).bind fun value => (elementsMeaning? others).map (value :: ·)

def memberMeaning? : Bytes × Json → Option (Bytes × Document)
  | (key, value) => (meaning? value).map (key, ·)

def membersMeaning? : List (Bytes × Json) → Option (List (Bytes × Document))
  | [] => some []
  | member :: others =>
    (memberMeaning? member).bind fun entry => (membersMeaning? others).map (entry :: ·)

end

mutual

def verbatims : Json → List Bytes
  | .verbatim text => [text]
  | .array elements => elementsVerbatims elements
  | .object members => membersVerbatims members
  | _ => []

def elementsVerbatims : List Json → List Bytes
  | [] => []
  | element :: others => verbatims element ++ elementsVerbatims others

def memberVerbatims : Bytes × Json → List Bytes
  | (_, value) => verbatims value

def membersVerbatims : List (Bytes × Json) → List Bytes
  | [] => []
  | member :: others => memberVerbatims member ++ membersVerbatims others

end

open Document

theorem endsWord_renderElements (depth : Nat) (elements : List Json) (rest : Bytes) :
    endsWord (renderElements depth elements ++ (newLine depth ++ rest)) = true := by
  cases elements with
  | nil => rfl
  | cons => simp only [renderElements]; rfl

theorem endsWord_renderMembers (depth : Nat) (members : List (Bytes × Json)) (rest : Bytes) :
    endsWord (renderMembers depth members ++ (newLine depth ++ rest)) = true := by
  cases members with
  | nil => rfl
  | cons => simp only [renderMembers]; rfl

mutual

/-- A rendered value is read as one value, whatever stands around it. -/
theorem run_render (depth : Nat) (frames : List Frame) (rest : Bytes) (value : Json)
    (hv : ∀ text ∈ value.verbatims, (read? text).isSome) (hr : endsWord rest = true) :
    run (.value frames) (value.render depth ++ rest) =
      value.meaning?.bind fun document => run (finish document frames) rest := by
  match value with
  | .null =>
    rw [render]
    exact run_bare (by rfl) (by decide) hr _
  | .boolean true =>
    rw [render]
    exact run_bare (by rfl) (by decide) hr _
  | .boolean false =>
    rw [render]
    exact run_bare (by rfl) (by decide) hr _
  | .number n => exact run_bare (bareValue?_signedDecimal n) (all_signedDecimal n) hr _
  | .string text =>
    rw [render, run_quote, meaning?]
    split <;> rfl
  | .verbatim text =>
    obtain ⟨document, hd⟩ := Option.isSome_iff_exists.1 (hv text (by simp [verbatims]))
    rw [render, meaning?, hd]
    exact run_within hd frames hr
  | .array [] =>
    rw [render]
    exact (run_openArray frames (ascii "]" ++ rest)).trans (run_closeEmptyArray frames rest)
  | .array (element :: others) =>
    simp only [verbatims, elementsVerbatims, List.mem_append] at hv
    simp only [render, List.append_assoc]
    rw [run_openArray, run_newLine, run_render (depth + 1) _ _ element
      (fun text ht => hv text (.inl ht)) (endsWord_renderElements _ _ _)]
    simp only [meaning?, elementsMeaning?]
    cases element.meaning? with
    | none => rfl
    | some document =>
      -- The first element is read, and the others go on behind it.
      have ho := run_renderElements depth [document] frames rest others
        (fun text ht => hv text (.inr ht))
      rw [List.append_assoc] at ho
      exact ho.trans (by simp [Option.bind_map, Function.comp_def])
  | .object [] =>
    rw [render]
    exact (run_openObject frames (ascii "\x7d" ++ rest)).trans (run_closeEmptyObject frames rest)
  | .object (member :: others) =>
    simp only [verbatims, membersVerbatims, List.mem_append] at hv
    simp only [render, List.append_assoc]
    rw [run_openObject, run_newLine, run_renderMember (depth + 1) _ _ _ member
      (fun text ht => hv text (.inl ht)) (endsWord_renderMembers _ _ _)]
    simp only [meaning?, membersMeaning?]
    cases memberMeaning? member with
    | none => rfl
    | some entry =>
      have ho := run_renderMembers depth [entry] frames rest others
        (fun text ht => hv text (.inr ht))
      rw [List.append_assoc] at ho
      exact ho.trans (by simp [Option.bind_map, Function.comp_def])

theorem run_renderElements (depth : Nat) (before : List Document) (frames : List Frame)
    (rest : Bytes) (elements : List Json)
    (hv : ∀ text ∈ elementsVerbatims elements, (read? text).isSome) :
    run (.elements before frames)
        (renderElements depth elements ++ (newLine depth ++ ascii "]" ++ rest)) =
      (elementsMeaning? elements).bind fun found =>
        run (finish (.array (before ++ found)) frames) rest := by
  match elements with
  | [] =>
    rw [renderElements, List.nil_append, List.append_assoc, run_newLine, run_closeArray]
    simp [elementsMeaning?]
  | element :: others =>
    simp only [elementsVerbatims, List.mem_append] at hv
    simp only [renderElements, List.append_assoc]
    rw [run_nextElement, run_newLine, run_render (depth + 1) _ _ element
      (fun text ht => hv text (.inl ht)) (endsWord_renderElements _ _ _)]
    simp only [elementsMeaning?]
    cases element.meaning? with
    | none => rfl
    | some document =>
      have ho := run_renderElements depth (before ++ [document]) frames rest others
        (fun text ht => hv text (.inr ht))
      rw [List.append_assoc] at ho
      exact ho.trans (by simp [Option.bind_map])

theorem run_renderMember (depth : Nat) (before : List (Bytes × Document)) (frames : List Frame)
    (rest : Bytes) (member : Bytes × Json)
    (hv : ∀ text ∈ memberVerbatims member, (read? text).isSome) (hr : endsWord rest = true) :
    run (.key before frames) (renderMember depth member ++ rest) =
      (memberMeaning? member).bind fun entry => run (.members (before ++ [entry]) frames) rest := by
  match member with
  | (key, value) =>
    simp only [renderMember, List.append_assoc]
    rw [run_key]
    simp only [step, Option.bind_some]
    rw [run_colon, run_render depth _ _ value (by simpa [memberVerbatims] using hv) hr,
      memberMeaning?, Option.bind_map]
    rfl

theorem run_renderMembers (depth : Nat) (before : List (Bytes × Document)) (frames : List Frame)
    (rest : Bytes) (members : List (Bytes × Json))
    (hv : ∀ text ∈ membersVerbatims members, (read? text).isSome) :
    run (.members before frames)
        (renderMembers depth members ++ (newLine depth ++ ascii "\x7d" ++ rest)) =
      (membersMeaning? members).bind fun found =>
        run (finish (.object (before ++ found)) frames) rest := by
  match members with
  | [] =>
    rw [renderMembers, List.nil_append, List.append_assoc, run_newLine, run_closeObject]
    simp [membersMeaning?]
  | member :: others =>
    simp only [membersVerbatims, List.mem_append] at hv
    simp only [renderMembers, List.append_assoc]
    rw [run_nextMember, run_newLine, run_renderMember (depth + 1) _ _ _ member
      (fun text ht => hv text (.inl ht)) (endsWord_renderMembers _ _ _)]
    simp only [membersMeaning?]
    cases memberMeaning? member with
    | none => rfl
    | some entry =>
      have ho := run_renderMembers depth (before ++ [entry]) frames rest others
        (fun text ht => hv text (.inr ht))
      rw [List.append_assoc] at ho
      exact ho.trans (by simp [Option.bind_map])

end

/-- A whole document says what its value says. -/
theorem read?_document {value : Json} (hv : ∀ text ∈ value.verbatims, (read? text).isSome) :
    read? value.document = value.meaning? := by
  have hr : endsWord [lineFeed] = true := by decide
  rw [read?, document, run_render 0 [] _ value hv hr]
  cases value.meaning? with
  | none => rfl
  | some document => simp [finish, run, isGap]

end Json

end ManifestScan
