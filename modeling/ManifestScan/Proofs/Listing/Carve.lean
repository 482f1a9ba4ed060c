import ManifestScan.Proofs.Listing.Tokens
import ManifestScan.Proofs.Text.Call

namespace ManifestScan

open Lexeme Registration

theorem isGapByte_cases : ∀ b, isGapByte b = true →
    isLetter b = false ∧ isInert b = true ∧ Place.startsName (some b) = true := by
  decide +kernel

theorem callees_inert : ∀ callee ∈ PluginKind.callees,
    callee ≠ [] ∧ callee.all isInert = true := by
  decide +kernel

/-- The pieces of a gap, which hold no registration. -/
theorem carve_gap {gap : Bytes} (hg : gap.all isGapByte = true) {body : Bytes}
    {base stop resume offset : Nat} (hs : offset + gap.length ≤ stop) (previous : Option UInt8)
    (rest : Bytes) :
    carve body base stop resume (Place.ofPieces previous offset (gap ++ rest)
        (codePieces (gap ++ rest))) =
      carve body base stop resume (Place.ofPieces (Place.behind previous gap) (offset + gap.length)
        rest (codePieces rest)) := by
  have hb : ∀ b ∈ gap, isGapByte b = true := List.all_eq_true.1 hg
  rw [codePieces_inert fun b hm => (isGapByte_cases b (hb b hm)).2.1,
    Place.ofPieces_append (Piece.Cover.bytes gap), carve_append]
  intro place hm
  have ho := Place.offset_ofPieces place hm
  rw [(Piece.Cover.bytes gap).text_eq] at ho
  obtain ⟨b, hmem, hr⟩ := Place.head?_ofPieces_bytes _ _ _ place hm
  exact ⟨by omega, .inr (constructorAt?_none (isGapByte_cases b (hb b hmem)).1 hr)⟩

theorem startsName_behind_gap {gap : Bytes} (hg : gap.all isGapByte = true)
    {previous : Option UInt8} (hp : Place.startsName previous = true) :
    Place.startsName (Place.behind previous gap) = true := by
  unfold Place.behind
  cases hl : gap.getLast? with
  | none => exact hp
  | some b =>
    exact (isGapByte_cases b (List.all_eq_true.1 hg b (List.mem_of_getLast? hl))).2.2

namespace Entry

variable {entry : Entry} {rest : Bytes} {inner : List Lexeme}

theorem codePieces_paren {b : UInt8} (hb : b = leftParen ∨ b = rightParen) (rest : Bytes) :
    codePieces (b :: rest) = .byte b :: codePieces rest := by
  obtain rfl | rfl := hb <;> exact Piece.cut_byte rfl rfl rest

/-- The parenthesis of a call is closed by the one at its end. -/
theorem matching?_call (hl : Lexes (rightParen :: rest) entry.arguments inner)
    (ht : Turn.through 0 (turnsOf inner) = some 0) {body others : Bytes} {offset : Nat}
    (h : body.drop offset = leftParen :: (entry.arguments ++ rightParen :: others)) :
    matching? body offset = some (offset + 1 + entry.arguments.length) := by
  obtain ⟨found, hf, hc⟩ := hl.pieces
  have hclose : isClosing rightParen = true := by decide
  rw [matching?_opened h (by decide), hf (rightParen :: others) rfl, Bracket.closing?_through hc ht,
    codePieces_paren (.inr rfl)]
  exact if_pos ⟨hclose, rfl⟩

/-- The pieces of a call begin with a byte of its callee and end with its parenthesis. -/
theorem pieces_call (hf : entry.Fits) (hl : Lexes (rightParen :: rest) entry.arguments inner) :
    ∃ b inside turns,
      (∀ others, codePieces (entry.call ++ others) = .byte b :: inside ++ codePieces others) ∧
      Piece.Cover (.byte b :: inside) entry.call turns := by
  obtain ⟨found, hfound, hc⟩ := hl.pieces
  obtain ⟨hn, hi⟩ := callees_inert _ hf.1
  have hinert : Inert entry.callee := List.all_eq_true.1 hi
  have hpieces : ∀ others, codePieces (entry.call ++ others) = entry.callee.map .byte ++
      ([leftParen].map .byte ++ (found ++ [rightParen].map .byte)) ++ codePieces others := by
    intro others
    unfold call
    rw [List.append_assoc, codePieces_inert hinert, List.cons_append, codePieces_paren (.inl rfl),
      List.append_assoc, List.singleton_append, hfound (rightParen :: others) rfl,
      codePieces_paren (.inr rfl)]
    simp
  have hcover := (Piece.Cover.bytes entry.callee).append ((Piece.Cover.bytes [leftParen]).append
    (hc.append (Piece.Cover.bytes [rightParen])))
  unfold call at hpieces ⊢
  cases hcallee : entry.callee with
  | nil => exact absurd hcallee hn
  | cons b callee =>
    rw [hcallee] at hpieces hcover
    exact ⟨b, _, _, hpieces, hcover⟩

theorem behind_call (entry : Entry) (previous : Option UInt8) :
    Place.behind previous entry.call = some rightParen := by
  have : entry.call.getLast? = some rightParen := by
    unfold call
    rw [← List.cons_append, ← List.append_assoc, List.getLast?_concat]
  rw [Place.behind, this]
  rfl

theorem length_call (entry : Entry) :
    entry.call.length = entry.callee.length + 1 + entry.arguments.length + 1 := by
  simp only [call, List.length_append, List.length_cons, List.length_nil]
  omega

/-- A call is carved as a whole. -/
theorem carve_call (hf : entry.Fits) (hl : Lexes (rightParen :: rest) entry.arguments inner)
    (ht : Turn.through 0 (turnsOf inner) = some 0) {body others : Bytes} {previous : Option UInt8}
    (hp : Place.startsName previous = true) {base stop resume offset : Nat}
    (hb : body.drop offset = entry.call ++ others) (hr : resume ≤ offset)
    (hs : offset + entry.call.length ≤ stop) :
    carve body base stop resume
        (Place.ofPieces previous offset (entry.call ++ others)
          (codePieces (entry.call ++ others))) =
      (carve body base stop (offset + entry.call.length)
        (Place.ofPieces (some rightParen) (offset + entry.call.length) others
          (codePieces others))).map (⟨entry.callee, base + offset, entry.call⟩ :: ·) := by
  obtain ⟨b, inside, turns, hfound, hcover⟩ := pieces_call hf hl
  rw [hfound, Place.ofPieces_append hcover, behind_call]
  have hoffsets := @Place.offset_ofPieces (.byte b :: inside) previous offset (entry.call ++ others)
  rw [hcover.text_eq] at hoffsets
  rw [Place.ofPieces] at hoffsets ⊢
  have hlen := entry.length_call
  -- The first place of the call is where its callee starts.
  have hplace : constructorAt? ⟨previous, offset, entry.call ++ others⟩ =
      some (entry.callee, offset + entry.callee.length) := by
    rw [call, List.append_assoc, List.cons_append]
    exact constructorAt?_call hf.1 hp offset _
  have hdrop : body.drop (offset + entry.callee.length) =
      leftParen :: (entry.arguments ++ rightParen :: others) := by
    rw [← List.drop_drop, hb, call, List.append_assoc, List.drop_left]
    simp
  have hclose := matching?_call hl ht hdrop
  have hle : offset + entry.callee.length + 1 + entry.arguments.length ≤ stop := by omega
  have hstop : offset + entry.callee.length + 1 + entry.arguments.length + 1 =
      offset + entry.call.length := by omega
  have hslice : slice body offset (offset + entry.call.length) = entry.call := by
    rw [slice, hb, Nat.add_sub_cancel_left, List.take_left]
  rw [List.cons_append, carve, if_neg (by dsimp only; omega), if_neg (by dsimp only; omega), hplace]
  dsimp only
  rw [hclose, Option.filter_some, if_pos (by simpa using hle)]
  dsimp only
  rw [hstop, hslice, carve_append]
  -- The places further on in the call lie before the resumption.
  intro place hm
  have := hoffsets place (List.mem_cons_of_mem _ hm)
  exact ⟨by omega, .inl this.2⟩

/-- The calls of a list are carved one by one. -/
theorem carve_entries {entries : List Entry} (hf : ∀ entry ∈ entries, entry.Fits) {last : Bytes}
    (hl : Lexed last entries) {gap body others : Bytes} (hg : gap.all isGapByte = true)
    {base stop : Nat}
    {resume offset : Nat} (hr : resume ≤ offset)
    (hb : body.drop offset = entries.flatMap text ++ (gap ++ (0x5D : UInt8) :: others))
    (hs : stop = offset + (entries.flatMap text).length + gap.length)
    {previous : Option UInt8} (hp : Place.startsName previous = true) :
    carve body base stop resume
        (Place.ofPieces previous offset (entries.flatMap text ++ (gap ++ 0x5D :: others))
          (codePieces (entries.flatMap text ++ (gap ++ 0x5D :: others)))) =
      .ok (registrations (base + offset) entries) := by
  induction entries generalizing offset resume previous with
  | nil =>
    rw [List.flatMap_nil, List.nil_append, carve_gap hg (by simp at hs; omega),
      Piece.cut_byte (by decide) (by decide), Place.ofPieces]
    exact carve_stop (by simp at hs; simp; omega) _
  | cons entry entries ih =>
    obtain ⟨⟨inner, hi, ht⟩, hl⟩ := hl
    have he := hf entry (by simp)
    have htext : (entry :: entries).flatMap text ++ (gap ++ (0x5D : UInt8) :: others) =
        entry.gap ++ (entry.call ++ (entries.flatMap text ++ (gap ++ 0x5D :: others))) := by
      rw [List.flatMap_cons, text]
      simp only [List.append_assoc]
    have hlen : ((entry :: entries).flatMap text).length =
        entry.gap.length + entry.call.length + (entries.flatMap text).length := by
      rw [List.flatMap_cons, text, List.length_append, List.length_append]
    have hcall : body.drop (offset + entry.gap.length) =
        entry.call ++ (entries.flatMap text ++ (gap ++ 0x5D :: others)) := by
      rw [← List.drop_drop, hb, htext, List.drop_left]
    have hrest : body.drop (offset + entry.gap.length + entry.call.length) =
        entries.flatMap text ++ (gap ++ 0x5D :: others) := by
      rw [← List.drop_drop, hcall, List.drop_left]
    rw [htext, carve_gap he.2 (by omega), carve_call he hi ht (startsName_behind_gap he.2 hp) hcall
      (by omega) (by omega), ih (fun other ho => hf other (by simp [ho])) hl (by omega) hrest
      (by omega) (by decide), registrations, text, List.length_append]
    simp only [Except.map, Nat.add_assoc]

end Entry

end ManifestScan
