import ManifestScan.Proofs.Listing.Body
import ManifestScan.Proofs.Listing.Carve
import ManifestScan.Proofs.Listing.Tree

namespace ManifestScan

namespace Listing

open Registration Lexeme

variable {listing : Listing} {front : List Token}

/-- A list starts with its keyword. -/
theorem listAt?_none {keyword : Bytes} {place : Place} {b : UInt8}
    (hb : keyword.head?.any (· != b) = true) (hr : place.rest.head? = some b) :
    listAt? keyword place = none := by
  have hw : afterWord? keyword place.rest = none := by
    cases keyword with
    | nil => cases hb
    | cons k keyword =>
      cases hx : place.rest with
      | nil => rfl
      | cons c rest =>
        rw [hx] at hr
        cases hr
        rw [afterWord?, if_neg]
        rintro rfl
        simp at hb
  rw [listAt?, Place.reach?_of_none hw]

/-- A list right behind its keyword. -/
theorem listAt?_self {previous : Option UInt8} (hp : Place.startsName previous = true)
    (keyword : Bytes) (offset : Nat) (rest : Bytes) :
    listAt? keyword ⟨previous, offset, keyword ++ equals :: 0x5B :: rest⟩ =
      some (offset + keyword.length + 1) := by
  have hdrop : (keyword ++ equals :: 0x5B :: rest).drop (keyword.length + 1) = 0x5B :: rest := by
    rw [← List.drop_drop, List.drop_left]
    rfl
  have hgap : ((0x5B : UInt8) :: rest).takeWhile
      (fun b => isSpace b || b == lineFeed || b == carriageReturn) = [] :=
    List.takeWhile_cons_of_neg (by decide)
  have hne : ((0x5B : UInt8) :: rest).head? ≠ some equals := by simp [equals]
  unfold listAt?
  dsimp only
  rw [Place.reach?_self hp keyword (by decide) (by decide)]
  dsimp only
  rw [hdrop, hgap, if_pos ⟨hne, rfl⟩]
  rfl

/-- The bracket behind the keyword of the opening. -/
theorem listStart?_opening (rest : Bytes) :
    listStart? (ascii "plugins") (opening ++ rest) = some 27 := by
  let lead : Bytes := ascii "    return Package("
  have hbytes : ∀ b ∈ lead, Literal.isQuote b = false ∧ (b == hash) = false := by decide +kernel
  have hhead : ∀ b ∈ lead, (ascii "plugins").head?.any (· != b) = true := by decide +kernel
  have hsplit : opening ++ rest = lead ++ (ascii "plugins" ++ equals :: 0x5B :: rest) := by
    have : opening = lead ++ (ascii "plugins" ++ [equals, 0x5B]) := by decide
    rw [this]
    simp
  have hword : ascii "plugins" ++ equals :: 0x5B :: rest =
      0x70 :: ((ascii "plugins").tail ++ equals :: 0x5B :: rest) := by
    have : ascii "plugins" = 0x70 :: (ascii "plugins").tail := by decide
    rw [← List.cons_append, ← this]
  have hlength : 0 + lead.length + (ascii "plugins").length + 1 = 27 := by decide
  have hbehind : Place.startsName (Place.behind none lead) = true := by decide
  have hnone : (Place.ofPieces none 0 (lead ++ (ascii "plugins" ++ equals :: 0x5B :: rest))
      (lead.map .byte)).findSome? (listAt? (ascii "plugins")) = none := by
    rw [List.findSome?_eq_none_iff]
    intro place hm
    obtain ⟨b, hb, hr⟩ := Place.head?_ofPieces_bytes _ _ _ place hm
    exact listAt?_none (hhead b hb) hr
  unfold listStart? codePlaces
  rw [if_pos rfl, List.drop_zero, hsplit, codePieces_bytes hbytes,
    Place.ofPieces_append (Piece.Cover.bytes lead), List.findSome?_append, hnone, Option.none_or]
  have hpieces : codePieces (ascii "plugins" ++ equals :: 0x5B :: rest) =
      .byte 0x70 :: codePieces ((ascii "plugins").tail ++ equals :: 0x5B :: rest) := by
    rw [hword, Piece.cut_byte (by decide) (by decide)]
  rw [hpieces, Place.ofPieces, List.findSome?_cons, listAt?_self hbehind, hlength]

theorem drop_opening (rest : Bytes) :
    (opening ++ rest).drop 27 = 0x5B :: rest ∧ (opening ++ rest).drop 28 = rest ∧
      (opening ++ rest)[27]? = some 0x5B := by
  have hsplit : opening = ascii "    return Package(plugins=" ++ [0x5B] := by decide
  have hlength : (ascii "    return Package(plugins=").length = 27 := by decide
  have hdrop : (opening ++ rest).drop 27 = 0x5B :: rest := by
    rw [hsplit, List.append_assoc, ← hlength, List.drop_left]
    rfl
  refine ⟨hdrop, ?_, ?_⟩
  · rw [← List.drop_drop (i := 1) (j := 27), hdrop]
    rfl
  · rw [← List.head?_drop, hdrop]
    rfl

theorem Proper.closing?_list (h : listing.Proper front) :
    Bracket.closing? 1 28 (codePieces (listing.list ++ ascii "])")) =
      some (28 + listing.list.length) := by
  obtain ⟨items, hl, ht, -⟩ := h.exists_items
  obtain ⟨found, hf, hc⟩ := hl.pieces
  have hclosing : ascii "])" = [0x5D, rightParen] := by decide
  rw [hf (ascii "])") (by rw [hclosing]; rfl), Bracket.closing?_through hc ht, hclosing,
    Piece.cut_byte (by decide) (by decide)]
  exact if_pos ⟨by decide, rfl⟩

/-- The text of a listing has its calls, when its last line has content. -/
theorem Proper.searchText (h : listing.Proper front) (hp : leftParen ∉ listing.preamble)
    (hf : ∀ b, listing.preamble.getLast? = some b → b = lineFeed)
    (hk : ∀ line ∈ (lines listing.body).tail, isIdleLine line = true ∨ 4 ≤ indentation line)
    (hl : ∀ last, (lines listing.body).getLast? = some last → isIdleLine last = false) :
    Convention.searchText ⟨listing.function, ascii "plugins"⟩ listing.source =
      .ok listing.registrations := by
  have hbody : listing.body = opening ++ (listing.list ++ ascii "])") := by
    rw [body, list]
  have hclosing : ascii "])" = 0x5D :: [rightParen] := by decide
  have hlength : opening.length = 28 := by decide
  have hlist : listing.list ++ ascii "])" =
      listing.entries.flatMap Entry.text ++ (listing.lastGap ++ 0x5D :: [rightParen]) := by
    rw [list, hclosing, List.append_assoc]
  obtain ⟨-, hdrop, hget⟩ := drop_opening (listing.list ++ ascii "])")
  rw [hlist] at hdrop
  rw [searchText_body h.function hp hf, slice_block (List.append_nil _).symm hk
    (fields_ne_nil _ _) hl (List.forall_mem_nil _), lines, joinWith_fields, hbody, ofBody,
    listStart?_opening]
  dsimp only
  rw [matching?_opened (drop_opening _).1 (by decide), h.closing?_list]
  dsimp only
  unfold codePlaces
  rw [if_neg (by decide), hget, hlist, hdrop, Entry.carve_entries h.fits h.lexed h.gap
    (Nat.zero_le _) hdrop (by rw [list, List.length_append]; omega) (by decide), ← hlength]
  dsimp only
  rw [Convention.nonempty]
  have hne := registrations_ne h.entries_ne
  unfold registrations at hne ⊢
  rw [hne]
  rfl

/-- Without its last lines the body is the opening and less than the list. -/
theorem exists_cut {kept dropped : List Bytes} (hl : lines listing.body = kept ++ dropped)
    (hn : kept ≠ []) (hd : dropped ≠ []) :
    ∃ text, joinWith [lineFeed] kept = opening ++ text ∧
      text ++ lineFeed :: joinWith [lineFeed] dropped = listing.list ++ ascii "])" ∧
      text.length ≤ listing.list.length := by
  obtain ⟨more, others, hfirst⟩ := lines_body listing
  obtain ⟨text, htext⟩ : ∃ text, joinWith [lineFeed] kept = opening ++ text := by
    cases kept with
    | nil => exact absurd rfl hn
    | cons first kept =>
      rw [hfirst] at hl
      rw [← (List.cons.inj hl).1]
      by_cases hk : kept = []
      · rw [hk]
        exact ⟨more, rfl⟩
      · rw [joinWith_cons _ hk, List.append_assoc]
        exact ⟨_, rfl⟩
  have hbody : text ++ lineFeed :: joinWith [lineFeed] dropped = listing.list ++ ascii "])" := by
    have := joinWith_fields lineFeed listing.body
    unfold lines at hl
    rw [hl, joinWith_append _ hn hd, htext, List.append_assoc, body, ← list] at this
    exact List.append_cancel_left this
  refine ⟨text, htext, hbody, ?_⟩
  -- The line break cannot stand in the closing brackets.
  rcases List.append_eq_append_iff.1 hbody with ⟨t, ht, -⟩ | ⟨t, ht, hr⟩
  · rw [ht, List.length_append]
    exact Nat.le_add_right _ _
  · have hno : lineFeed ∉ ascii "])" := by decide
    refine absurd ?_ hno
    rw [hr]
    simp

/-- The text of a listing has no end of the list, when its last line has no content. -/
theorem Proper.searchText_idle (h : listing.Proper front) (hp : leftParen ∉ listing.preamble)
    (hf : ∀ b, listing.preamble.getLast? = some b → b = lineFeed)
    (hk : ∀ line ∈ (lines listing.body).tail, isIdleLine line = true ∨ 4 ≤ indentation line)
    {last : Bytes} (hl : (lines listing.body).getLast? = some last) (hi : isIdleLine last = true) :
    Convention.searchText ⟨listing.function, ascii "plugins"⟩ listing.source =
      .error (.unclosedList (ascii "plugins") listing.function) := by
  obtain ⟨more, others, hfirst⟩ := lines_body listing
  have hmem : opening ++ more ∈ lines listing.body := by
    rw [hfirst]
    exact List.mem_cons_self ..
  obtain ⟨kept, dropped, hlines, hn, hlast, hd⟩ :=
    exists_content ⟨opening ++ more, hmem, (opening_content more).1⟩
  have hdropped : dropped ≠ [] := by
    rintro rfl
    rw [hlines, List.append_nil] at hl
    rw [hlast last hl] at hi
    cases hi
  obtain ⟨text, htext, hbody, hshort⟩ := exists_cut hlines hn hdropped
  -- What closes the list in the block closes it in the body, which is further on.
  have hnone : Bracket.closing? 1 28 (codePieces text) = none := by
    cases hc : Bracket.closing? 1 28 (codePieces text) with
    | none => rfl
    | some close =>
      have hwhole := closing?_append hc (lineFeed :: joinWith [lineFeed] dropped)
      rw [hbody, h.closing?_list] at hwhole
      have hlt := Bracket.closing?_lt hc
      unfold codePieces at hlt
      rw [Piece.flatMap_text_cut] at hlt
      have := Option.some.inj hwhole
      omega
  rw [searchText_body h.function hp hf, slice_block hlines hk hn hlast hd, htext, ofBody,
    listStart?_opening]
  dsimp only
  rw [matching?_opened (drop_opening _).1 (by decide), hnone]

end Listing

end ManifestScan
