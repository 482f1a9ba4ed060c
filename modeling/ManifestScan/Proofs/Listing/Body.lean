import ManifestScan.Proofs.Listing.Stream
import ManifestScan.Proofs.Text.Call
import ManifestScan.Proofs.Text.Name
import ManifestScan.Proofs.Text.Signature

namespace ManifestScan

namespace Registration

theorem signatureStart?_of_reach {name text : Bytes} {previous : Option UInt8} {reach : Nat}
    (ht : text ≠ []) (h : signatureReach? name previous text = some reach) (offset : Nat) :
    signatureStart? name previous offset text = some (offset + reach) := by
  cases text with
  | nil => exact absurd rfl ht
  | cons b text => rw [signatureStart?, h]

end Registration

/-- Nothing is inside the parentheses. -/
theorem matching?_empty {source rest : Bytes} {start : Nat}
    (h : source.drop start = leftParen :: rightParen :: rest) :
    matching? source start = some (start + 1) := by
  have hclose : isClosing rightParen = true := by decide
  rw [matching?_opened h (by decide), Piece.cut_byte (by decide) (by decide)]
  exact if_pos ⟨hclose, rfl⟩

theorem outerPosition?_self {target : UInt8} (hq : Literal.isQuote target = false) (rest : Bytes) :
    outerPosition? target (target :: rest) = some 0 := by
  unfold outerPosition? pieces
  rw [Piece.cut, if_neg (by simp [hq]), if_neg (by simp)]
  exact if_pos ⟨rfl, rfl⟩

namespace Listing

open Registration Lexeme

variable {listing : Listing}

/-- The first line of the body holds the opening. -/
theorem lines_body (listing : Listing) :
    ∃ more kept, lines listing.body = (opening ++ more) :: kept := by
  have hn : lineFeed ∉ opening := by decide
  obtain ⟨more, kept, -, h⟩ := fields_append_of_not_mem hn
    (listing.entries.flatMap Entry.text ++ listing.lastGap ++ ascii "])")
  exact ⟨more, kept, h⟩

theorem header_append (listing : Listing) (rest : Bytes) :
    listing.header ++ rest =
      ascii "def " ++ (listing.function ++ leftParen :: rightParen :: colon :: rest) := by
  have : ascii "():" = [leftParen, rightParen, colon] := by decide
  rw [header, this]
  simp

theorem length_header (listing : Listing) :
    listing.header.length = 4 + listing.function.length + 3 := by
  have h4 : (ascii "def ").length = 4 := by decide
  have h3 : (ascii "():").length = 3 := by decide
  rw [header, List.length_append, List.length_append, h4, h3]

theorem drop_bodyStart (listing : Listing) :
    listing.source.drop listing.bodyStart = listing.body ++ [lineFeed] := by
  have hs : listing.source = (listing.preamble ++ (listing.header ++ [lineFeed])) ++
      (listing.body ++ [lineFeed]) := by
    rw [source]
    simp
  have hb : listing.bodyStart = (listing.preamble ++ (listing.header ++ [lineFeed])).length := by
    simp [bodyStart, Nat.add_assoc]
  rw [hs, hb, List.drop_left]

/-- The signature ends where the parentheses behind the name start. -/
theorem signatureStart?_source (hf : isIdentifier listing.function = true)
    (hp : leftParen ∉ listing.preamble)
    (hl : ∀ b, listing.preamble.getLast? = some b → b = lineFeed) :
    ∃ point, signatureStart? listing.function none 0 listing.source = some point ∧
      point + 4 = listing.bodyStart ∧
      listing.source.drop point =
        leftParen :: rightParen :: colon :: lineFeed :: (listing.body ++ [lineFeed]) := by
  have hprevious : Place.startsName (Place.behind none listing.preamble) = true := by
    unfold Place.behind
    cases hb : listing.preamble.getLast? with
    | none => rfl
    | some b => rw [hl b hb]; decide
  generalize hrest : listing.body ++ [lineFeed] = rest
  have hsource : listing.source = listing.preamble ++ (ascii "def " ++ (listing.function ++
      leftParen :: rightParen :: colon :: lineFeed :: rest)) := by
    rw [source, header_append, hrest]
  refine ⟨listing.preamble.length + (4 + listing.function.length), ?_, ?_, ?_⟩
  · rw [hsource, signatureStart?_lines (all_isNameByte hf) hp hl, signatureStart?_of_reach (by simp)
      (signatureReach?_self hf hprevious _), Nat.zero_add]
  · rw [bodyStart, length_header]
    omega
  · have h4 : (ascii "def ").length = 4 := by decide
    rw [hsource, ← List.drop_drop, List.drop_left, ← List.drop_drop, ← h4, List.drop_left,
      List.drop_left]

/-- A search looks for the list in the block below the header. -/
theorem searchText_body (hf : isIdentifier listing.function = true)
    (hp : leftParen ∉ listing.preamble)
    (hl : ∀ b, listing.preamble.getLast? = some b → b = lineFeed) (list : Bytes) :
    Convention.searchText ⟨listing.function, list⟩ listing.source =
      ofBody ⟨listing.function, list⟩ listing.bodyStart
        (slice listing.source listing.bodyStart
          (Block.stopOf none listing.bodyStart listing.bodyStart
            (lines (listing.body ++ [lineFeed])))) := by
  obtain ⟨point, hstart, hbody, hdrop⟩ := signatureStart?_source hf hp hl
  have hcolon : listing.source.drop (point + 2) =
      colon :: lineFeed :: (listing.body ++ [lineFeed]) := by
    rw [← List.drop_drop, hdrop]
    rfl
  unfold Convention.searchText
  dsimp only
  rw [hstart]
  dsimp only
  rw [matching?_empty hdrop]
  dsimp only
  rw [hcolon, outerPosition?_self (by decide)]
  dsimp only
  rw [Nat.add_zero, blockBody_below hcolon, Extent.of, ← hbody]

theorem opening_content (more : Bytes) :
    isIdleLine (opening ++ more) = false ∧ indentation (opening ++ more) = 4 := by
  have ho : opening ++ more = indent ++ 0x72 :: (openingWords.tail ++ more) := by
    have : opening = indent ++ 0x72 :: openingWords.tail := by decide
    rw [this, List.append_assoc, List.cons_append]
  have hblank : ∀ c ∈ indent, isBlank c = true := by decide +kernel
  have hspace : ∀ c ∈ indent, isSpace c = true := by decide +kernel
  rw [ho]
  constructor
  · exact isIdleLine_of_content hblank (by decide) (by decide) _
  · unfold indentation
    rw [List.takeWhile_append_of_pos hspace, List.takeWhile_cons_of_neg (by decide),
      List.append_nil]
    decide

/-- The first lines of a text, joined, start the text. -/
theorem joinWith_isPrefix {text : Bytes} {kept dropped : List Bytes} (hn : kept ≠ [])
    (hl : lines text = kept ++ dropped) : joinWith [lineFeed] kept <+: text := by
  have ht := joinWith_fields lineFeed text
  unfold lines at hl
  rw [hl] at ht
  rw [← ht]
  by_cases hd : dropped = []
  · have he : joinWith [lineFeed] kept = joinWith [lineFeed] (kept ++ dropped) := by
      rw [hd, List.append_nil]
    exact he ▸ List.prefix_rfl
  · rw [joinWith_append _ hn hd]
    exact List.prefix_append ..

/-- The block below the header reaches up to its last line with content. -/
theorem slice_block {kept dropped : List Bytes} (hlines : lines listing.body = kept ++ dropped)
    (hk : ∀ line ∈ (lines listing.body).tail, isIdleLine line = true ∨ 4 ≤ indentation line)
    (hn : kept ≠ []) (hl : ∀ last, kept.getLast? = some last → isIdleLine last = false)
    (hd : ∀ line ∈ dropped, isIdleLine line = true) :
    slice listing.source listing.bodyStart
        (Block.stopOf none listing.bodyStart listing.bodyStart
          (lines (listing.body ++ [lineFeed]))) =
      joinWith [lineFeed] kept := by
  obtain ⟨more, others, hfirst⟩ := lines_body listing
  obtain ⟨hcontent, hindent⟩ := opening_content more
  cases kept with
  | nil => exact absurd rfl hn
  | cons first kept =>
    obtain ⟨rfl, rfl⟩ : first = opening ++ more ∧ kept ++ dropped = others := by
      rw [hfirst] at hlines
      exact ⟨(List.cons.inj hlines).1.symm, (List.cons.inj hlines).2.symm⟩
    rw [hfirst, List.tail_cons] at hk
    have hall : lines (listing.body ++ [lineFeed]) =
        ((opening ++ more) :: kept) ++ (dropped ++ [[]]) := by
      unfold lines at hlines ⊢
      rw [fields_append, hlines, List.append_assoc]
      rfl
    have hidle : ∀ line ∈ dropped ++ [[]], isIdleLine line = true := by
      intro line hm
      rcases List.mem_append.1 hm with hm | hm
      · exact hd line hm
      · rw [List.mem_singleton.1 hm]
        rfl
    have hstop := Block.stopOf_block hcontent (by omega)
      (fun line hm => hindent ▸ hk line (List.mem_append_left _ hm)) hl listing.bodyStart
    obtain ⟨rest, hrest⟩ := joinWith_isPrefix (by simp) hlines
    rw [hall, Block.stopOf_append_idle hidle, hstop, slice, drop_bodyStart,
      Nat.add_sub_cancel_left, ← hrest, List.append_assoc, List.take_left]

theorem exists_content {texts : List Bytes} (h : ∃ line ∈ texts, isIdleLine line = false) :
    ∃ kept dropped, texts = kept ++ dropped ∧ kept ≠ [] ∧
      (∀ last, kept.getLast? = some last → isIdleLine last = false) ∧
      ∀ line ∈ dropped, isIdleLine line = true := by
  refine ⟨(texts.reverse.dropWhile isIdleLine).reverse,
    (texts.reverse.takeWhile isIdleLine).reverse, ?_, ?_, ?_, ?_⟩
  · rw [← List.reverse_append, List.takeWhile_append_dropWhile, List.reverse_reverse]
  · obtain ⟨line, hm, hi⟩ := h
    intro he
    rw [List.reverse_eq_nil_iff, List.dropWhile_eq_nil_iff] at he
    have := he line (List.mem_reverse.2 hm)
    rw [hi] at this
    cases this
  · intro last hlast
    rw [List.getLast?_reverse] at hlast
    have := List.head?_dropWhile_not isIdleLine texts.reverse
    rw [hlast] at this
    simpa using this
  · intro line hm
    exact List.mem_takeWhile_imp (List.mem_reverse.1 hm)

end Listing

end ManifestScan
