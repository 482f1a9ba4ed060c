import ManifestScan.Proofs.Listing.Located
import ManifestScan.Proofs.Listing.Parenthesis

namespace ManifestScan

/-- A bracket is closed behind itself, in the text. -/
theorem matching?_lt {text : Bytes} {start close : Nat} (h : matching? text start = some close) :
    start < close ∧ close < text.length := by
  cases hd : text.drop start with
  | nil =>
    rw [matching?, hd] at h
    cases h
  | cons b rest =>
    have hb : isOpening b = true := by
      by_contra hb
      rw [matching?, hd] at h
      dsimp only at h
      rw [if_neg hb] at h
      cases h
    rw [matching?_opened hd hb] at h
    have hlt := Bracket.closing?_lt h
    rw [Piece.flatMap_text_codePieces] at hlt
    have hlength := congrArg List.length hd
    rw [List.length_drop, List.length_cons] at hlength
    obtain ⟨inner, last, others, -, hclose, -⟩ := Bracket.closing?_split h
    omega

theorem slice_slice (text : Bytes) (start stop first last : Nat) :
    slice (slice text start stop) first last =
      slice text (start + first) (min (start + last) stop) := by
  have hlength : min (last - first) (stop - start - first) =
      min (start + last) stop - (start + first) := by
    omega
  unfold slice
  rw [List.drop_take, List.drop_drop, List.take_take, hlength]

/-- What a range of a text holds stands there. -/
theorem slice_own {text part : Bytes} {start stop : Nat} (h : slice text start stop = part)
    (hn : part ≠ []) :
    start + part.length ≤ text.length ∧ slice text start (start + part.length) = part := by
  subst h
  have hpos := List.length_pos_iff.2 hn
  simp only [slice, List.length_take, List.length_drop] at hpos ⊢
  refine ⟨by omega, ?_⟩
  rw [Nat.add_sub_cancel_left, ← List.length_drop, ← List.take_eq_take_min]

namespace Registration

variable {registration : Registration} {source front arguments : Bytes} {last : UInt8}
  {found : List Registration}

/-- A registration as it stands in a source: a constructor's call, up to the bracket that closes the
call's own parenthesis. -/
structure StandsIn (registration : Registration) (source : Bytes) : Prop where
  callee_mem : registration.callee ∈ PluginKind.callees
  stop_le : registration.offset + registration.text.length ≤ source.length
  text_eq : slice source registration.offset (registration.offset + registration.text.length) =
    registration.text
  closes : ∃ paren, registration.parenthesis? = some paren ∧
    matching? source (registration.offset + paren) =
      some (registration.offset + registration.text.length - 1)

/-- One registration starts and ends before the other starts. -/
def Precedes (registration later : Registration) : Prop :=
  registration.offset < later.offset ∧
    registration.offset + registration.text.length ≤ later.offset

/-- What a search leaves: registrations that stand in the source one behind the other,
or an error. -/
structure Sound (source : Bytes) (located : LocatedCalls) : Prop where
  found_or_failed : Xor (located.calls ≠ []) (located.error.isSome = true)
  standsIn : ∀ registration ∈ located.calls, registration.StandsIn source
  precedes : located.calls.Pairwise Precedes

theorem Sound.of_ok {result : Except Failure (List Registration)}
    (h : ∀ found, result = .ok found →
      found ≠ [] ∧ (∀ registration ∈ found, registration.StandsIn source) ∧
        found.Pairwise Precedes) : Sound source (.of result) := by
  cases result with
  | error failure => exact ⟨.inr ⟨rfl, fun hn => hn rfl⟩, nofun, .nil⟩
  | ok found =>
    obtain ⟨hn, hs, hp⟩ := h found rfl
    exact ⟨.inl ⟨hn, nofun⟩, hs, hp⟩

theorem Spelled.text_ne_nil (h : registration.Spelled front arguments last) :
    registration.text ≠ [] := by
  rw [h.text_eq]
  exact List.append_ne_nil_of_right_ne_nil _ (List.cons_ne_nil _ _)

/-- What closes the parenthesis in the text of a registration closes it in the source. -/
theorem Spelled.standsIn (h : registration.Spelled front arguments last)
    (hc : registration.callee ∈ PluginKind.callees)
    (ht : ∃ stop, registration.text = slice source registration.offset stop) :
    registration.StandsIn source := by
  obtain ⟨stop, ht⟩ := ht
  obtain ⟨hl, ht⟩ := slice_own ht.symm h.text_ne_nil
  refine ⟨hc, hl, ht, front.length, h.parenthesis?_eq, ?_⟩
  have hd : source.drop registration.offset = registration.text ++
      source.drop (registration.offset + registration.text.length) := by
    rw [← slice_append_drop (Nat.le_add_right registration.offset registration.text.length), ht]
  have hparen : source.drop (registration.offset + front.length) = leftParen ::
      ((arguments ++ [last]) ++ source.drop (registration.offset + registration.text.length)) := by
    rw [← List.drop_drop, hd, h.text_eq, List.append_assoc, List.drop_left]
    rfl
  have hlength : registration.offset + registration.text.length - 1 =
      registration.offset + front.length + 1 + arguments.length := by
    rw [h.text_eq]
    simp only [List.length_append, List.length_cons, List.length_nil]
    omega
  rw [matching?_opened hparen (by decide), closing?_append (h.closes _), hlength]

/-- Each registration that is carved starts behind the end of the one before. -/
theorem precedes_of_carve {body : Bytes} {base stop resume : Nat} {places : List Place}
    (h : carve body base stop resume places = .ok found) :
    (∀ registration ∈ found, base + resume ≤ registration.offset) ∧ found.Pairwise Precedes := by
  induction places generalizing resume found with
  | nil =>
    cases h
    exact ⟨nofun, .nil⟩
  | cons place others ih =>
    obtain rfl | h | ⟨callee, paren, close, later, hresume, hc, hm, hlater, rfl⟩ := carve_cases h
    · exact ⟨nofun, .nil⟩
    · exact ih h
    obtain ⟨hparen, hclose⟩ := matching?_lt hm
    obtain ⟨-, spaces, -, -, -, rfl⟩ := constructorAt?_eq_some hc
    obtain ⟨hbehind, hpairs⟩ := ih hlater
    have hlength : (slice body place.offset (close + 1)).length = close + 1 - place.offset := by
      rw [slice, List.length_take, List.length_drop]
      omega
    refine ⟨List.forall_mem_cons.2 ⟨Nat.add_le_add_left hresume base, fun registration hm => ?_⟩,
      List.pairwise_cons.2 ⟨fun registration hm => ?_, hpairs⟩⟩
    · have := hbehind registration hm
      omega
    · have := hbehind registration hm
      unfold Precedes
      dsimp only
      omega

theorem sound_locateText (convention : Convention) (source : Bytes) :
    Sound source (convention.locateText source) := by
  rw [Convention.locateText_eq]
  refine .of_ok fun found h => ?_
  have hspelled := spelled_of_searchText h
  obtain ⟨hn, body, stop, start, hcarve⟩ := Convention.carve_of_searchText h
  refine ⟨hn, fun registration hm => ?_, (precedes_of_carve hcarve).2⟩
  obtain ⟨front, arguments, last, -, hs⟩ := hspelled registration hm
  obtain ⟨place, -, callee, paren, close, hc, -, rfl⟩ := mem_of_carve hcarve registration hm
  exact hs.standsIn (constructorAt?_eq_some hc).1 ⟨_, slice_slice source ..⟩

theorem sound_locateTree (convention : Convention) (source : Bytes) :
    Sound source (convention.locateTree source) := by
  rw [Convention.locateTree_eq]
  refine .of_ok fun found h => ?_
  have hspelled := spelled_of_searchTree h
  obtain ⟨hn, -, -, function, hfind, hcalls⟩ := Convention.calls_of_searchTree h
  obtain ⟨rfl, -⟩ := of_mapM hcalls
  obtain ⟨tokens, final, ht, -, -, hdefinitions⟩ := Outline.spread_ofSource source
  obtain ⟨own, left, hown, hspread⟩ :=
    hdefinitions.spread_calls function (Definition.mem_allOf_of_findIn? _ hfind)
  have hordered : Token.Ordered own := by
    have hall := Token.ordered_tokenize source
    rw [ht] at hall
    exact (hall.of_prefix (List.prefix_append _ _)).of_suffix hown
  have hstands : ∀ registration ∈ (Call.matchesIn PluginKind.callees function.calls).map
      (spanned source), registration.StandsIn source := by
    intro registration hm
    obtain ⟨front, arguments, last, hs⟩ := hspelled registration hm
    obtain ⟨call, hmatch, rfl⟩ := List.mem_map.1 hm
    exact hs.standsIn (Call.callee_mem_of_mem_matchesIn _ hmatch) ⟨_, rfl⟩
  refine ⟨hn, hstands, List.pairwise_map.2 ?_⟩
  refine (hspread.apart_matchesIn hordered PluginKind.callees).imp_of_mem fun hm _ happart => ?_
  obtain ⟨front, arguments, last, hs⟩ := hspelled _ (List.mem_map_of_mem hm)
  have hpos := List.length_pos_iff.2 hs.text_ne_nil
  simp only [Precedes, spanned, Extent.of, slice, List.length_take] at hpos ⊢
  omega

end Registration

/-- Both searches are sound, whatever the source and the convention: they leave calls or an error,
and never both. -/
theorem Convention.search_sound (convention : Convention) (source : Bytes) :
    Registration.Sound source (convention.locateTree source) ∧
      Registration.Sound source (convention.locateText source) :=
  ⟨Registration.sound_locateTree convention source, Registration.sound_locateText convention source⟩

end ManifestScan
