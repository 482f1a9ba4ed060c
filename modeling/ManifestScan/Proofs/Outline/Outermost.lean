import ManifestScan.Outline.Query
import ManifestScan.Proofs.Outline.Nest

namespace ManifestScan

namespace Call

/-- A call stands in a list of calls, at the top or inside others. `around` are the calls it is in,
the outermost one first. -/
inductive Under : List Call → List Call → Call → Prop
  | top {calls : List Call} {call : Call} (h : call ∈ calls) : Under calls [] call
  | inside {calls around : List Call} {outer call : Call} (ho : outer ∈ calls)
    (h : Under outer.nested around call) : Under calls (outer :: around) call

/-- What is found in a list of calls is each call with one of the callees that stands in no
other such call. -/
structure Outermost (callees : List Bytes) (calls found : List Call) : Prop where
  ordered : found.Pairwise fun call later => call.extent.start < later.extent.start
  apart : Apart found
  mem_iff : ∀ call, call ∈ found ↔ call.callee ∈ callees ∧ (∃ around, Under calls around call) ∧
    ∀ around, Under calls around call → ∀ outer ∈ around, outer.callee ∉ callees
  covers : ∀ around call, Under calls around call → call.callee ∈ callees → call ∈ found ∨
    ∃ outer ∈ around, outer ∈ found ∧
      outer.extent.start < call.extent.start ∧ call.extent.stop ≤ outer.extent.stop

/-- What is in a call stands behind its start and not behind its end, one behind the other. -/
structure Surrounds (call : Call) : Prop where
  start_lt : call.extent.start < call.extent.stop
  apart : Apart call.nested
  inside : ∀ inner ∈ call.nested,
    call.extent.start < inner.extent.start ∧ inner.extent.stop ≤ call.extent.stop

structure Forest (calls : List Call) : Prop where
  apart : Apart calls
  surrounds : ∀ call ∈ allOf calls, call.Surrounds

variable {callees : List Bytes} {calls others around around' : List Call} {call outer : Call}

theorem matches_eq (callees : List Bytes) (call : Call) :
    call.matches callees =
      if callees.contains call.callee then [call] else matchesIn callees call.nested := by
  cases call
  rw [Call.matches]

theorem matchesIn_eq (callees : List Bytes) (calls : List Call) :
    matchesIn callees calls = calls.flatMap (·.matches callees) := by
  induction calls with
  | nil => rfl
  | cons call calls ih => rw [matchesIn, ih, List.flatMap_cons]

theorem mem_matchesIn_top (ho : outer ∈ calls) (h : outer.callee ∈ callees) :
    outer ∈ matchesIn callees calls := by
  rw [matchesIn_eq]
  refine List.mem_flatMap.2 ⟨outer, ho, ?_⟩
  rw [matches_eq, if_pos (List.contains_iff_mem.2 h)]
  exact List.mem_singleton_self outer

theorem mem_matchesIn_inside (ho : outer ∈ calls) (hn : outer.callee ∉ callees)
    (h : call ∈ matchesIn callees outer.nested) : call ∈ matchesIn callees calls := by
  rw [matchesIn_eq]
  refine List.mem_flatMap.2 ⟨outer, ho, ?_⟩
  rwa [matches_eq, if_neg (by simpa using hn)]

theorem mem_allOf_nested (ho : outer ∈ calls) (h : call ∈ allOf outer.nested) :
    call ∈ allOf calls := by
  induction calls with
  | nil => cases ho
  | cons other calls ih =>
    rw [allOf, List.mem_append, all_eq]
    rcases List.mem_cons.1 ho with rfl | ho
    · exact .inl (List.mem_cons_of_mem _ h)
    · exact .inr (ih ho)

namespace Under

theorem mem_allOf (h : Under calls around call) : call ∈ allOf calls := by
  induction h with
  | top h => exact Call.mem_allOf h
  | inside ho _ ih => exact mem_allOf_nested ho ih

theorem of_subset (h : Under calls around call) (hs : calls ⊆ others) :
    Under others around call := by
  cases h with
  | top h => exact .top (hs h)
  | inside ho h => exact .inside (hs ho) h

theorem mem_matchesIn (h : Under calls around call) (hc : call.callee ∈ callees)
    (ha : ∀ outer ∈ around, outer.callee ∉ callees) : call ∈ matchesIn callees calls := by
  induction h with
  | top h => exact mem_matchesIn_top h hc
  | inside ho _ ih =>
    obtain ⟨hn, ha⟩ := List.forall_mem_cons.1 ha
    exact mem_matchesIn_inside ho hn (ih hc ha)

/-- A call that is passed over stands in one that is found. -/
theorem exists_found (h : Under calls around call) (hc : call.callee ∈ callees) :
    call ∈ matchesIn callees calls ∨ ∃ outer ∈ around, outer ∈ matchesIn callees calls := by
  induction h with
  | top h => exact .inl (mem_matchesIn_top h hc)
  | @inside calls around outer call ho _ ih =>
    by_cases hm : outer.callee ∈ callees
    · exact .inr ⟨outer, List.mem_cons_self, mem_matchesIn_top ho hm⟩
    · rcases ih hc with hf | ⟨inner, hi, hf⟩
      · exact .inl (mem_matchesIn_inside ho hm hf)
      · exact .inr ⟨inner, List.mem_cons_of_mem _ hi, mem_matchesIn_inside ho hm hf⟩

end Under

mutual

theorem exists_under_of_mem_matches : (top : Call) → call ∈ top.matches callees →
    call.callee ∈ callees ∧
      ∃ around, Under [top] around call ∧ ∀ outer ∈ around, outer.callee ∉ callees
  | ⟨callee, extent, span, closed, nested⟩, h => by
    rw [Call.matches] at h
    split at h
    · rename_i hc
      obtain rfl := List.mem_singleton.1 h
      exact ⟨List.contains_iff_mem.1 hc, [], .top h, List.forall_mem_nil _⟩
    · rename_i hn
      obtain ⟨hc, around, hu, ha⟩ := exists_under_of_mem_matchesIn nested h
      refine ⟨hc, _, .inside List.mem_cons_self hu, List.forall_mem_cons.2 ⟨?_, ha⟩⟩
      simpa using hn

/-- A call that is found stands in no other one with one of the callees. -/
theorem exists_under_of_mem_matchesIn : (calls : List Call) → call ∈ matchesIn callees calls →
    call.callee ∈ callees ∧
      ∃ around, Under calls around call ∧ ∀ outer ∈ around, outer.callee ∉ callees
  | [], h => by cases h
  | top :: others, h => by
    rw [matchesIn, List.mem_append] at h
    rcases h with h | h
    · obtain ⟨hc, around, hu, ha⟩ := exists_under_of_mem_matches top h
      exact ⟨hc, around, hu.of_subset (by simp), ha⟩
    · obtain ⟨hc, around, hu, ha⟩ := exists_under_of_mem_matchesIn others h
      exact ⟨hc, around, hu.of_subset (List.subset_cons_self _ _), ha⟩

end

theorem mem_allOf_of_mem_matchesIn (calls : List Call) (h : call ∈ matchesIn callees calls) :
    call ∈ allOf calls := by
  obtain ⟨-, _, hu, -⟩ := exists_under_of_mem_matchesIn calls h
  exact hu.mem_allOf

theorem callee_mem_of_mem_matchesIn (calls : List Call) (h : call ∈ matchesIn callees calls) :
    call.callee ∈ callees :=
  (exists_under_of_mem_matchesIn calls h).1

namespace Forest

theorem nested (h : Forest calls) (ho : outer ∈ calls) : Forest outer.nested :=
  ⟨(h.surrounds outer (mem_allOf ho)).apart,
    fun call hm => h.surrounds call (mem_allOf_nested ho hm)⟩

/-- A call stands in one of those at the top. -/
theorem exists_top (h : Forest calls) (hu : Under calls around call) : ∃ top ∈ calls,
    top.extent.start ≤ call.extent.start ∧ call.extent.stop ≤ top.extent.stop := by
  induction hu with
  | top hm => exact ⟨_, hm, Nat.le_refl _, Nat.le_refl _⟩
  | @inside calls around outer call ho _ ih =>
    obtain ⟨top, hm, hstart, hstop⟩ := ih (h.nested ho)
    obtain ⟨hs, he⟩ := (h.surrounds outer (mem_allOf ho)).inside top hm
    exact ⟨outer, ho, by omega, by omega⟩

theorem inside (h : Forest calls) (ho : outer ∈ calls) (hu : Under outer.nested around call) :
    outer.extent.start < call.extent.start ∧ call.extent.stop ≤ outer.extent.stop := by
  obtain ⟨top, hm, hstart, hstop⟩ := (h.nested ho).exists_top hu
  obtain ⟨hs, he⟩ := (h.surrounds outer (mem_allOf ho)).inside top hm
  omega

/-- A call stands inside each of those around it. -/
theorem within (h : Forest calls) (hu : Under calls around call) : ∀ outer ∈ around,
    outer.extent.start < call.extent.start ∧ call.extent.stop ≤ outer.extent.stop := by
  induction hu with
  | top => exact List.forall_mem_nil _
  | inside ho hu ih => exact List.forall_mem_cons.2 ⟨h.inside ho hu, ih (h.nested ho)⟩

/-- Two calls at the top that a third one stands in are the same. -/
theorem top_unique (h : Forest calls) {top other : Call} (ht : top ∈ calls) (ho : other ∈ calls)
    (hc : call.extent.start < call.extent.stop)
    (hin : top.extent.start ≤ call.extent.start ∧ call.extent.stop ≤ top.extent.stop)
    (hin' : other.extent.start ≤ call.extent.start ∧ call.extent.stop ≤ other.extent.stop) :
    top = other := by
  by_contra hne
  have : Std.Symm fun a b : Call =>
      a.extent.stop ≤ b.extent.start ∨ b.extent.stop ≤ a.extent.start := ⟨fun _ _ h => h.symm⟩
  have hs : calls.Pairwise fun a b =>
      a.extent.stop ≤ b.extent.start ∨ b.extent.stop ≤ a.extent.start := h.apart.imp .inl
  rcases hs.forall ht ho hne with hs | hs <;> omega

/-- A call stands at one place in a list. -/
theorem around_unique (h : Forest calls) (hu : Under calls around call)
    (hu' : Under calls around' call) : around = around' := by
  have hc := (h.surrounds call hu.mem_allOf).start_lt
  induction hu generalizing around' with
  | @top calls call hm =>
    cases hu' with
    | top => rfl
    | @inside _ _ outer _ ho hi =>
      obtain ⟨hs, he⟩ := h.inside ho hi
      have := h.top_unique ho hm hc ⟨hs.le, he⟩ ⟨Nat.le_refl _, Nat.le_refl _⟩
      subst this
      exact absurd hs (Nat.lt_irrefl _)
  | @inside calls around outer call ho hi ih =>
    obtain ⟨hs, he⟩ := h.inside ho hi
    cases hu' with
    | top hm =>
      have := h.top_unique ho hm hc ⟨hs.le, he⟩ ⟨Nat.le_refl _, Nat.le_refl _⟩
      subst this
      exact absurd hs (Nat.lt_irrefl _)
    | @inside _ _ other _ ho' hi' =>
      obtain ⟨hs', he'⟩ := h.inside ho' hi'
      have := h.top_unique ho ho' hc ⟨hs.le, he⟩ ⟨hs'.le, he'⟩
      subst this
      rw [ih (h.nested ho) hi' hc]

theorem outermost (h : Forest calls) (ha : Apart (matchesIn callees calls)) :
    Outermost callees calls (matchesIn callees calls) where
  ordered := ha.imp_of_mem fun {call later} hm _ hs => by
    have := (h.surrounds call (mem_allOf_of_mem_matchesIn calls hm)).start_lt
    omega
  apart := ha
  mem_iff call := by
    constructor
    · intro hm
      obtain ⟨hc, around, hu, hn⟩ := exists_under_of_mem_matchesIn calls hm
      refine ⟨hc, ⟨around, hu⟩, fun around' hu' => ?_⟩
      rwa [← h.around_unique hu hu']
    · rintro ⟨hc, ⟨around, hu⟩, hn⟩
      exact hu.mem_matchesIn hc (hn around hu)
  covers around call hu hc :=
    (hu.exists_found hc).imp_right fun ⟨outer, hm, hf⟩ => ⟨outer, hm, hf, h.within hu outer hm⟩

end Forest

theorem Nests.surrounds {source : Bytes} (h : call.Nests source (tokenize source).tokens) :
    call.Surrounds := by
  obtain ⟨front, name, links, paren, behind, ht, hh, ha, hi, hc⟩ := h
  have hmem : paren ∈ (tokenize source).tokens := by simp [ht]
  have hordered := Token.ordered_tokenize source
  rw [ht] at hordered
  have hname := (hordered.of_suffix (List.suffix_append _ _)).offset_lt name List.mem_cons_self
    (by rw [hh.name_eq]; rfl)
  have hparen : name.stop ≤ paren.offset :=
    (List.pairwise_cons.1 (hordered.of_suffix (List.suffix_append _ _)).pairwise).1 paren (by simp)
  have hle := paren.offset_le_stop
  rw [← hh.start_eq] at hname
  refine ⟨?_, ha, fun inner hm => ?_⟩
  · split at hc
    · obtain ⟨inner, close, rest, rfl, hclose⟩ := hc
      have hsuffix : paren :: (inner ++ close :: rest) <:+
          front ++ name :: (links ++ paren :: (inner ++ close :: rest)) :=
        ⟨front ++ name :: links, by simp⟩
      have hbehind : paren.stop ≤ close.offset :=
        (List.pairwise_cons.1 (hordered.of_suffix hsuffix).pairwise).1 close (by simp)
      have := close.offset_le_stop
      rw [hclose.stop_eq.1]
      omega
    · obtain ⟨unknown, htiling, -⟩ := tiling_tokenize source
      obtain ⟨_, _, -, hf⟩ := htiling.follows paren hmem
      have := hf.stop_le
      omega
  · obtain ⟨hs, he⟩ := hi inner hm
    exact ⟨by omega, he⟩

namespace Spread

variable {stop : Nat} {rest middle next : List Token}

/-- What is in calls at any depth ends before the calls behind them start. -/
theorem apart_append (h : Spread stop rest middle calls) (h' : Spread stop middle next others)
    (ho : Token.Ordered rest) : ∀ call ∈ allOf calls, ∀ later ∈ allOf others,
      call.extent.stop ≤ later.extent.start := by
  intro call hc later hl
  obtain ⟨front, rfl⟩ := h.suffix
  obtain ⟨between, rfl⟩ := h'.suffix
  obtain ⟨-, hclosed, hopen⟩ := h.exists_ends rfl call hc
  obtain ⟨⟨name, hn, hstart⟩, -⟩ := h'.exists_ends rfl later hl
  cases hk : call.closed with
  | false =>
    obtain ⟨-, hnil⟩ := hopen hk
    rw [hnil] at h'
    obtain ⟨-, rfl⟩ := h'.eq_nil
    cases hl
  | true =>
    obtain ⟨close, hm, -, hstop⟩ := hclosed hk
    rw [hstop, hstart]
    exact ho.stop_le hm (List.mem_append_left _ hn)

/-- The outermost matches stand one behind the other. -/
theorem apart_matchesIn (h : Spread stop rest next calls) (ho : Token.Ordered rest)
    (callees : List Bytes) : Apart (matchesIn callees calls) := by
  have hmatches {call : Call} (hn : Apart (matchesIn callees call.nested)) :
      Apart (call.matches callees) := by
    rw [matches_eq]
    split
    · exact List.pairwise_singleton _ _
    · exact hn
  induction h with
  | nil => exact .nil
  | pass _ ih => exact ih (ho.of_suffix (List.suffix_cons _ _))
  | @closed call calls name paren close links inner rest next hh he hc hs hn h ihn ih =>
    have hown := ho.of_suffix (suffix_paren name paren links (inner ++ close :: rest))
    have hcall : Spread _ _ rest [call] := .closed hh he hc hs hn .nil
    rw [matchesIn]
    refine List.pairwise_append.2
      ⟨hmatches (ihn hown), ih (hown.of_suffix (suffix_close _ _ _)), ?_⟩
    intro first hf later hl
    have hfirst : first ∈ matchesIn callees [call] := by rwa [matchesIn, matchesIn, List.append_nil]
    exact hcall.apart_append h ho first (mem_allOf_of_mem_matchesIn _ hfirst) later
      (mem_allOf_of_mem_matchesIn _ hl)
  | @unclosed call name paren links rest hh hc hs hn ihn =>
    rw [matchesIn, matchesIn, List.append_nil]
    exact hmatches (ihn (ho.of_suffix (suffix_paren _ _ _ _)))

/-- The outermost matches among calls that spread over tokens of a source. -/
theorem outermost {source : Bytes} {tokens : List Token} {final : Token}
    (h : Spread final.stop rest next calls) (ht : (tokenize source).tokens = tokens ++ [final])
    (hl : Laid true 0 tokens) (hs : rest <:+ tokens) (callees : List Bytes) :
    Outermost callees calls (matchesIn callees calls) := by
  have hordered := Token.ordered_tokenize source
  rw [ht] at hordered
  replace hordered := (hordered.of_prefix (List.prefix_append _ _)).of_suffix hs
  have hforest : Forest calls :=
    ⟨h.apart hordered, fun call hm => (h.nests ht hl hs call hm).surrounds⟩
  exact hforest.outermost (h.apart_matchesIn hordered callees)

end Spread

end Call

/-- In each list of calls of an outline, be it of the source or of a definition, the outermost
matches are found. -/
theorem Outline.outermost_matchesIn (source : Bytes) (callees : List Bytes) :
    let outline := (Script.ofSource source).outline
    ∀ calls ∈ outline.calls :: outline.allDefinitions.map (·.calls),
      Call.Outermost callees calls (Call.matchesIn callees calls) := by
  intro outline
  obtain ⟨tokens, final, ht, hl, hcalls, hdefinitions⟩ := spread_ofSource source
  refine List.forall_mem_cons.2 ⟨hcalls.outermost ht hl List.suffix_rfl callees,
    List.forall_mem_map.2 fun definition hd => ?_⟩
  obtain ⟨own, left, hs, hown⟩ := hdefinitions.spread_calls definition hd
  exact hown.outermost ht hl hs callees

/-- A match among the arguments of another one is passed over. -/
theorem Outline.outermost_matchesIn_nested :
    let outline := (Script.ofSource (ascii "f(g(h(), 1), g())\n")).outline
    let callees := [ascii "g", ascii "h"]
    outline.calls ∈ outline.calls :: outline.allDefinitions.map (·.calls) ∧
      Call.Outermost callees outline.calls (Call.matchesIn callees outline.calls) ∧
      (Call.matchesIn callees outline.calls).map (·.extent.start) = [2, 13] := by
  intro outline callees
  have hm : outline.calls ∈ outline.calls :: outline.allDefinitions.map (·.calls) :=
    List.mem_cons_self
  exact ⟨hm, outermost_matchesIn _ callees _ hm, by decide +kernel⟩

end ManifestScan
