import ManifestScan.Proofs.Lexing.Bracket
import ManifestScan.Proofs.Listing.Found
import ManifestScan.Proofs.Outline.Closed
import ManifestScan.Proofs.Outline.Outermost
import ManifestScan.Proofs.Text.Parenthesis

namespace ManifestScan

mutual

theorem Definition.mem_all_of_find? {kind : CallableKind} {name : Bytes} {found : Definition} :
    (definition : Definition) → definition.find? kind name = some found → found ∈ definition.all
  | ⟨k, n, decorators, parameters, returns, body, extent, span, calls, members⟩, h => by
    rw [Definition.find?] at h
    rw [Definition.all]
    split at h
    · cases h
      exact List.mem_cons_self
    · exact List.mem_cons_of_mem _ (Definition.mem_allOf_of_findIn? members h)

theorem Definition.mem_allOf_of_findIn? {kind : CallableKind} {name : Bytes} {found : Definition} :
    (definitions : List Definition) → Definition.findIn? kind name definitions = some found →
      found ∈ Definition.allOf definitions
  | [], h => by cases h
  | definition :: others, h => by
    rw [Definition.findIn?] at h
    rw [Definition.allOf, List.mem_append]
    split at h
    · rename_i hf
      cases h
      exact .inl (Definition.mem_all_of_find? definition hf)
    · exact .inr (Definition.mem_allOf_of_findIn? others h)

end

namespace Registration

variable {source : Bytes} {found : List Registration}

/-- Between the constructor that is found at a place and its parenthesis are spaces only. -/
theorem constructorAt?_eq_some {place : Place} {callee : Bytes} {paren : Nat}
    (h : constructorAt? place = some (callee, paren)) :
    callee ∈ PluginKind.callees ∧ ∃ spaces rest, (∀ b ∈ spaces, isSpace b = true) ∧
      place.rest = callee ++ (spaces ++ leftParen :: rest) ∧
      paren = place.offset + callee.length + spaces.length := by
  obtain ⟨name, hm, hf⟩ := List.exists_of_findSome?_eq_some h
  obtain ⟨at_, hf, he⟩ := Option.map_eq_some_iff.1 hf
  cases he
  obtain ⟨reach, hr, rfl⟩ := Option.map_eq_some_iff.1 hf
  refine ⟨hm, ?_⟩
  unfold Place.reach? at hr
  split at hr
  · cases hr
  · rename_i behind hw
    dsimp only at hr
    split at hr
    · rename_i hn
      cases hr
      have hspaces : ∀ b ∈ behind.takeWhile isSpace, isSpace b = true :=
        fun b hb => List.mem_takeWhile_imp hb
      have hbehind := @List.takeWhile_append_dropWhile _ isSpace behind
      obtain ⟨-, -, hparen⟩ := hn
      generalize behind.takeWhile isSpace = spaces at hspaces hbehind hparen ⊢
      rw [← hbehind, List.getElem?_append_right (Nat.le_refl _), Nat.sub_self] at hparen
      obtain ⟨rest, hrest⟩ := Lexeme.eq_cons_of_head? (List.head?_eq_getElem?.trans hparen)
      refine ⟨spaces, rest, hspaces, ?_, (Nat.add_assoc ..).symm⟩
      rw [eq_append_of_afterWord? hw, ← hbehind, hrest]
    · cases hr

/-- A registration that is found in a text has no other parenthesis in front of its own. -/
theorem spelled_of_searchText {convention : Convention}
    (h : convention.searchText source = .ok found) : ∀ registration ∈ found,
      ∃ front arguments last, leftParen ∉ front ∧ registration.Spelled front arguments last := by
  have hspace : ∀ b, isSpace b = true → Lexeme.isInert b = true := by decide +kernel
  have hcallee : ∀ callee ∈ PluginKind.callees, callee.all Lexeme.isInert = true := by
    decide +kernel
  obtain ⟨-, extent, stop, start, hcarve⟩ := Convention.carve_of_searchText h
  generalize extent.start = base at hcarve
  generalize extent.of source = body at hcarve
  intro registration hm
  obtain ⟨place, hplace, callee, paren, close, hc, hmatch, rfl⟩ :=
    mem_of_carve hcarve registration hm
  obtain ⟨hname, spaces, rest, hs, hrest, rfl⟩ := constructorAt?_eq_some hc
  have hinert : Lexeme.Inert (callee ++ spaces) :=
    .append (List.all_eq_true.1 (hcallee callee hname)) fun b hb => hspace b (hs b hb)
  have hd : body.drop place.offset = (callee ++ spaces) ++ leftParen :: rest := by
    rw [← Place.rest_ofPieces rfl place hplace, hrest, List.append_assoc]
  rw [Nat.add_assoc, ← List.length_append] at hmatch
  obtain ⟨arguments, last, hspelled⟩ :=
    @Spelled.of_matching ⟨callee, base + place.offset, slice body place.offset (close + 1)⟩
      _ _ _ _ _ hd (.inert _ hinert) hmatch rfl
  exact ⟨callee ++ spaces, arguments, last, fun hm => absurd (hinert _ hm) (by decide), hspelled⟩

/-- A registration that is found in an outline starts with the name that is called. -/
theorem spelled_of_searchTree {convention : Convention}
    (h : convention.searchTree source = .ok found) : ∀ registration ∈ found,
      ∃ front arguments last, registration.Spelled front arguments last := by
  obtain ⟨-, hlexical, houtline, function, hfind, hcalls⟩ := Convention.calls_of_searchTree h
  obtain ⟨rfl, -⟩ := of_mapM hcalls
  intro registration hm
  obtain ⟨call, hmatch, rfl⟩ := List.mem_map.1 hm
  have hfunction := Definition.mem_allOf_of_findIn? _ hfind
  have hall : call ∈ (Script.ofSource source).outline.allCalls :=
    List.mem_append_right _
      (List.mem_flatMap.2 ⟨function, hfunction, Call.mem_allOf_of_mem_matchesIn _ hmatch⟩)
  obtain ⟨front, name, links, paren, behind, ht, hh, -, -, hrange⟩ :=
    Outline.calls_nest source call hall
  rw [if_pos (Outline.closed_ofSource houtline call hall)] at hrange
  obtain ⟨inner, close, rest, rfl, hclose⟩ := hrange
  obtain ⟨text, rest, hd, htext, hmatch⟩ := called_tokenize hlexical ht
    (List.forall_mem_cons.2 ⟨.inl hh.name_eq, hh.parts⟩) hh.paren_eq
      (hclose.encloses.closer?_eq rest)
  have hof : call.extent.of source = slice source name.offset (close.offset + 1) := by
    rw [Extent.of, hh.start_eq, hclose.stop_eq.1, hclose.stop_eq.2]
  obtain ⟨arguments, last, hspelled⟩ := @Spelled.of_matching (spanned source call) _ _ _ _ _
    hd htext hmatch hof
  exact ⟨text, arguments, last, hspelled⟩

end Registration

/-- The argument list of a registration is read from the call's own parenthesis to the end of its
text. Only a call of an outline can have a comment in front of its parenthesis, and then the list is
read from there exactly if the comment holds none. -/
theorem Convention.search_parenthesis (convention : Convention) (source : Bytes) :
    (∀ found, convention.searchText source = .ok found → ∀ registration ∈ found,
      let list := ArgumentList.ofCall registration.text
      ∃ paren, registration.parenthesis? = some paren ∧
        (list.failure = none →
          list.start = paren + 1 ∧ list.stop + 1 = registration.text.length)) ∧
    (∀ found, convention.searchTree source = .ok found → ∀ registration ∈ found,
      let list := ArgumentList.ofCall registration.text
      ∃ paren, registration.parenthesis? = some paren ∧
        (list.failure = none →
          (list.start = paren + 1 ∧ list.stop + 1 = registration.text.length ↔
            leftParen ∉ registration.text.take paren))) := by
  refine ⟨fun found h registration hm => ?_, fun found h registration hm => ?_⟩
  · obtain ⟨front, arguments, last, hn, hs⟩ := Registration.spelled_of_searchText h registration hm
    refine ⟨_, hs.parenthesis?_eq, fun hf => (hs.range_iff hf).2 ?_⟩
    rwa [hs.text_eq, List.take_left]
  · obtain ⟨front, arguments, last, hs⟩ := Registration.spelled_of_searchTree h registration hm
    exact ⟨_, hs.parenthesis?_eq, hs.range_iff⟩

/-- A registration with something between the constructor and its parenthesis. -/
def gappedRegistration (gap : Bytes) : Registration :=
  ⟨ascii "ParserPlugin", 49, ascii "ParserPlugin" ++ gap ++ ascii "(obj=f[(1)])"⟩

def gappedSource (gap : Bytes) : Bytes :=
  ascii "def register_plugin():\n  return Package(plugins=[" ++ (gappedRegistration gap).text ++
    ascii "])\n"

theorem Convention.search_parenthesis_gapped :
    let spaced := gappedRegistration (ascii " ")
    let commented := gappedRegistration (ascii " # )]\n")
    (Convention.default.searchText (gappedSource (ascii " ")) = .ok [spaced] ∧
      (ArgumentList.ofCall spaced.text).start = 14 ∧ (ArgumentList.ofCall spaced.text).stop = 24) ∧
    Convention.default.searchTree (gappedSource (ascii " # )]\n")) = .ok [commented] ∧
      (ArgumentList.ofCall commented.text).start = 19 ∧
      (ArgumentList.ofCall commented.text).stop = 29 := by
  intro spaced commented
  have hs : Convention.default.searchText (gappedSource (ascii " ")) = .ok [spaced] := by
    decide +kernel
  have hc : Convention.default.searchTree (gappedSource (ascii " # )]\n")) = .ok [commented] := by
    decide +kernel
  obtain ⟨paren, hp, hr⟩ := (search_parenthesis _ _).1 _ hs spaced List.mem_cons_self
  obtain ⟨paren', hp', hr'⟩ := (search_parenthesis _ _).2 _ hc commented List.mem_cons_self
  obtain rfl : paren = 13 := Option.some.inj (hp.symm.trans (by decide +kernel))
  obtain rfl : paren' = 18 := Option.some.inj (hp'.symm.trans (by decide +kernel))
  obtain ⟨hstart, hstop⟩ := hr (by decide +kernel)
  obtain ⟨hstart', hstop'⟩ := (hr' (by decide +kernel)).2 (by decide +kernel)
  have hl : spaced.text.length = 25 := by decide +kernel
  have hl' : commented.text.length = 30 := by decide +kernel
  exact ⟨⟨hs, hstart, by omega⟩, hc, hstart', by omega⟩

/-- A comment with a list of its own is read in place of the arguments. -/
theorem Convention.searchTree_hiddenParenthesis :
    let registration := gappedRegistration (ascii " # (obj=g)\n")
    Convention.default.searchTree (gappedSource (ascii " # (obj=g)\n")) = .ok [registration] ∧
      registration.parenthesis? = some 23 ∧
      ArgumentList.ofCall registration.text =
        ⟨[⟨ascii "obj", ascii "g", 16, 21⟩], 16, 21, none⟩ := by
  decide +kernel

end ManifestScan
