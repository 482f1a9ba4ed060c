import ManifestScan.Proofs.Extraction.Congruence
import ManifestScan.Proofs.Extraction.Draft
import ManifestScan.Proofs.Text.Clause
import Mathlib.Data.List.Perm.Basic
import Mathlib.Data.List.Pairwise

namespace ManifestScan

open Draft (Field)

/-- Progress that keeps the signatures known at first, by indexes of the tree. -/
structure Progress.Keeps (workspace : Workspace) (memo : SignatureMemo) (progress : Progress) :
    Prop where
  signatures : progress.signatures = memo
  faithful : progress.indexes.Faithful workspace.tree

namespace Workspace

variable {workspace : Workspace} {progress : Progress} {first second : Bytes × Bytes}

/-- Until callables are completed, no signature is looked up. -/
theorem respects_keeps (workspace : Workspace) (memo : SignatureMemo) :
    workspace.Respects
      (fun first second => first.Keeps workspace memo ∧ second.Keeps workspace memo)
      fun _ => False where
  note text := by
    intro first second h
    exact ⟨⟨h.1.signatures, h.1.faithful⟩, ⟨h.2.signatures, h.2.faithful⟩⟩
  stepsOf className := by
    intro first second h
    have ha : first.Agrees workspace second :=
      ⟨h.1.signatures.trans h.2.signatures.symm, h.1.faithful, h.2.faithful⟩
    obtain ⟨hv, hn⟩ := (workspace.respects_agrees).stepsOf className ha
    exact ⟨hv, ⟨h.1.signatures, hn.faithful⟩, ⟨h.2.signatures, hn.faithful'⟩⟩
  callable h := h.elim

def valueAfresh? (workspace : Workspace) (text : Bytes) : Option Value :=
  match Classification.ofText workspace.imports text with
  | .classified value => some value
  | .unsupported _ => none
  | .decorated className =>
    some (.steps (StepList.afresh workspace.tree className workspace.stepRoot))

theorem toOption_valueOf (h : progress.indexes.Faithful workspace.tree) (text : Bytes) :
    (workspace.valueOf text progress).1.toOption = workspace.valueAfresh? text := by
  unfold valueOf valueAfresh?
  cases Classification.ofText workspace.imports text with
  | classified value => rfl
  | unsupported failure => rfl
  | decorated className =>
    unfold stepsOf
    dsimp only
    rw [StepList.search_steps _ _ _ h]
    rfl

/-- A draft with the argument `key=value`, if its field takes the value; without a field it is
left as it is. -/
def take (workspace : Workspace) (draft : Option Draft) (pair : Bytes × Bytes) : Option Draft :=
  match Field.ofKeyword? pair.1 with
  | none => draft
  | some field => draft.bind fun draft =>
    (workspace.valueAfresh? pair.2).bind fun value => draft.put? value field

theorem take_none (pair : Bytes × Bytes) : workspace.take none pair = none := by
  unfold take
  split <;> rfl

theorem foldl_take_none (pairs : List (Bytes × Bytes)) :
    pairs.foldl workspace.take none = none := by
  induction pairs with
  | nil => rfl
  | cons pair others ih => rw [List.foldl_cons, take_none, ih]

/-- Two arguments for different fields are taken in either order. -/
theorem take_comm (h : ∀ field, Field.ofKeyword? first.1 = some field →
    Field.ofKeyword? second.1 ≠ some field) (draft : Option Draft) :
    workspace.take (workspace.take draft first) second =
      workspace.take (workspace.take draft second) first := by
  unfold take
  cases hf : Field.ofKeyword? first.1 with
  | none => rfl
  | some field =>
    cases hs : Field.ofKeyword? second.1 with
    | none => rfl
    | some other =>
      have hne : field ≠ other := by
        rintro rfl
        exact h field hf hs
      dsimp only
      cases draft with
      | none => rfl
      | some draft =>
        cases workspace.valueAfresh? first.2 with
        | none => simp
        | some value =>
          cases workspace.valueAfresh? second.2 with
          | none => simp
          | some value' => exact Draft.put?_comm hne draft value value'

/-- Arguments with distinct keys are taken one after the other, whatever has been looked up. -/
theorem toOption_readArguments (callee : Bytes) {arguments : List KeywordArgument} {draft : Draft}
    {seen : List Bytes} (hk : (arguments.map (·.key)).Nodup)
    (hs : ∀ argument ∈ arguments, argument.key ∉ seen)
    (hi : progress.indexes.Faithful workspace.tree) :
    (workspace.readArguments callee draft seen progress arguments).1.toOption =
      (arguments.map fun argument => (argument.key, argument.value)).foldl workspace.take
        (some draft) := by
  induction arguments generalizing draft seen progress with
  | nil => rfl
  | cons argument others ih =>
    rw [List.map_cons, List.nodup_cons] at hk
    obtain ⟨hseen, hothers⟩ := List.forall_mem_cons.1 hs
    have hs' : ∀ other ∈ others, other.key ∉ argument.key :: seen := by
      intro other ho hm
      rcases List.mem_cons.1 hm with he | hm
      · exact hk.1 (List.mem_map.2 ⟨other, ho, he⟩)
      · exact hothers other ho hm
    have hv := toOption_valueOf hi argument.value
    have hn := (((workspace.respects_keeps progress.signatures).valueOf argument.value)
      ⟨⟨rfl, hi⟩, ⟨rfl, hi⟩⟩).2.1
    rw [readArguments, if_neg (by simpa using hseen), List.map_cons, List.foldl_cons]
    -- A key of no field takes nothing in, whatever its value is.
    cases hf : Field.ofKeyword? argument.key with
    | none =>
      have ht : workspace.take (some draft) (argument.key, argument.value) = some draft := by
        unfold take
        rw [hf]
      rw [ht]
      exact ih hk.2 hs' hi
    | some field =>
      have ht : workspace.take (some draft) (argument.key, argument.value) =
          (workspace.valueAfresh? argument.value).bind fun value => draft.put? value field := by
        unfold take
        rw [hf]
        rfl
      rw [ht, ← hv]
      dsimp only
      generalize workspace.valueOf argument.value progress = found at hn
      obtain ⟨outcome, next⟩ := found
      cases outcome with
      | error failure => exact (foldl_take_none _).symm
      | ok value =>
        have hset := Draft.toOption_set draft argument value field
        dsimp only [Except.toOption, Option.bind_some]
        rw [← hset]
        cases draft.set argument value field with
        | error failure => exact (foldl_take_none _).symm
        | ok draft => exact ih hk.2 hs' hn.faithful

/-- The order of arguments for different fields does not matter to the draft. -/
theorem foldl_take_perm {pairs others : List (Bytes × Bytes)} (h : pairs.Perm others)
    (hf : (pairs.filterMap fun pair => Field.ofKeyword? pair.1).Nodup) (draft : Option Draft) :
    pairs.foldl workspace.take draft = others.foldl workspace.take draft := by
  have hapart : ∀ first ∈ pairs, ∀ second ∈ pairs, first ≠ second → ∀ field,
      Field.ofKeyword? first.1 = some field → Field.ofKeyword? second.1 ≠ some field := by
    have hp := List.pairwise_filterMap.1 hf
    intro first hm second hm' hne field he he'
    have hs : Std.Symm fun first second : Bytes × Bytes =>
        ∀ field, Field.ofKeyword? first.1 = some field →
          ∀ other, Field.ofKeyword? second.1 = some other → field ≠ other :=
      ⟨fun _ _ h field hf other ho he => h other ho field hf he.symm⟩
    exact hp.forall hm hm' hne field he field he' rfl
  refine h.foldl_eq' (fun first hm second hm' draft => ?_) draft
  by_cases he : first = second
  · rw [he]
  · exact take_comm (hapart first hm second hm' he) draft

/-- Arguments with distinct keys and fields give the same draft, or none, in another order. -/
theorem readArguments_perm (hi : progress.indexes.Faithful workspace.tree) (callee : Bytes)
    {arguments others : List KeywordArgument}
    (hp : (arguments.map fun argument => (argument.key, argument.value)).Perm
      (others.map fun argument => (argument.key, argument.value)))
    (hk : (arguments.map (·.key)).Nodup)
    (hs : (arguments.filterMap fun argument => Field.ofKeyword? argument.key).Nodup) :
    (workspace.readArguments callee .empty [] progress arguments).1.toOption =
      (workspace.readArguments callee .empty [] progress others).1.toOption := by
  have hk' : (others.map (·.key)).Nodup := by
    have hkeys := (hp.map Prod.fst).nodup_iff
    rw [List.map_map, List.map_map] at hkeys
    exact hkeys.1 hk
  have hs' : ((arguments.map fun argument => (argument.key, argument.value)).filterMap
      fun pair => Field.ofKeyword? pair.1).Nodup := by
    rw [List.filterMap_map]
    exact hs
  rw [toOption_readArguments callee hk (fun _ _ => List.not_mem_nil) hi,
    toOption_readArguments callee hk' (fun _ _ => List.not_mem_nil) hi, foldl_take_perm hp hs']

/-- Reading arguments looks no signature up. -/
theorem keeps_readArguments (hi : progress.indexes.Faithful workspace.tree) (callee : Bytes)
    (arguments : List KeywordArgument) :
    (workspace.readArguments callee .empty [] progress arguments).2.Keeps workspace
      progress.signatures :=
  (((workspace.respects_keeps progress.signatures).readArguments callee .empty [] arguments)
    ⟨⟨rfl, hi⟩, ⟨rfl, hi⟩⟩).2.1

/-- A registration gives the same plugin, or none, as one whose arguments stand in another order. -/
theorem buildPlugin_perm (hi : progress.indexes.Faithful workspace.tree)
    {registration other : Registration} (hc : registration.callee = other.callee)
    (hf : (ArgumentList.ofCall registration.text).failure = none)
    (hf' : (ArgumentList.ofCall other.text).failure = none)
    (hp : ((ArgumentList.ofCall registration.text).arguments.map fun argument =>
        (argument.key, argument.value)).Perm
      ((ArgumentList.ofCall other.text).arguments.map fun argument =>
        (argument.key, argument.value)))
    (hk : ((ArgumentList.ofCall registration.text).arguments.map (·.key)).Nodup)
    (hs : ((ArgumentList.ofCall registration.text).arguments.filterMap fun argument =>
      Field.ofKeyword? argument.key).Nodup) :
    (workspace.buildPlugin registration progress).1.toOption =
      (workspace.buildPlugin other progress).1.toOption := by
  have hdraft := readArguments_perm hi registration.callee hp hk hs
  have hn := keeps_readArguments hi registration.callee
    (ArgumentList.ofCall registration.text).arguments
  have hn' := keeps_readArguments hi registration.callee (ArgumentList.ofCall other.text).arguments
  unfold buildPlugin
  rw [← hc]
  cases PluginKind.ofConstructor? registration.callee with
  | none => rfl
  | some kind =>
    dsimp only
    rw [hf, hf']
    dsimp only
    -- Both readings end with one draft or none, and neither has looked a signature up.
    generalize workspace.readArguments registration.callee .empty [] progress
      (ArgumentList.ofCall registration.text).arguments = found at hdraft hn
    generalize workspace.readArguments registration.callee .empty [] progress
      (ArgumentList.ofCall other.text).arguments = found' at hdraft hn'
    obtain ⟨outcome, next⟩ := found
    obtain ⟨outcome', next'⟩ := found'
    cases outcome with
    | error failure =>
      cases outcome' with
      | error failure' => rfl
      | ok draft => cases hdraft
    | ok draft =>
      cases outcome' with
      | error failure' => cases hdraft
      | ok draft' =>
        obtain rfl : draft = draft' := Option.some.inj hdraft
        dsimp only
        cases draft.finish kind with
        | error failure => rfl
        | ok plugin =>
          have ha : next.Agrees workspace next' :=
            ⟨hn.signatures.trans hn'.signatures.symm, hn.faithful, hn'.faithful⟩
          obtain ⟨he, -⟩ := (workspace.respects_agrees).completePlugin (fun _ _ => trivial) ha
          dsimp only
          rw [he]

/-- The order of keywords does not matter: where the keywords of a call are distinct and no two set
one field, its arguments can change places in the call text, and what is registered, if anything is,
stays the same. -/
theorem buildPlugin_reordered (hi : progress.indexes.Faithful workspace.tree)
    {registration : Registration} {order : List KeywordArgument}
    (hf : (ArgumentList.ofCall registration.text).failure = none)
    (hk : ((ArgumentList.ofCall registration.text).arguments.map (·.key)).Nodup)
    (hs : ((ArgumentList.ofCall registration.text).arguments.filterMap fun argument =>
      Field.ofKeyword? argument.key).Nodup)
    (ho : order.Perm (ArgumentList.ofCall registration.text).arguments) :
    let other := { registration with text := ArgumentList.reordered registration.text order }
    (ArgumentList.ofCall other.text).failure = none ∧
      ((ArgumentList.ofCall other.text).arguments.map fun argument =>
        (argument.key, argument.value)) =
          order.map (fun argument => (argument.key, argument.value)) ∧
      (workspace.buildPlugin other progress).1.toOption =
        (workspace.buildPlugin registration progress).1.toOption := by
  intro other
  obtain ⟨hfailure, hpairs⟩ := ArgumentList.ofCall_reordered hf ho
  refine ⟨hfailure, hpairs, ?_⟩
  have hp := (ho.map fun argument => (argument.key, argument.value)).symm
  rw [← hpairs] at hp
  apply Eq.symm
  exact buildPlugin_perm hi rfl hf hfailure hp hk hs

/-- A call with a comma in a literal and in a comment, a null value, an unknown keyword and a comma
behind the last argument. -/
def spacedCall : Registration where
  callee := ascii "ParserPlugin"
  offset := 0
  text := ascii "ParserPlugin(name='a,b', # , (\n obj = A, config=None, since=[1, 2],)"

/-- The last argument of this call moves to the front. -/
theorem buildPlugin_reordered_spaced :
    let imports : ImportTable := ⟨[(ascii "A", ⟨ascii "pkg", ascii "A"⟩)]⟩
    let workspace : Workspace := ⟨.empty (ascii "work"), imports, [], []⟩
    let progress : Progress := .start .empty [] []
    let moved := ascii "ParserPlugin( since=[1, 2],name='a,b', # , (\n obj = A, config=None,)"
    (workspace.buildPlugin { spacedCall with text := moved } progress).1.toOption =
        (workspace.buildPlugin spacedCall progress).1.toOption ∧
      (workspace.buildPlugin spacedCall progress).1.toOption.isSome = true := by
  intro imports workspace progress moved
  let arguments := (ArgumentList.ofCall spacedCall.text).arguments
  have hi : progress.indexes.Faithful workspace.tree := IndexCache.faithful_empty _
  have ho : (arguments.drop 3 ++ arguments.take 3).Perm arguments := by
    have hp := @List.perm_append_comm _ (arguments.drop 3) (arguments.take 3)
    rwa [List.take_append_drop] at hp
  have hm :
      ArgumentList.reordered spacedCall.text (arguments.drop 3 ++ arguments.take 3) = moved := by
    decide +kernel
  obtain ⟨-, -, he⟩ := @buildPlugin_reordered workspace progress hi spacedCall _ (by decide +kernel)
    (by decide +kernel) (by decide +kernel) ho
  rw [hm] at he
  exact ⟨he, by decide +kernel⟩

end Workspace

end ManifestScan
