import ManifestScan.Proofs.Document.Rendering

namespace ManifestScan

open Document

/-- The value, if no control byte stands in the texts. -/
def ifPlain {α : Type} (texts : List Bytes) (value : α) : Option α :=
  if texts.all isPlain then some value else none

theorem bind_ifPlain {α β : Type} (texts others : List Bytes) (value : α) (f : α → β) :
    ((ifPlain texts value).bind fun a => ifPlain others (f a)) =
      ifPlain (texts ++ others) (f value) := by
  unfold ifPlain
  by_cases ht : texts.all isPlain = true <;> simp [ht]

theorem map_ifPlain {α β : Type} (texts : List Bytes) (value : α) (f : α → β) :
    (ifPlain texts value).map f = ifPlain texts (f value) := by
  unfold ifPlain
  split <;> rfl

/-- The value holds the texts, takes over the defaults and says what the document does. -/
structure Conveys (value : Json) (texts defaults : List Bytes) (document : Document) : Prop where
  verbatims : value.verbatims = defaults
  meaning : (∀ text ∈ defaults, (read? text).isSome) → value.meaning? = ifPlain texts document

structure MembersConvey (members : List (Bytes × Json)) (texts defaults : List Bytes)
    (entries : List (Bytes × Document)) : Prop where
  verbatims : Json.membersVerbatims members = defaults
  meaning : (∀ text ∈ defaults, (read? text).isSome) →
    Json.membersMeaning? members = ifPlain texts entries

theorem conveys_string (text : Bytes) : Conveys (.string text) [text] [] (.string text) := by
  refine ⟨rfl, fun _ => ?_⟩
  simp [Json.meaning?, ifPlain]

theorem conveys_word {text : Bytes} (ht : isPlain text = true) :
    Conveys (.string text) [] [] (.string text) := by
  refine ⟨rfl, fun _ => ?_⟩
  simp [Json.meaning?, ifPlain, ht]

theorem conveys_boolean (value : Bool) : Conveys (.boolean value) [] [] (.boolean value) :=
  ⟨rfl, fun _ => rfl⟩

theorem conveys_null : Conveys .null [] [] .null := ⟨rfl, fun _ => rfl⟩

theorem conveys_number (n : Int) : Conveys (.number n) [] [] (.number n) := ⟨rfl, fun _ => rfl⟩

theorem conveys_verbatim (text : Bytes) : Conveys (.verbatim text) [] [text] (ofText text) := by
  refine ⟨rfl, fun h => ?_⟩
  obtain ⟨document, hd⟩ := Option.isSome_iff_exists.1 (h text (by simp))
  simp [Json.meaning?, ofText, hd, ifPlain]

namespace MembersConvey

theorem nil : MembersConvey [] [] [] [] := ⟨rfl, fun _ => rfl⟩

theorem cons {key : Bytes} {value : Json} {texts defaults others more : List Bytes}
    {document : Document} {members : List (Bytes × Json)} {entries : List (Bytes × Document)}
    (h : Conveys value texts defaults document) (h' : MembersConvey members others more entries) :
    MembersConvey ((key, value) :: members) (texts ++ others) (defaults ++ more)
      ((key, document) :: entries) := by
  refine ⟨?_, fun hd => ?_⟩
  · rw [Json.membersVerbatims, Json.memberVerbatims, h.verbatims, h'.verbatims]
  · rw [Json.membersMeaning?, Json.memberMeaning?,
      h.meaning fun text ht => hd text (List.mem_append_left _ ht),
      h'.meaning fun text ht => hd text (List.mem_append_right _ ht), map_ifPlain]
    simp only [map_ifPlain]
    exact bind_ifPlain texts others (key, document) (· :: entries)

theorem membersVerbatims_append (members others : List (Bytes × Json)) :
    Json.membersVerbatims (members ++ others) =
      Json.membersVerbatims members ++ Json.membersVerbatims others := by
  induction members with
  | nil => rfl
  | cons member members ih => simp [Json.membersVerbatims, ih]

theorem membersMeaning?_append (members others : List (Bytes × Json)) :
    Json.membersMeaning? (members ++ others) =
      (Json.membersMeaning? members).bind fun found =>
        (Json.membersMeaning? others).map (found ++ ·) := by
  induction members with
  | nil => simp [Json.membersMeaning?]
  | cons member members ih =>
    simp only [List.cons_append, Json.membersMeaning?, ih]
    cases Json.memberMeaning? member with
    | none => rfl
    | some entry => cases Json.membersMeaning? members <;> simp [Function.comp_def]

theorem append {members members' : List (Bytes × Json)} {texts defaults others more : List Bytes}
    {entries entries' : List (Bytes × Document)} (h : MembersConvey members texts defaults entries)
    (h' : MembersConvey members' others more entries') :
    MembersConvey (members ++ members') (texts ++ others) (defaults ++ more)
      (entries ++ entries') := by
  refine ⟨?_, fun hd => ?_⟩
  · rw [membersVerbatims_append, h.verbatims, h'.verbatims]
  · rw [membersMeaning?_append, h.meaning fun text ht => hd text (List.mem_append_left _ ht),
      h'.meaning fun text ht => hd text (List.mem_append_right _ ht)]
    simp only [map_ifPlain]
    exact bind_ifPlain texts others entries (· ++ entries')

end MembersConvey

theorem conveys_object {members : List (Bytes × Json)} {texts defaults : List Bytes}
    {entries : List (Bytes × Document)} (h : MembersConvey members texts defaults entries) :
    Conveys (.object members) texts defaults (.object entries) := by
  refine ⟨?_, fun hd => ?_⟩
  · rw [Json.verbatims, h.verbatims]
  · rw [Json.meaning?, h.meaning hd, map_ifPlain]

section

variable {α : Type} {toJson : α → Json} {texts defaults : α → List Bytes} {tree : α → Document}

theorem membersConvey_map (key : α → Bytes) {list : List α}
    (h : ∀ a ∈ list, Conveys (toJson a) (texts a) (defaults a) (tree a)) :
    MembersConvey (list.map fun a => (key a, toJson a)) (list.flatMap texts) (list.flatMap defaults)
      (list.map fun a => (key a, tree a)) := by
  induction list with
  | nil => exact .nil
  | cons a list ih =>
    exact .cons (h a (by simp)) (ih fun b hb => h b (by simp [hb]))

theorem conveys_array {list : List α}
    (h : ∀ a ∈ list, Conveys (toJson a) (texts a) (defaults a) (tree a)) :
    Conveys (.array (list.map toJson)) (list.flatMap texts) (list.flatMap defaults)
      (.array (list.map tree)) := by
  -- Both halves by one induction on the list.
  have he : Json.elementsVerbatims (list.map toJson) = list.flatMap defaults ∧
      ((∀ text ∈ list.flatMap defaults, (read? text).isSome) →
        Json.elementsMeaning? (list.map toJson) =
          ifPlain (list.flatMap texts) (list.map tree)) := by
    induction list with
    | nil => exact ⟨rfl, fun _ => rfl⟩
    | cons a list ih =>
      have ha := h a (by simp)
      obtain ⟨hv, hm⟩ := ih fun b hb => h b (by simp [hb])
      simp only [List.flatMap_cons, List.map_cons, List.mem_append]
      refine ⟨?_, fun hd => ?_⟩
      · rw [Json.elementsVerbatims, ha.verbatims, hv]
      · rw [Json.elementsMeaning?, ha.meaning fun text ht => hd text (.inl ht),
          hm fun text ht => hd text (.inr ht)]
        simp only [map_ifPlain]
        exact bind_ifPlain (texts a) _ (tree a) (· :: list.map tree)
  refine ⟨?_, fun hd => ?_⟩
  · rw [Json.verbatims, he.1]
  · rw [Json.meaning?, he.2 hd, map_ifPlain]

end

theorem isPlain_kind (kind : CallableKind) : isPlain kind.name = true := by
  cases kind <;> decide

theorem isPlain_pluginKind (kind : PluginKind) : isPlain kind.name = true := by
  cases kind <;> decide

theorem isPlain_upgradeKind (kind : UpgradeKind) : isPlain kind.name = true := by
  cases kind <;> decide

def RecordConveys (members : List (String × Json)) (texts defaults : List Bytes)
    (entries : List (String × Document)) : Prop :=
  MembersConvey (members.map fun (key, value) => (ascii key, value)) texts defaults
    (entries.map fun (key, value) => (ascii key, value))

namespace RecordConveys

variable {members more : List (String × Json)} {texts defaults texts' defaults' : List Bytes}
  {entries others : List (String × Document)} {value : Json} {document : Document}

theorem single (key : String) (h : Conveys value texts defaults document) :
    RecordConveys [(key, value)] texts defaults [(key, document)] := by
  have hs :
      MembersConvey [(ascii key, value)] (texts ++ []) (defaults ++ []) [(ascii key, document)] :=
    .cons h .nil
  simpa [RecordConveys] using hs

theorem cons (key : String) (h : Conveys value texts defaults document)
    (hm : RecordConveys members texts' defaults' entries) :
    RecordConveys ((key, value) :: members) (texts ++ texts') (defaults ++ defaults')
      ((key, document) :: entries) :=
  MembersConvey.cons h hm

theorem append (h : RecordConveys members texts defaults entries)
    (hm : RecordConveys more texts' defaults' others) :
    RecordConveys (members ++ more) (texts ++ texts') (defaults ++ defaults')
      (entries ++ others) := by
  unfold RecordConveys
  rw [List.map_append, List.map_append]
  exact MembersConvey.append h hm

/-- A member that is there only with a value. -/
theorem optional {α : Type} (key : String) (value : Option α) {toJson : α → Json}
    {texts defaults : α → List Bytes} {tree : α → Document}
    (h : ∀ a, Conveys (toJson a) (texts a) (defaults a) (tree a)) :
    RecordConveys (Json.optional key (value.map toJson)) (value.toList.flatMap texts)
      (value.toList.flatMap defaults) (member? key (value.map tree)) := by
  cases value with
  | none => exact MembersConvey.nil
  | some a => simpa [Json.optional, member?] using single key (h a)

theorem conveys (h : RecordConveys members texts defaults entries) (ht : texts' = texts)
    (hd : defaults' = defaults) :
    Conveys (.record members) texts' defaults' (.record entries) := by
  rw [ht, hd]
  exact conveys_object h

end RecordConveys

theorem Parameter.conveys (parameter : Parameter) :
    Conveys parameter.toJson parameter.texts parameter.defaults parameter.tree := by
  refine (((RecordConveys.optional "annotation" parameter.hint conveys_string).append
    (.optional "default" parameter.default conveys_verbatim)).append
      (.single "is_required" (conveys_boolean _))).conveys ?_ ?_
  · simp [texts]
  · simp [defaults]

theorem Callable.conveys (callable : Callable) :
    Conveys callable.toJson callable.texts callable.defaults callable.tree := by
  have hr : Conveys (callable.returns.elim .null .string) callable.returns.toList []
      (callable.returns.elim .null .string) := by
    cases callable.returns with
    | none => exact conveys_null
    | some text => exact conveys_string text
  have hp :=
    conveys_object (membersConvey_map (·.name) fun p (_ : p ∈ callable.parameters) => p.conveys)
  refine (RecordConveys.cons "module" (conveys_string _) (.cons "name" (conveys_string _)
    (.cons "type" (conveys_word (isPlain_kind _)) (.cons "return_annotation" hr
      (.single "parameters" hp))))).conveys ?_ ?_
  · simp [texts]
  · simp [defaults]

theorem UpgradeStep.conveys (step : UpgradeStep) :
    Conveys step.toJson step.texts step.defaults step.tree := by
  refine (((RecordConveys.cons "name" (conveys_string _) (.cons "func" step.function.conveys
    (.cons "target_version" (conveys_string _)
      (.cons "upgrade_type" (conveys_word (isPlain_upgradeKind _))
      (.single "priority" (conveys_number _)))))).append
        (.optional "min_version" step.minVersion conveys_string)).append
          (.optional "max_version" step.maxVersion conveys_string)).conveys ?_ ?_
  · simp [texts]
  · simp [defaults]

theorem conveys_steps (steps : List UpgradeStep) :
    Conveys (stepsToJson steps) (steps.flatMap (·.texts)) (steps.flatMap (·.defaults))
      (.array (steps.map (·.tree))) :=
  conveys_array fun step _ => step.conveys

theorem Value.conveys (value : Value) :
    Conveys value.toJson value.texts value.defaults value.tree := by
  cases value with
  | null => exact conveys_null
  | boolean value => exact conveys_boolean value
  | string text => exact conveys_string text
  | emptyArray => exact ⟨rfl, fun _ => rfl⟩
  | callable target => exact target.conveys
  | steps list => exact conveys_steps list
  | expression text => exact conveys_string text

theorem Plugin.conveys (plugin : Plugin) :
    Conveys plugin.toJson plugin.texts plugin.defaults plugin.tree := by
  refine (RecordConveys.append (.append (.append (.append (.append (.append (.append (.append
    (.cons "name" (conveys_string _) (.cons "plugin_type" (conveys_word (isPlain_pluginKind _))
      (.single "obj" plugin.callable.conveys)))
    (.optional "call_method" plugin.callMethod conveys_string))
    (.optional "config" plugin.config Callable.conveys))
    (.optional "io_type" plugin.ioType conveys_string))
    (.optional "requires_store" plugin.requiresStore conveys_boolean))
    (.optional "version_strategy" plugin.versionStrategy Value.conveys))
    (.optional "version_reader" plugin.versionReader Value.conveys))
    (.optional "upgrade_steps" plugin.upgradeSteps conveys_steps))
    (.optional "description" plugin.description conveys_string)).conveys ?_ ?_
  · simp [texts]
  · have hn : ∀ {α : Type} (list : List α), list.flatMap (fun _ => ([] : List Bytes)) = [] :=
      fun list => List.flatMap_eq_nil_iff.2 fun _ _ => rfl
    simp [defaults, hn]

theorem Manifest.conveys (manifest : Manifest) :
    Conveys manifest.toJson manifest.texts manifest.defaults manifest.tree := by
  have hp := conveys_array fun plugin (_ : plugin ∈ manifest.plugins) => plugin.conveys
  have hm : Conveys (.object []) [] [] (.object []) := ⟨rfl, fun _ => rfl⟩
  refine (RecordConveys.cons "name" (conveys_string _) (.cons "plugins" hp
    (.single "metadata" hm))).conveys ?_ ?_
  · simp [texts]
  · simp [defaults]

namespace Manifest

/-- The file of a manifest reads back as all that the manifest holds, exactly if no control byte
stands in a string value. Otherwise it is no document at all. -/
theorem read_render (manifest : Manifest)
    (hd : ∀ text ∈ manifest.defaults, (read? text).isSome) :
    read? manifest.render = if manifest.texts.all isPlain then some manifest.tree else none := by
  have hc := manifest.conveys
  rw [render, Json.read?_document (by rwa [hc.verbatims]), hc.meaning hd]
  rfl

/-- A plugin whose parameter has a control byte in its name and a document as its default. -/
def keyedManifest : Manifest :=
  ⟨ascii "demo", [⟨ascii "x", .reader,
    ⟨ascii "pkg", ascii "\"A\"", .type, none,
      [⟨ascii "a\nb", none, some (ascii "[-1.5e2, \x7b\"k\":null\x7d]"), false⟩]⟩,
    none, none, none, none, none, none, none, none⟩]⟩

theorem read_render_keyed :
    (∀ text ∈ keyedManifest.defaults, (read? text).isSome) ∧
      read? keyedManifest.render = some keyedManifest.tree := by
  have hd : ∀ text ∈ keyedManifest.defaults, (read? text).isSome := by decide +kernel
  refine ⟨hd, ?_⟩
  rw [read_render keyedManifest hd]
  exact if_pos (by decide)

/-- A name of two lines stands on two lines of the file. -/
theorem unreadable_lineFeed :
    (∀ text ∈ defaults ⟨ascii "a\nb", []⟩, (read? text).isSome) ∧
      read? (render ⟨ascii "a\nb", []⟩) = none := by
  refine ⟨by decide, ?_⟩
  rw [← Option.isNone_iff_eq_none]
  decide +kernel

end Manifest

end ManifestScan
