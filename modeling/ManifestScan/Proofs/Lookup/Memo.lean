import ManifestScan.Proofs.Lookup.Faithful
import Mathlib.Data.List.Basic

namespace ManifestScan

structure SignatureSubject where
  module : Bytes
  name : Bytes
  kind : CallableKind
deriving DecidableEq

namespace SignatureSubject

/-- What the memo knows the subject by; the kind is no part of it. -/
def key (subject : SignatureSubject) : Bytes := SignatureMemo.key subject.module subject.name

def afresh (tree : FileTree) (roots : List FilePath) (subject : SignatureSubject) :
    Option Signature :=
  Signature.afresh tree roots subject.module subject.name subject.kind

/-- The subject that was asked for first among those that the memo does not tell from this one. -/
def firstAlike (asked : List SignatureSubject) (subject : SignatureSubject) : SignatureSubject :=
  (asked.find? (·.key == subject.key)).getD subject

theorem firstAlike_append (asked : List SignatureSubject) (subject : SignatureSubject)
    (others : List SignatureSubject) :
    subject.firstAlike (asked ++ subject :: others) = subject.firstAlike asked := by
  unfold firstAlike
  rw [List.find?_append, List.find?_cons, beq_self_eq_true]
  cases asked.find? (·.key == subject.key) <;> rfl

theorem firstAlike_eq_self {asked : List SignatureSubject} {subject : SignatureSubject}
    (h : ∀ other ∈ asked, other.key = subject.key → other = subject) :
    subject.firstAlike asked = subject := by
  unfold firstAlike
  cases hf : asked.find? (·.key == subject.key) with
  | none => rfl
  | some first => exact h first (List.mem_of_find?_eq_some hf) (beq_iff_eq.1 (List.find?_some hf :))

end SignatureSubject

inductive SignatureQuery where
  | signature (subject : SignatureSubject)
  | callable (target : Callable)

inductive SignatureAnswer where
  | signature (found : Option Signature)
  | callable (target : Callable)
deriving DecidableEq

structure SignatureStore where
  memo : SignatureMemo
  indexes : IndexCache

namespace SignatureQuery

def subject? : SignatureQuery → Option SignatureSubject
  | .signature subject => some subject
  | .callable target =>
    if target.module.isEmpty ∨ target.name.isEmpty then none
    else some ⟨target.module, target.name, target.kind⟩

def answerBy (find : SignatureSubject → Option Signature) : SignatureQuery → SignatureAnswer
  | .signature subject => .signature (find subject)
  | .callable target =>
    match subject? (.callable target) with
    | none => .callable target
    | some subject => .callable ((find subject).elim target target.withSignature)

def ask (tree : FileTree) (roots : List FilePath) (store : SignatureStore) :
    SignatureQuery → SignatureAnswer × SignatureStore
  | .signature subject =>
    let (found, memo, indexes) := Signature.lookUp tree roots subject.module subject.name
      subject.kind store.memo store.indexes
    (.signature found, ⟨memo, indexes⟩)
  | .callable target =>
    let (target, memo, indexes) := target.complete tree roots store.memo store.indexes
    (.callable target, ⟨memo, indexes⟩)

def askAll (tree : FileTree) (roots : List FilePath) (store : SignatureStore) :
    List SignatureQuery → List SignatureAnswer
  | [] => []
  | query :: others =>
    let (answer, store) := query.ask tree roots store
    answer :: askAll tree roots store others

def askAfresh (tree : FileTree) (roots : List FilePath) (query : SignatureQuery) :
    SignatureAnswer :=
  (query.ask tree roots ⟨.empty, .empty⟩).1

def subjects (queries : List SignatureQuery) : List SignatureSubject := queries.filterMap subject?

end SignatureQuery

variable {tree : FileTree} {roots : List FilePath}

/-- The memo keeps what a search finds for the first subject of each key. -/
def SignatureMemo.Records (tree : FileTree) (roots : List FilePath) (memo : SignatureMemo)
    (asked : List SignatureSubject) : Prop :=
  ∀ key, memo.entries.lookup key = (asked.find? (·.key == key)).map (·.afresh tree roots)

theorem SignatureMemo.records_empty : SignatureMemo.empty.Records tree roots [] := fun _ => rfl

/-- One look-up: what is found, and what is kept of it. -/
theorem SignatureMemo.Records.lookUp {memo : SignatureMemo} {asked : List SignatureSubject}
    {indexes : IndexCache} (h : memo.Records tree roots asked) (hi : indexes.Faithful tree)
    (subject : SignatureSubject) :
    let result := Signature.lookUp tree roots subject.module subject.name subject.kind memo indexes
    result.1 = (subject.firstAlike asked).afresh tree roots ∧
      result.2.1.Records tree roots (asked ++ [subject]) ∧ result.2.2.Faithful tree := by
  have hkey := h subject.key
  have hs : ∀ key, (asked ++ [subject]).find? (·.key == key) =
      (asked.find? (·.key == key)).or (if subject.key == key then some subject else none) := by
    intro key
    rw [List.find?_append, List.find?_singleton]
  unfold Signature.lookUp SignatureSubject.firstAlike
  rw [← SignatureSubject.key]
  -- A subject whose key was asked for before is answered from the memo.
  cases hf : asked.find? (·.key == subject.key) with
  | some first =>
    rw [hf, Option.map_some] at hkey
    rw [hkey]
    refine ⟨rfl, fun key => ?_, hi⟩
    rw [h key, hs]
    by_cases hk : (subject.key == key) = true
    · rw [← beq_iff_eq.1 hk, hf]
      rfl
    · rw [if_neg hk, Option.or_none]
  | none =>
    rw [hf, Option.map_none] at hkey
    rw [hkey]
    have hfound : (Signature.search tree (Signature.moduleParts subject.module) subject.name
        subject.kind indexes roots).1.found = subject.afresh tree roots :=
      congrArg SignatureSearch.found
        (Signature.search_fst_eq hi (IndexCache.faithful_empty tree) roots)
    refine ⟨hfound, fun key => ?_, Signature.search_faithful hi roots⟩
    dsimp only
    rw [hs, List.lookup_cons]
    by_cases hk : (subject.key == key) = true
    · rw [if_pos hk, ← beq_iff_eq.1 hk, hf, beq_self_eq_true, hfound]
      rfl
    · have hk' : (key == subject.key) = false := by
        rw [Bool.beq_comm]
        simpa using hk
      rw [if_neg hk, hk', h key, Option.or_none]

namespace SignatureQuery

structure Reached (tree : FileTree) (roots : List FilePath) (store : SignatureStore)
    (asked : List SignatureSubject) : Prop where
  records : store.memo.Records tree roots asked
  faithful : store.indexes.Faithful tree

theorem reached_empty : Reached tree roots ⟨.empty, .empty⟩ [] :=
  ⟨SignatureMemo.records_empty, IndexCache.faithful_empty tree⟩

variable {store : SignatureStore} {asked : List SignatureSubject}

theorem Reached.ask (h : Reached tree roots store asked) (query : SignatureQuery) :
    (query.ask tree roots store).1 =
        query.answerBy (fun subject => (subject.firstAlike asked).afresh tree roots) ∧
      Reached tree roots (query.ask tree roots store).2 (asked ++ query.subject?.toList) := by
  cases query with
  | signature subject =>
    obtain ⟨hfound, hrecords, hfaithful⟩ := h.records.lookUp h.faithful subject
    exact ⟨congrArg SignatureAnswer.signature hfound, hrecords, hfaithful⟩
  | callable target =>
    by_cases hn : target.module.isEmpty ∨ target.name.isEmpty
    · have hs : subject? (.callable target) = none := if_pos hn
      have hc : target.complete tree roots store.memo store.indexes =
          (target, store.memo, store.indexes) := if_pos hn
      rw [answerBy, SignatureQuery.ask, hs, hc, Option.toList_none, List.append_nil]
      exact ⟨rfl, h⟩
    · have hs : subject? (.callable target) = some ⟨target.module, target.name, target.kind⟩ :=
        if_neg hn
      obtain ⟨hfound, hrecords, hfaithful⟩ :=
        h.records.lookUp h.faithful ⟨target.module, target.name, target.kind⟩
      rw [answerBy, SignatureQuery.ask, hs, Callable.complete, if_neg hn]
      refine ⟨?_, hrecords, hfaithful⟩
      exact congrArg (fun found => SignatureAnswer.callable
        (found.elim target target.withSignature)) hfound

theorem askAfresh_eq (query : SignatureQuery) :
    query.askAfresh tree roots = query.answerBy (·.afresh tree roots) :=
  (reached_empty.ask query).1

theorem answerBy_congr {find find' : SignatureSubject → Option Signature} {query : SignatureQuery}
    (h : ∀ subject ∈ query.subject?, find subject = find' subject) :
    query.answerBy find = query.answerBy find' := by
  cases query with
  | signature subject => exact congrArg SignatureAnswer.signature (h subject rfl)
  | callable target =>
    rw [answerBy, answerBy]
    cases hs : subject? (.callable target) with
    | none => rfl
    | some subject =>
      dsimp only
      rw [h subject hs]

theorem subjects_cons (query : SignatureQuery) (others : List SignatureQuery) :
    subjects (query :: others) = query.subject?.toList ++ subjects others := by
  rw [subjects, List.filterMap_cons]
  cases query.subject? <;> rfl

theorem Reached.askAll (h : Reached tree roots store asked) (queries : List SignatureQuery) :
    askAll tree roots store queries = queries.map (answerBy fun subject =>
      (subject.firstAlike (asked ++ subjects queries)).afresh tree roots) := by
  induction queries generalizing store asked with
  | nil => rfl
  | cons query others ih =>
    obtain ⟨hanswer, hreached⟩ := h.ask query
    rw [List.map_cons, SignatureQuery.askAll, subjects_cons, ← List.append_assoc, ← ih hreached]
    refine congrArg (· :: _) (hanswer.trans (answerBy_congr fun subject hs => ?_))
    -- Among the subjects with its key none comes first from behind the query's own.
    rw [hs, Option.toList_some, List.append_assoc, List.singleton_append,
      SignatureSubject.firstAlike_append]

/-- A memo that starts empty answers every query of a sequence for the first subject with its key.
Where no two subjects share a key, it answers as if nothing had been asked before. -/
theorem askAll_eq_map (tree : FileTree) (roots : List FilePath) (queries : List SignatureQuery) :
    SignatureQuery.askAll tree roots ⟨.empty, .empty⟩ queries = queries.map (answerBy fun subject =>
        (subject.firstAlike (subjects queries)).afresh tree roots) ∧
      ((∀ subject ∈ subjects queries, ∀ other ∈ subjects queries, subject.key = other.key →
          subject = other) →
        SignatureQuery.askAll tree roots ⟨.empty, .empty⟩ queries =
          queries.map (askAfresh tree roots)) := by
  have hall := (@reached_empty tree roots).askAll queries
  refine ⟨hall, fun hkey => hall.trans (List.map_congr_left fun query hq => ?_)⟩
  rw [askAfresh_eq]
  refine answerBy_congr fun subject hs => ?_
  have hmem : subject ∈ subjects queries := List.mem_filterMap.2 ⟨query, hq, hs⟩
  rw [List.nil_append, SignatureSubject.firstAlike_eq_self fun other ho h => ?_]
  exact (hkey subject hmem other ho h.symm).symm

/-- A tree whose only file defines a class and a function of one name. -/
def twoOfAName : FileTree :=
  ⟨.directory [(ascii "work", .directory [(ascii "m.py",
    .file (ascii "class x:\n    a: int\ndef x(b):\n    return b\n"))])], ascii "/work", none⟩

theorem askAll_eq_map_again :
    let function : SignatureSubject := ⟨ascii "m", ascii "x", .function⟩
    let queries := [signature function,
      callable ⟨ascii "m", ascii "x", .function, none, []⟩, signature function]
    (∀ subject ∈ subjects queries, ∀ other ∈ subjects queries, subject.key = other.key →
        subject = other) ∧
      SignatureQuery.askAll twoOfAName [ascii "/work"] ⟨.empty, .empty⟩ queries =
        queries.map (askAfresh twoOfAName [ascii "/work"]) := by
  intro function queries
  have hkey : ∀ subject ∈ subjects queries, ∀ other ∈ subjects queries, subject.key = other.key →
      subject = other := by decide +kernel
  exact ⟨hkey, (askAll_eq_map twoOfAName [ascii "/work"] queries).2 hkey⟩

/-- The class is looked up first, and the function gets what was found for the class. -/
theorem askAll_otherKind :
    let queries := [signature ⟨ascii "m", ascii "x", .type⟩,
      signature ⟨ascii "m", ascii "x", .function⟩]
    SignatureQuery.askAll twoOfAName [ascii "/work"] ⟨.empty, .empty⟩ queries ≠
      queries.map (askAfresh twoOfAName [ascii "/work"]) := by
  decide +kernel

end SignatureQuery

end ManifestScan
