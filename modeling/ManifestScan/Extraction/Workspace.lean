import ManifestScan.Classification
import ManifestScan.Manifest.Draft
import ManifestScan.Registration
import ManifestScan.SignatureSearch
import ManifestScan.StepSearch

namespace ManifestScan

structure Progress where
  indexes : IndexCache
  signatures : SignatureMemo
  /-- The roots whose issues are reported. -/
  reported : List FilePath
  warnings : List Warning
  notes : List Bytes

namespace Progress

def start (indexes : IndexCache) (warnings : List Warning) (notes : List Bytes) : Progress :=
  ⟨indexes, .empty, [], warnings, notes⟩

def note (progress : Progress) (text : Bytes) : Progress :=
  { progress with notes := progress.notes ++ [text] }

def warn (progress : Progress) (warnings : List Warning) : Progress :=
  { progress with warnings := progress.warnings ++ warnings }

end Progress

structure Workspace where
  tree : FileTree
  imports : ImportTable
  roots : List FilePath
  stepRoot : FilePath

namespace Workspace

def stepsOf (workspace : Workspace) (className : Bytes) (progress : Progress) :
    Value × Progress :=
  let (found, reported, indexes) := StepList.search workspace.tree className workspace.stepRoot
    progress.reported progress.indexes
  (.steps found.steps,
    ({ progress with reported := reported, indexes := indexes }.warn found.warnings).note
      (ascii "found " ++ decimal found.steps.length ++ ascii " " ++ named className ++
        ascii " steps under " ++ workspace.stepRoot))

def valueOf (workspace : Workspace) (text : Bytes) (progress : Progress) :
    Except Failure Value × Progress :=
  match Classification.ofText workspace.imports text with
  | .classified value => (.ok value, progress)
  | .unsupported failure => (.error failure, progress)
  | .decorated className =>
    let (value, progress) := workspace.stepsOf className progress
    (.ok value, progress)

/-- Takes in the arguments of a call in their order; `seen` holds the keys before. -/
def readArguments (workspace : Workspace) (callee : Bytes) (draft : Draft) (seen : List Bytes)
    (progress : Progress) : List KeywordArgument → Except Failure Draft × Progress
  | [] => (.ok draft, progress)
  | argument :: others =>
    if seen.contains argument.key then (.error (.repeatedKeyword argument.key), progress)
    else
      match Draft.Field.ofKeyword? argument.key with
      | none =>
        readArguments workspace callee draft (argument.key :: seen)
          (progress.note (ascii "ignored keyword " ++ named argument.key ++ ascii " of " ++ callee))
          others
      | some field =>
        match workspace.valueOf argument.value progress with
        | (.error failure, progress) => (.error failure, progress)
        | (.ok value, progress) =>
          match draft.set argument value field with
          | .error failure => (.error failure, progress)
          | .ok draft =>
            readArguments workspace callee draft (argument.key :: seen) progress others

def completeCallable (workspace : Workspace) (callable : Callable) (progress : Progress) :
    Callable × Progress :=
  let (callable, signatures, indexes) :=
    callable.complete workspace.tree workspace.roots progress.signatures progress.indexes
  (callable, { progress with signatures := signatures, indexes := indexes })

def completeValue (workspace : Workspace) (value : Value) (progress : Progress) :
    Value × Progress :=
  match value with
  | .callable target =>
    let (target, progress) := workspace.completeCallable target progress
    (.callable target, progress)
  | other => (other, progress)

def completeOption {α : Type} (complete : α → Progress → α × Progress) (value : Option α)
    (progress : Progress) : Option α × Progress :=
  match value with
  | none => (none, progress)
  | some value =>
    let (value, progress) := complete value progress
    (some value, progress)

def completePlugin (workspace : Workspace) (plugin : Plugin) (progress : Progress) :
    Plugin × Progress :=
  let (callable, progress) := workspace.completeCallable plugin.callable progress
  let (config, progress) := completeOption workspace.completeCallable plugin.config progress
  let (strategy, progress) := completeOption workspace.completeValue plugin.versionStrategy progress
  let (reader, progress) := completeOption workspace.completeValue plugin.versionReader progress
  ({ plugin with
    callable := callable
    config := config
    versionStrategy := strategy
    versionReader := reader }, progress)

def buildPlugin (workspace : Workspace) (registration : Registration) (progress : Progress) :
    Except Failure Plugin × Progress :=
  match PluginKind.ofConstructor? registration.callee with
  | none => (.error (.unknownConstructor registration.callee), progress)
  | some kind =>
    let parsed := ArgumentList.ofCall registration.text
    match parsed.failure with
    | some failure => (.error failure, progress)
    | none =>
      match workspace.readArguments registration.callee .empty [] progress parsed.arguments with
      | (.error failure, progress) => (.error failure, progress)
      | (.ok draft, progress) =>
        match draft.finish kind with
        | .error failure => (.error failure, progress)
        | .ok plugin =>
          let (plugin, progress) := workspace.completePlugin plugin progress
          (.ok plugin, progress)

/-- Adds a plugin behind those before unless its name is taken. -/
def addPlugin (ordinal : Nat) (callee : Bytes) (plugins : List Plugin) (plugin : Plugin)
    (progress : Progress) : List Plugin × Progress :=
  if plugins.any (·.name == plugin.name) then
    (plugins, progress.warn [.duplicateName plugin.name ordinal callee])
  else
    (plugins ++ [plugin], progress.note (ascii "plugin " ++ named plugin.name ++ ascii " -> " ++
      plugin.callable.module ++ ascii ":" ++ plugin.callable.name))

/-- The plugins of the registrations, the first of which has the given ordinal. -/
def buildPlugins (workspace : Workspace) (ordinal : Nat) (plugins : List Plugin)
    (progress : Progress) : List Registration → List Plugin × Progress
  | [] => (plugins, progress)
  | registration :: others =>
    let (plugins, progress) :=
      match workspace.buildPlugin registration progress with
      | (.error failure, progress) =>
        (plugins, progress.warn [.skippedRegistration ordinal registration.callee failure])
      | (.ok plugin, progress) => addPlugin ordinal registration.callee plugins plugin progress
    buildPlugins workspace (ordinal + 1) plugins progress others

end Workspace

end ManifestScan
