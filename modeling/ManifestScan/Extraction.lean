import ManifestScan.File.Path
import ManifestScan.Plugin
import ManifestScan.Problem
import ManifestScan.Registration

namespace ManifestScan

/-- What to extract and where to look. An empty path stands for none. -/
structure ExtractionRequest where
  /-- The registration file; without one it is looked for. -/
  entryFile : FilePath
  packageDirectory : FilePath
  packageName : Bytes
  /-- The first root for steps and signatures. -/
  searchRoot : FilePath
  environment : FilePath
  workingDirectory : FilePath
  version : Option Bytes
  group : Bytes
  function : Option Bytes
  list : Bytes
  strategy : Strategy
deriving DecidableEq, Repr

/-- An extraction as it is reported: a manifest if there is one, the diagnostics in the order in
which they came up, and remarks on the progress. -/
structure Report where
  manifest : Option Manifest
  diagnostics : List Diagnostic
  notes : List Bytes
deriving DecidableEq

namespace Report

def empty : Report := ⟨none, [], []⟩

def push (report : Report) (diagnostics : List Diagnostic) : Report :=
  { report with diagnostics := report.diagnostics ++ diagnostics }

def note (report : Report) (notes : List Bytes) : Report :=
  { report with notes := report.notes ++ notes }

/-- The last diagnostic that is no warning, where there is no manifest. -/
def fatal? (report : Report) : Option Diagnostic :=
  match report.manifest with
  | some _ => none
  | none => report.diagnostics.reverse.find? (!·.isWarning)

end Report

structure Extraction where
  outcome : Except Failure Manifest
  /-- What was left out, in the order in which it was found. -/
  warnings : List Warning
  /-- Remarks on the progress. -/
  notes : List Bytes

namespace Extraction

def manifest? (extraction : Extraction) : Option Manifest := extraction.outcome.toOption

def failure? (extraction : Extraction) : Option Failure :=
  match extraction.outcome with
  | .error failure => some failure
  | .ok _ => none

def problems (extraction : Extraction) : List Problem :=
  extraction.warnings.map .warning ++ (extraction.failure?.map .failure).toList

def report (extraction : Extraction) : Report :=
  ⟨extraction.manifest?, extraction.problems.map (·.diagnostic), extraction.notes⟩

def after (extraction : Extraction) (warnings : List Warning) (notes : List Bytes) : Extraction :=
  { extraction with
    warnings := warnings ++ extraction.warnings
    notes := notes ++ extraction.notes }

end Extraction

end ManifestScan
