import ManifestScan.SourceIndex
import ManifestScan.UpgradeStep

namespace ManifestScan

namespace StepList

/-- The steps that one file registers for a class. A file in which the decorator's text does not
stand is not read as a script. -/
def ofFile (tree : FileTree) (index : SourceIndex) (className : Bytes) (file : FilePath) :
    StepList :=
  match tree.read? file with
  | none => ⟨[], [.unreadableFile file]⟩
  | some source =>
    if occursIn (UpgradeStep.mark className) source then
      ofModule source className (index.modulePath file)
    else empty

def rootWarnings (index : SourceIndex) : List Warning :=
  index.issues.map fun issue => .unusableDirectory issue.1 issue.2

/-- The steps of a class below a root. What cannot be walked below a root is reported once;
`reported` holds the roots seen before. -/
def search (tree : FileTree) (className : Bytes) (root : FilePath) (reported : List FilePath)
    (indexes : IndexCache) : StepList × List FilePath × IndexCache :=
  let (index, indexes) := indexes.lookUp tree root
  let found := (index.files.map (ofFile tree index className)).foldl append empty
  if reported.contains index.root then (found, reported, indexes)
  else (append ⟨[], rootWarnings index⟩ found, index.root :: reported, indexes)

end StepList

end ManifestScan
