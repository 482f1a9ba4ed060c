import ManifestScan.Run

namespace ManifestScan.Disk

def bytesOf (text : String) : Bytes := text.toUTF8.toList

def textOf (bytes : Bytes) : String := (String.fromUTF8? ⟨bytes.toArray⟩).getD ""

/-- The files whose content may count. -/
def isRead (path : String) : Bool :=
  path.endsWith ".py" || path.endsWith "entry_points.txt"

def addFile (tree : FileTree) (path : String) (content : ByteArray) : FileTree :=
  (tree.write (bytesOf path) content.toList).toOption.getD tree

def addDirectory (tree : FileTree) (path : String) : FileTree :=
  (tree.makeDirectory (bytesOf path)).toOption.getD tree

def addLink (tree : FileTree) (path target : String) : FileTree :=
  (tree.link (bytesOf path) (bytesOf target)).toOption.getD tree

def isLinked (tree : FileTree) (path : String) : Bool :=
  match tree.locate false (bytesOf path) with
  | .ok (.found _ node) => node.isLink
  | _ => false

mutual

/-- Takes in what lies at a path: an asked file's content, a link with its target, a directory
with its package marker and, if it is taken in deep, with the entries that are not left out. A link
that leads nowhere has no target, and one that leads in a circle leads to itself. -/
partial def takeNode (tree : FileTree) (path : String) (deep asked : Bool) : IO FileTree := do
  let here := (← IO.currentDir) / path
  let status ← here.symlinkMetadata.toBaseIO
  match status.toOption.map IO.FS.Metadata.type with
  | some .file => do
    if asked || isRead path then return addFile tree path (← IO.FS.readBinFile here)
    else return addFile tree path .empty
  | some .symlink => do
    if isLinked tree path then return tree
    match ← here.metadata.toBaseIO with
    | .ok _ =>
      let target := (← IO.FS.realPath here).toString
      takePath (addLink tree path target) target deep asked
    | .error (.noFileOrDirectory ..) => return addLink tree path ""
    | .error _ => return addLink tree path path
  | some .dir => do
    let tree := addDirectory tree path
    if deep then
      let entries ← here.readDir
      entries.foldlM (fun tree entry =>
        if SourceIndex.isExcluded (bytesOf entry.fileName) then pure tree
        else takeNode tree (path ++ "/" ++ entry.fileName) true false) tree
    else
      let marker := path ++ "/__init__.py"
      if ← ((← IO.currentDir) / marker).pathExists then takeNode tree marker false false
      else return tree
  | _ => return tree

/-- Takes in a path with the directories that it leads through. -/
partial def takePath (tree : FileTree) (path : String) (deep asked : Bool) : IO FileTree := do
  let parts := (path.splitOn "/").filter (!·.isEmpty)
  let (tree, outer) ← parts.dropLast.foldlM (fun (tree, outer) part => do
    let path := outer ++ "/" ++ part
    return (← takeNode tree path false false, path)) (tree, "")
  match parts.getLast? with
  | none => return tree
  | some last => takeNode tree (outer ++ "/" ++ last) deep asked

end

def snapshot (command : CommandLine) (active : Option String) : IO FileTree := do
  let current := (← IO.currentDir).toString
  let full (path : Bytes) := FilePath.normal (FilePath.join (bytesOf current) path)
  let empty : FileTree := ⟨.directory [], bytesOf current, none⟩
  let tree ← takePath empty current true false
  let input := full command.input
  let isPackage ← ((← IO.currentDir) / textOf input).isDir
  let tree ← takePath tree (textOf input) isPackage true
  let tree ← takePath tree (textOf (FilePath.parent input)) (!isPackage) false
  let roots := command.root.toList ++ (command.environment.or (active.map bytesOf)).toList
  let tree ← (roots.filter (!·.isEmpty)).foldlM (fun tree path =>
    takePath tree (textOf (full path)) true false) tree
  takePath tree (textOf (FilePath.parent (full command.output))) false false

def save (command : CommandLine) (run : Run) : IO Unit := do
  let path := (← IO.currentDir) / textOf command.output
  match run.tree.read? command.output with
  | none => return
  | some content =>
    path.parent.forM IO.FS.createDirAll
    IO.FS.writeBinFile path ⟨content.toArray⟩

end ManifestScan.Disk

open ManifestScan in
def main (arguments : List String) : IO UInt32 := do
  let active ← IO.getEnv "VIRTUAL_ENV"
  let arguments := arguments.map Disk.bytesOf
  let command := (CommandLine.ofArguments arguments).toOption.getD .default
  let tree ←
    if command.input.isEmpty || command.showsHelp || command.showsVersion then
      pure ⟨.directory [], [], none⟩
    else Disk.snapshot command active
  let run := Run.ofArguments tree (active.map Disk.bytesOf) arguments
  (← IO.getStdout).write ⟨run.output.toArray⟩
  (← IO.getStderr).write ⟨run.errors.toArray⟩
  if run.exit == 0 && !command.output.isEmpty then Disk.save command run
  return run.exit.toUInt32
