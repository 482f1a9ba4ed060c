import ManifestScan.File.Path

namespace ManifestScan

inductive Node where
  | file (content : Bytes)
  | directory (entries : List (Bytes × Node))
  | link (target : FilePath)

inductive FileError where
  | missing
  | notDirectory
  | isDirectory
  | exists
  | tooManyLinks
  | nameTooLong
deriving DecidableEq, Repr

namespace FileError

def message : FileError → Bytes
  | .missing => ascii "No such file or directory"
  | .notDirectory => ascii "Not a directory"
  | .isDirectory => ascii "Is a directory"
  | .exists => ascii "File exists"
  | .tooManyLinks => ascii "Too many levels of symbolic links"
  | .nameTooLong => ascii "File name too long"

end FileError

namespace Node

def isDirectory : Node → Bool
  | .directory _ => true
  | _ => false

def isLink : Node → Bool
  | .link _ => true
  | _ => false

def entries : Node → List (Bytes × Node)
  | .directory entries => entries
  | _ => []

def child? (node : Node) (name : Bytes) : Option Node := node.entries.lookup name

def at? : Node → List Bytes → Option Node
  | node, [] => some node
  | node, name :: names =>
    match node.child? name with
    | none => none
    | some child => child.at? names

def setEntry (name : Bytes) (child : Option Node) (entries : List (Bytes × Node)) :
    List (Bytes × Node) :=
  entries.filter (·.1 != name) ++ child.toList.map (name, ·)

def set (node : Node) (names : List Bytes) (name : Bytes) (child : Option Node) : Node :=
  match names with
  | [] =>
    match node with
    | .directory entries => .directory (setEntry name child entries)
    | other => other
  | first :: rest =>
    match node, node.child? first with
    | .directory entries, some inner =>
      .directory (setEntry first (some (inner.set rest name child)) entries)
    | other, _ => other

end Node

/-- Where a path leads: to a node, or to a free name in a directory, each by the chain of names
below the root, last name first. -/
inductive Spot where
  | found (chain : List Bytes) (node : Node)
  | free (directory : List Bytes) (name : Bytes)

structure FileTree where
  root : Node
  current : FilePath
  /-- How many bytes a stream into a file takes. What goes beyond fails as it is put in; without a
  bound nothing fails. -/
  room : Option Nat

namespace FileTree

/-- The node at a chain of names, last name first. -/
def nodeAt? (tree : FileTree) (chain : List Bytes) : Option Node := tree.root.at? chain.reverse

def maxLinks : Nat := 40

def maxNameLength : Nat := 255

def maxPathLength : Nat := 4095

def maxMissing : Nat := 1000

/-- Follows `todo` from a directory on; `jump` goes on at a link's target. The last link is
followed only where `follow` is set. -/
def walk (tree : FileTree) (follow : Bool)
    (jump : List Bytes → List Bytes → Except FileError Spot) (chain : List Bytes) :
    List Bytes → Except FileError Spot
  | [] =>
    match tree.nodeAt? chain with
    | none => .error .missing
    | some node => .ok (.found chain node)
  | name :: rest =>
    match tree.nodeAt? chain with
    | none => .error .missing
    | some node =>
      if !node.isDirectory then .error .notDirectory
      else if name = [dot] then walk tree follow jump chain rest
      else if name = [dot, dot] then walk tree follow jump chain.tail rest
      else if maxNameLength < name.length then .error .nameTooLong
      else
        match node.child? name with
        | none => if rest.isEmpty then .ok (.free chain name) else .error .missing
        | some (.link target) =>
          if rest.isEmpty ∧ !follow then .ok (.found (name :: chain) (.link target))
          else if target.isEmpty then .error .missing
          else
            jump (if FilePath.isAbsolute target then [] else chain) (targetNames target ++ rest)
        | some _ => walk tree follow jump (name :: chain) rest
where
  /-- The names of a path; a slash at its end asks for a directory. -/
  targetNames (path : FilePath) : List Bytes :=
    FilePath.names path ++ if path.getLast? = some slash then [[dot]] else []

def follow (tree : FileTree) (last : Bool) :
    Nat → List Bytes → List Bytes → Except FileError Spot
  | 0 => walk tree last fun _ _ => .error .tooManyLinks
  | links + 1 => walk tree last (follow tree last links)

/-- Where a path leads. For the tree a path ends at its first zero byte. -/
def locate (tree : FileTree) (last : Bool) (path : FilePath) : Except FileError Spot :=
  let path := beforeZero path
  if path.isEmpty then .error .missing
  else if maxPathLength < path.length then .error .nameTooLong
  else
    let start := if FilePath.isAbsolute path then [] else (FilePath.names tree.current).reverse
    follow tree last maxLinks start (walk.targetNames path)

/-- The node at a path, links followed. -/
def node (tree : FileTree) (path : FilePath) : Except FileError Node :=
  match tree.locate true path with
  | .error error => .error error
  | .ok (.found _ node) => .ok node
  | .ok (.free _ _) => .error .missing

def isPresent (tree : FileTree) (path : FilePath) : Bool := (tree.node path).toOption.isSome

def isFile (tree : FileTree) (path : FilePath) : Bool :=
  match tree.node path with
  | .ok (.file _) => true
  | _ => false

def isDirectory (tree : FileTree) (path : FilePath) : Bool :=
  match tree.node path with
  | .ok (.directory _) => true
  | _ => false

/-- The content of a file; a directory opens and reads as nothing. -/
def read? (tree : FileTree) (path : FilePath) : Option Bytes :=
  match tree.node path with
  | .ok (.file content) => some content
  | .ok (.directory _) => some []
  | _ => none

def insertByName {α : Type} (entry : Bytes × α) : List (Bytes × α) → List (Bytes × α)
  | [] => [entry]
  | other :: rest =>
    if comesBefore entry.1 other.1 then entry :: other :: rest else other :: insertByName entry rest

def sortByName {α : Type} (entries : List (Bytes × α)) : List (Bytes × α) :=
  entries.foldr insertByName []

/-- The paths of the directories in a directory, in the byte order of their names; links to
directories count. -/
def subdirectories (tree : FileTree) (path : FilePath) : List FilePath :=
  match tree.node path with
  | .ok (.directory entries) =>
    (sortByName entries).flatMap fun entry =>
      let inner := FilePath.join path entry.1
      match entry.2 with
      | .directory _ => [inner]
      | .file _ => []
      | .link _ => if tree.isDirectory inner then [inner] else []
  | _ => []

def absolute? (tree : FileTree) (path : FilePath) : Option FilePath :=
  if path.isEmpty then none
  else if FilePath.isAbsolute path then some path
  else some (FilePath.join tree.current path)

def put (tree : FileTree) (directory : List Bytes) (name : Bytes) (node : Node) : FileTree :=
  { tree with root := tree.root.set directory.reverse name (some node) }

def makeDirectory (tree : FileTree) (path : FilePath) : Except FileError FileTree :=
  match tree.locate false path with
  | .error error => .error error
  | .ok (.free directory name) => .ok (tree.put directory name (.directory []))
  | .ok (.found _ _) => if tree.isDirectory path then .ok tree else .error .exists

/-- Whether a path is not there because one of its parts is not there. -/
def isAbsence (error : FileError) : Bool := error == .missing || error == .notDirectory

/-- The directories that have to be made for a path that is not there, outermost first, in front of
`made`. Each of the `names` names of the path is looked at once. -/
def missingDirectories (tree : FileTree) : Nat → FilePath → List FilePath →
    Except FileError (List FilePath)
  | 0, _, made => .ok made
  | names + 1, path, made =>
    let name := FilePath.fileName path
    let made := if name = [dot] ∨ name = [dot, dot] then made else path :: made
    let outer := FilePath.parent path
    if maxMissing < made.length then .error .nameTooLong
    else if outer.isEmpty then .ok made
    else
      match tree.node outer with
      | .ok node => if node.isDirectory then .ok made else .error .notDirectory
      | .error error =>
        if isAbsence error then missingDirectories tree names outer made else .error error

def makeEach (tree : FileTree) : List FilePath → FileTree × Option FileError
  | [] => (tree, none)
  | path :: others =>
    match tree.makeDirectory path with
    | .error error => (tree, some error)
    | .ok tree => makeEach tree others

/-- Makes a directory and those around it that are missing. Those made before an error stay. -/
def makeDirectories (tree : FileTree) (path : FilePath) : FileTree × Option FileError :=
  match tree.node path with
  | .ok node => (tree, if node.isDirectory then none else some .notDirectory)
  | .error error =>
    if isAbsence error then
      let path := if (FilePath.fileName path).isEmpty then FilePath.parent path else path
      match tree.missingDirectories (FilePath.names path).length path [] with
      | .error error => (tree, some error)
      | .ok missing => tree.makeEach missing
    else (tree, some error)

def makeParent (tree : FileTree) (path : FilePath) : FileTree × Option FileError :=
  if (FilePath.parent path).isEmpty then (tree, none)
  else tree.makeDirectories (FilePath.parent path)

/-- What a stream takes of a text, which is then in the file. -/
def held (tree : FileTree) (content : Bytes) : Bytes := tree.room.elim content content.take

def holds (tree : FileTree) (content : Bytes) : Bool := tree.room.all (content.length ≤ ·)

/-- Opens a file through links, whether it is there or not, and writes as much of a text as its
stream takes. -/
def write (tree : FileTree) (path : FilePath) (content : Bytes) : Except FileError FileTree :=
  let file := Node.file (tree.held content)
  match tree.locate true path with
  | .error error => .error error
  | .ok (.free directory name) => .ok (tree.put directory name file)
  | .ok (.found (name :: directory) (.file _)) => .ok (tree.put directory name file)
  | .ok (.found _ _) => .error .isDirectory

/-- Sets a symbolic link, which takes the place of what was there. -/
def link (tree : FileTree) (path target : FilePath) : Except FileError FileTree :=
  match tree.locate false path with
  | .error error => .error error
  | .ok (.free directory name) => .ok (tree.put directory name (.link target))
  | .ok (.found (name :: directory) _) => .ok (tree.put directory name (.link target))
  | .ok (.found [] _) => .error .exists

/-- Removes a node with all below it; a link is removed itself. -/
def remove (tree : FileTree) (path : FilePath) : FileTree :=
  match tree.locate false path with
  | .ok (.found (name :: directory) _) =>
    { tree with root := tree.root.set directory.reverse name none }
  | _ => tree

/-- A tree that holds an empty working directory and nothing else. -/
def empty (name : Bytes) : FileTree :=
  ⟨.directory [(name, .directory [])], slash :: name, none⟩

end FileTree

end ManifestScan
