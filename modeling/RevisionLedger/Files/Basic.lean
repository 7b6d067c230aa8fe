import RevisionLedger.Files.Path
import RevisionLedger.Store.Database

/-!
# Files

A tree of directories and files, seen from a working directory. There are no links, so that a name
of two dots leads back by one name.
-/

namespace RevisionLedger

/-- A place in the tree: the names on the way from the root. -/
abbrev Location := List String

/-- A file, or a directory with what is in it. The bytes of a database are not looked at. -/
inductive FileNode
  | directory (entries : List (String × FileNode))
  | file (bytes : ByteArray)
  | database (contents : Database)

namespace FileNode

def isDirectory : FileNode → Bool
  | .directory _ => true
  | .file _ | .database _ => false

/-- What is at a place below a node. -/
def find? : Location → FileNode → Option FileNode
  | [], node => some node
  | name :: rest, .directory entries => (entries.lookup name).bind (find? rest)
  | _ :: _, .file _ | _ :: _, .database _ => none

/-- Puts a node at a place below another one. A place in no directory stays as it is. -/
def put (added : FileNode) : Location → FileNode → FileNode
  | [], _ => added
  | name :: rest, .directory entries =>
    let inner := put added rest ((entries.lookup name).getD (.directory []))
    .directory ((name, inner) :: entries.filter (·.1 != name))
  | _ :: _, node => node

end FileNode

structure Files where
  root : FileNode
  /-- Where relative paths start. -/
  workingDirectory : Location

/-- What an action does to files, and its result; an action that fails may have done a part. -/
abbrev FileAction (ε : Type) := ExceptT ε (StateM Files)

namespace Files

/-- A tree in which the working directory is empty. -/
def fresh : Files where
  root := .directory [("tmp", .directory [("ledger-run", .directory [])])]
  workingDirectory := ["tmp", "ledger-run"]

/-! ## 1. Finding -/

def node? (files : Files) (location : Location) : Option FileNode := files.root.find? location

def isDirectoryAt (files : Files) (location : Location) : Bool :=
  (files.node? location).any FileNode.isDirectory

def start (files : Files) (path : String) : Location :=
  if Path.isAbsolute path then [] else files.workingDirectory

/-- The place to which a name leads from another one. -/
def follow (location : Location) (name : String) : Location :=
  if name = "" ∨ name = "." then location
  else if name = ".." then location.dropLast
  else location ++ [name]

/-- Follows a name of a length that names may have from a directory. -/
def step (files : Files) (location : Location) (name : String) : Option Location :=
  if files.isDirectoryAt location ∧ name.utf8ByteSize ≤ Path.maxNameLength then
    some (follow location name)
  else none

/-- The place of a path, whether there is something or not. A path has fewer bytes than its limit,
for one is kept for its end. -/
def locate (files : Files) (path : String) : Option Location :=
  if path = "" ∨ Path.maxLength ≤ path.utf8ByteSize ∨ Path.hasNul path then none
  else (Path.steps path).foldlM files.step (files.start path)

def isDirectory (files : Files) (path : String) : Bool :=
  (files.locate path).any files.isDirectoryAt

def read? (files : Files) (path : String) : Option ByteArray := do
  match files.node? (← files.locate path) with
  | some (.file bytes) => some bytes
  | _ => none

def database? (files : Files) (path : String) : Option Database := do
  match files.node? (← files.locate path) with
  | some (.database contents) => some contents
  | _ => none

/-! ## 2. Changing -/

def put (files : Files) (location : Location) (node : FileNode) : Files :=
  { files with root := FileNode.put node location files.root }

/-- Follows a name to a directory, which is made if nothing is there. -/
def enter {ε : Type} (failed : ε) (location : Location) (name : String) :
    FileAction ε Location := do
  let files ← get
  let inner := follow location name
  match files.node? inner with
  | some node => if node.isDirectory then return inner else throw failed
  | none =>
    set (files.put inner (.directory []))
    return inner

/-- Makes the directories on the way along some names. -/
def makeDirectories {ε : Type} (failed : ε) (start : Location) (names : List String) :
    FileAction ε Location := do
  if names.any Path.hasNul then throw failed
  names.foldlM (enter failed) start

/-- Makes the directories on the way to a path. -/
def makeParents {ε : Type} (failed : ε) (path : String) : FileAction ε Unit := do
  discard (makeDirectories failed ((← get).start path) (Path.components path).dropLast)

/-- Opens a file to be added to, and makes it if nothing is there. -/
def openLog {ε : Type} (failed : ε) (path : String) : FileAction ε Location := do
  let files ← get
  let some location := files.locate path | throw failed
  match files.node? location with
  | some node => if node.isDirectory then throw failed else return location
  | none =>
    set (files.put location (.file .empty))
    return location

/-- A tree with some directories and files in the working directory. -/
def withContents (directories : List String) (contents : List (String × ByteArray)) : Files :=
  let action : FileAction Unit Unit := do
    for path in directories do
      discard (makeDirectories () ((← get).start path) (Path.components path))
    for (path, bytes) in contents do
      makeParents () path
      let location ← openLog () path
      modify (·.put location (.file bytes))
  (action.run fresh).2

end Files

end RevisionLedger
