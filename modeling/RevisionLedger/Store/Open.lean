import RevisionLedger.Files.Basic
import RevisionLedger.Store.Options

/-!
# Opening a durable store

A store is opened at a path, after the directories on the way to it have been made. The database
engine keeps files of longer names beside a database, and has limits of its own on paths.
-/

namespace RevisionLedger

structure OpenDatabase where
  contents : Database
  /-- Where the file is; none for a database that is in memory only. -/
  location : Option Location

namespace StoreOptions

/-- Why a path cannot be that of a store. -/
def pathError? (files : Files) (path : String) : Option DatabaseError :=
  if path = "" then some (.invalid "store path must not be empty")
  else if Path.isLong path then some (.invalid "store path exceeds length limit")
  else if Path.hasLongName path then some (.invalid "store path contains an overlong component")
  else if files.isDirectory path then
    some (.invalid "store path must be a file, not a directory")
  else none

/-- The path that asks for a database in memory. -/
def inMemoryPath : String := ":memory:"

/-- The greatest length of a full path that the database engine takes. -/
def maxFullLength : Nat := 512

/-- What the name of a database gets at its end for the longest name beside it. -/
def companionSuffix : String := "-journal"

/-- Whether the database engine takes the place of a database: there is room for the names beside
it. -/
def isPlace (location : Location) : Bool :=
  let lengths := location.map String.utf8ByteSize
  let room := companionSuffix.utf8ByteSize
  lengths.foldl (· + ·) location.length + room ≤ maxFullLength &&
    lengths.getLastD 0 + room ≤ Path.maxNameLength

/-- What the database engine finds at a place: a database, or room for a fresh one. -/
def contentsAt (files : Files) (location : Location) : Except DatabaseError Database :=
  match files.node? location with
  | none => .ok .empty
  | some (.database contents) => .ok contents
  | some (.file bytes) =>
    if bytes.isEmpty then .ok .empty else .error (.engine DatabaseError.engineDetail)
  | some (.directory _) => .error (.engine DatabaseError.engineDetail)

/-- Opens the store at the path of the options, and brings a fresh one to the current schema. -/
def openStore (options : StoreOptions) : FileAction DatabaseError OpenDatabase := do
  let path := options.path
  if let some error := pathError? (← get) path then throw error
  -- The directories stay even if the engine then refuses the file.
  Files.makeParents (.io DatabaseError.engineDetail) path
  let files ← get
  let location := (Path.components path).foldl Files.follow (files.start path)
  if path = inMemoryPath then
    return ⟨← Database.empty.atCurrentVersion, none⟩
  if Path.hasNul path ∨ !isPlace location then throw (.engine DatabaseError.engineDetail)
  let contents ← (← contentsAt files location).atCurrentVersion
  set (files.put location (.database contents))
  return ⟨contents, some location⟩

/-- The name of the journal mode of an open database. -/
def journalName (options : StoreOptions) (database : OpenDatabase) : String :=
  if database.location.isNone then "memory" else options.journalMode.name

end StoreOptions

end RevisionLedger
