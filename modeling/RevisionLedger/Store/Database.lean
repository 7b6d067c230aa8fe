import RevisionLedger.Store.Basic
import RevisionLedger.Store.Snapshot

/-!
# The durable store

One table holds a row for each record: its key, hash and token in columns of their own, and its
snapshot. The key columns are the primary key, and the hash column is unique. Nothing in a row is
trusted: a row is read only if each cell has its type, the snapshot is intact, and the columns agree
with the record in it.
-/

namespace RevisionLedger

structure Row where
  yearPartition : Cell
  commitDate : Cell
  revisionHash : Cell
  versionToken : Cell
  recordJson : Cell
  recordHash : Cell
  hashAlgorithm : Cell
  updatedAt : Cell
deriving DecidableEq

/-- A database file: the version of its schema and its rows, in the order in which they came. -/
structure Database where
  /-- The stored schema version; a fresh file has none. -/
  schemaVersion : Option Int64
  rows : List Row
deriving DecidableEq

/-! ## 1. Rows -/

namespace Row

/-- Whether a row has a primary key. -/
def hasKey (row : Row) (key : RecordKey) : Bool :=
  row.yearPartition = .integer key.yearPartition.toInt64 && row.commitDate = .integer key.commitDate

/-- Whether the hash column of a row holds a hash. -/
def hasHash (row : Row) (hash : RevisionHash) : Bool := row.revisionHash = .text hash.text

/-- The time of a write. Clocks are not modelled: one positive time stands for all. -/
def writtenAt : Cell := .integer 1

/-- The row of a record. -/
def ofRecord (record : Record) (snapshot : Snapshot) : Row where
  yearPartition := .integer record.yearPartition.toInt64
  commitDate := .integer record.commitDate
  revisionHash := .text record.revisionHash.text
  versionToken := .text record.versionToken.text
  recordJson := .blob snapshot.json
  recordHash := .text snapshot.digest
  hashAlgorithm := .text Snapshot.digestLabel
  updatedAt := writtenAt

/-- The error of a cell that does not have its type. -/
def typed {α : Type} (cell : Option α) : Except DatabaseError α :=
  match cell with
  | some value => .ok value
  | none => .error (.engine DatabaseError.engineDetail)

/-- The record of a row that passes all checks. -/
def decode (row : Row) : Except DatabaseError Record := do
  let year ← typed row.yearPartition.int32?
  let date ← typed row.commitDate.int64?
  let hash ← typed row.revisionHash.text?
  let token ← typed row.versionToken.text?
  let json ← typed row.recordJson.blob?
  let digest ← typed row.recordHash.text?
  let label ← typed row.hashAlgorithm.text?
  let record ← Snapshot.decode json label digest hash
  if record.revisionHash.text ≠ hash ∨ record.versionToken.text ≠ token ∨
      record.key ≠ ⟨year, date⟩ then
    throw (.corrupt s!"record columns disagree with payload for {hash}")
  return record

end Row

/-! ## 2. Operations -/

namespace Database

/-- The version of the schema that this store reads and writes. -/
def currentVersion : Int64 := 1

def empty : Database := ⟨none, []⟩

/-- Brings a fresh file to the current schema, and refuses a file of another one. -/
def atCurrentVersion (database : Database) : Except DatabaseError Database :=
  match database.schemaVersion with
  | none => .ok { database with schemaVersion := some currentVersion }
  | some version =>
    if version = currentVersion then .ok database
    else .error (.versionMismatch s!"unsupported schema version: {version}")

def row? (database : Database) (key : RecordKey) : Option Row := database.rows.find? (·.hasKey key)

/-- The record under a key, if there is a row. -/
def load (database : Database) (key : RecordKey) : Except DatabaseError (Option Record) :=
  match database.row? key with
  | none => .ok none
  | some row => row.decode.map some

def query (database : Database) (hash : RevisionHash) : Except DatabaseError (List Record) :=
  (database.rows.filter (·.hasHash hash)).mapM Row.decode

/-- Whether a row under another key has a hash in its column. -/
def ownedElsewhere (database : Database) (key : RecordKey) (hash : RevisionHash) : Bool :=
  database.rows.any fun row => row.hasHash hash && !row.hasKey key

/-- Adds a row for a record. The table refuses a row whose key or hash another row has. -/
def insert (database : Database) (record : Record) : Except DatabaseError Database := do
  let snapshot ← Snapshot.encode record
  if database.rows.any fun row => row.hasKey record.key || row.hasHash record.revisionHash then
    throw (.conflict s!"record exists for hash {record.revisionHash.text}")
  return { database with rows := database.rows ++ [Row.ofRecord record snapshot] }

/-- Applies a delta to the record under a key, if that record bears the expected token and the hash
that the delta may bring is not another row's. -/
def update (database : Database) (key : RecordKey) (delta : Delta) (expected : VersionToken) :
    Except DatabaseError Database := do
  let some row := database.row? key
    | throw (.notFound s!"no record for key {key.display}")
  let current ← row.decode
  if current.versionToken ≠ expected then
    throw (.conflict s!"version token mismatch for key {key.display}")
  if let some hash := delta.revisionHash.filter (database.ownedElsewhere key) then
    throw (.invalid s!"hash {hash.text} already owned by another record")
  let next := delta.applyTo current
  let snapshot ← Snapshot.encode next
  let written := Row.ofRecord next snapshot
  return { database with
    rows := database.rows.map fun row => if row.hasKey key then written else row }

instance : RecordStore Database where
  query database hash := (database.query hash).mapError DatabaseError.toStoreError
  put database record := (database.insert record).mapError DatabaseError.toStoreError
  update database key delta expected :=
    (database.update key delta expected).mapError DatabaseError.toStoreError
  record? database key := (database.load key).toOption.join
  suspends := true

end Database

end RevisionLedger
