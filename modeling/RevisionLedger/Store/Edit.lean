import RevisionLedger.Store.Database

/-!
# Editing a database behind the store's back

Another connection to the file can write any value into any column of a row. The table still
refuses a null and a repeated key or hash, and its columns still convert what is written.
-/

namespace RevisionLedger

inductive Column
  | yearPartition
  | commitDate
  | revisionHash
  | versionToken
  | recordJson
  | recordHash
  | hashAlgorithm
  | updatedAt
deriving DecidableEq

namespace Column

def named : List (String × Column) :=
  [("year_partition", yearPartition), ("commit_date", commitDate),
   ("revision_hash", revisionHash), ("version_token", versionToken), ("record_json", recordJson),
   ("record_hash", recordHash), ("hash_algorithm", hashAlgorithm), ("updated_at", updatedAt)]

def affinity : Column → Affinity
  | yearPartition | commitDate | updatedAt => .integer
  | revisionHash | versionToken | recordHash | hashAlgorithm => .text
  | recordJson => .none

/-- Writes a value into a column of a row. -/
def set (column : Column) (cell : Cell) (row : Row) : Row :=
  let cell := cell.convert column.affinity
  match column with
  | yearPartition => { row with yearPartition := cell }
  | commitDate => { row with commitDate := cell }
  | revisionHash => { row with revisionHash := cell }
  | versionToken => { row with versionToken := cell }
  | recordJson => { row with recordJson := cell }
  | recordHash => { row with recordHash := cell }
  | hashAlgorithm => { row with hashAlgorithm := cell }
  | updatedAt => { row with updatedAt := cell }

end Column

namespace Database

/-- Whether two rows may not stand in one table. -/
def clash (a b : Row) : Bool :=
  (a.yearPartition = b.yearPartition && a.commitDate = b.commitDate) ||
    a.revisionHash = b.revisionHash

/-- Writes a value into a column of the row under a key, and counts the rows written. -/
def edit (database : Database) (key : RecordKey) (column : Column) (cell : Option Cell) :
    Except DatabaseError (Database × Nat) :=
  match database.row? key with
  | none => .ok (database, 0)
  | some row =>
    match cell with
    | none => .error (.engine DatabaseError.engineDetail)
    | some cell =>
      let edited := column.set cell row
      if (database.rows.filter (!·.hasKey key)).any (clash edited) then
        .error (.engine DatabaseError.engineDetail)
      else
        .ok ({ database with
          rows := database.rows.map fun row => if row.hasKey key then edited else row }, 1)

/-- Edits columns one after another up to the first that is refused. Yields the table that results,
and how many rows were written if none was refused. -/
def editAll (key : RecordKey) : List (Column × Option Cell) → Database × Nat →
    Database × Except DatabaseError Nat
  | [], (database, changed) => (database, .ok changed)
  | (column, cell) :: edits, (database, changed) =>
    match database.edit key column cell with
    | .error error => (database, .error error)
    | .ok (database, count) => editAll key edits (database, changed + count)

/-- Sets the digest of the row under a key to that of its text, and counts the rows written. -/
def rehash (database : Database) (key : RecordKey) : Database × Nat :=
  match database.row? key with
  | none => (database, 0)
  | some row =>
    let hashed := { row with recordHash := .text (Sha256.hex row.recordJson.bytes) }
    ({ database with rows := database.rows.map fun row => if row.hasKey key then hashed else row },
      1)

/-- Deletes the row under a key, and counts the rows deleted. -/
def delete (database : Database) (key : RecordKey) : Database × Nat :=
  ({ database with rows := database.rows.filter (!·.hasKey key) },
    database.rows.countP (·.hasKey key))

/-- Replaces the schema version that is stored, or deletes it, and counts the rows written. -/
def editVersion (database : Database) (version : Option Int64) : Database × Nat :=
  match database.schemaVersion with
  | none => (database, 0)
  | some _ => ({ database with schemaVersion := version }, 1)

/-! ## Order of rows -/

/-- The class of a cell in the order of the engine: numbers, texts, bytes. -/
def sortClass : Cell → Nat
  | .integer _ | .real _ => 0
  | .text _ | .garbled _ => 1
  | .blob _ => 2

/-- The order of the engine. -/
def cellLe (a b : Cell) : Bool :=
  match a, b with
  | .integer x, .integer y => x ≤ y
  | .integer x, .real y => !y.lt (.ofInt x.toInt)
  | .real x, .integer y => !(Binary64.ofInt y.toInt).lt x
  | .real x, .real y => !y.lt x
  | .text x, .text y => (compare x y).isLE
  | .text _, .garbled _ | .garbled _, .text _ | .garbled _, .garbled _ | .blob _, .blob _ =>
    (List.compareLex compare a.bytes.data.toList b.bytes.data.toList).isLE
  | _, _ => sortClass a ≤ sortClass b

/-- The rows in the order of their keys. -/
def rowsByKey (database : Database) : List Row :=
  database.rows.mergeSort fun a b =>
    if a.yearPartition = b.yearPartition then cellLe a.commitDate b.commitDate
    else cellLe a.yearPartition b.yearPartition

end Database

end RevisionLedger
