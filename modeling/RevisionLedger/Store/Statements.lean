import RevisionLedger.Store.Edit

/-!
# Writes, statement by statement

A write is a script of statements on the table. What the statements before a failure have done
stays done, unless the script runs as one transaction, which undoes all of it. A script cannot rely
on the table as it was read before: a row is changed only where it still bears the expected token,
and the table has the last word on what may stand in it.
-/

namespace RevisionLedger

/-- Statements on a table, one after another. A failure leaves the table as those before it made
it. -/
abbrev Statements := ExceptT DatabaseError (StateM Database)

namespace Statements

/-- Runs a script as a transaction: of one that fails nothing remains. -/
def transaction {α : Type} (script : Statements α) : Statements α := fun database =>
  match script database with
  | (.ok value, after) => (.ok value, after)
  | (.error error, _) => (.error error, database)

/-- What the table reports when a row may not stand beside another one. -/
def violation (hash : RevisionHash) : DatabaseError :=
  .conflict s!"record exists for hash {hash.text}"

/-- Adds a row. The table refuses it if it clashes with another one. -/
def insertRow (hash : RevisionHash) (row : Row) : Statements Unit := do
  let database ← get
  if database.rows.any (Database.clash row) then throw (violation hash)
  set { database with rows := database.rows ++ [row] }

/-- Changes the rows that a condition selects, and counts them. The table refuses a change after
which two rows clash. -/
def updateRows (hash : RevisionHash) (selected : Row → Bool) (change : Row → Row) :
    Statements Nat := do
  let database ← get
  let rows := database.rows.map fun row => if selected row then change row else row
  if ¬rows.Pairwise fun a b => ¬Database.clash a b then throw (violation hash)
  set { database with rows := rows }
  return database.rows.countP selected

/-- Adds a row for a record. -/
def put (record : Record) : Statements Unit := do
  let snapshot ← Snapshot.encode record
  insertRow record.revisionHash (Row.ofRecord record snapshot)

/-- The columns of a row that an update sets: all but the key. -/
def rewrite (next : Record) (snapshot : Snapshot) (row : Row) : Row :=
  { row with
    revisionHash := .text next.revisionHash.text
    versionToken := .text next.versionToken.text
    recordJson := .blob snapshot.json
    recordHash := .text snapshot.digest
    hashAlgorithm := .text Snapshot.digestLabel
    updatedAt := Row.writtenAt }

/-- The record under a key, if the conditions of an update of it hold. -/
def checked (key : RecordKey) (delta : Delta) (expected : VersionToken) : Statements Record := do
  let database ← get
  let some row := database.row? key
    | throw (.notFound s!"no record for key {key.display}")
  let current ← row.decode
  if current.versionToken ≠ expected then
    throw (.conflict s!"version token mismatch for key {key.display}")
  if let some hash := delta.revisionHash.filter (database.ownedElsewhere key) then
    throw (.invalid s!"hash {hash.text} already owned by another record")
  return current

/-- Applies a delta to the record under a key, in one transaction. -/
def update (key : RecordKey) (delta : Delta) (expected : VersionToken) : Statements Unit :=
  transaction do
    let next := delta.applyTo (← checked key delta expected)
    let snapshot ← Snapshot.encode next
    let changed ← updateRows next.revisionHash
      (fun row => row.hasKey key && row.versionToken = .text expected.text)
      (rewrite next snapshot)
    if changed ≠ 1 then throw (.conflict s!"version token changed for key {key.display}")

end Statements

end RevisionLedger
