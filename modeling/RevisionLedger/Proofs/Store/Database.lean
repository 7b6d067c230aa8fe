import RevisionLedger.Proofs.Record.Equality
import RevisionLedger.Store.Database

/-!
# What the operations of the durable store do

A record is `Storable` if its canonical text is not too long and the reader makes of each of its
doubles a numerically equal one. The row of such a record passes all checks, and what is read from
it is the record, but for the signs of zeros (`Record.Storable.decode_row`). Each write is said
through the row that it adds or replaces, with the error that a caller gets.
-/

namespace RevisionLedger

/-! ## 1. Records that fit into a row -/

theorem Cell.int32?_toInt64 (n : Int32) : (Cell.integer n.toInt64).int32? = some n := by
  have hvalue : n.toInt64.toInt = n.toInt := Int32.toInt_toInt64 n
  rw [int32?, hvalue, if_pos ⟨n.minValue_le_toInt, n.toInt_le⟩, Int32.ofInt_toInt]

namespace Record

/-- The text of the record is not too long, and its doubles are finite and come back numerically
unchanged from their texts. -/
structure Storable (record : Record) : Prop where
  size : (record.json Json.canonical).toUTF8.size ≤ Snapshot.maxBytes
  reals : ∀ x ∈ record.reals, x.isFinite ∧ ∃ y,
    Json.decode Json.Reader.real (Json.canonical.real x).toUTF8.data.toList = .ok y ∧
      x.numericEq y

/-- The snapshot that a record has if it is not too long. -/
def snapshot (record : Record) : Snapshot :=
  let json := (record.json Json.canonical).toUTF8
  ⟨json, Sha256.hex json⟩

/-- The row that a record is stored in. -/
def row (record : Record) : Row := Row.ofRecord record record.snapshot

/-- The record that is read back from the row. -/
def stored (record : Record) : Record := record.mapReals Json.canonical.reread

/-- The text of the record is not too long for a row. -/
def Fits (record : Record) : Prop := (record.json Json.canonical).toUTF8.size ≤ Snapshot.maxBytes

/-- The cells of the row have their types, and the text in it is whole. So all depends on what is
read from the text. -/
theorem decode_row_of_fits {record : Record} (h : record.Fits) :
    record.row.decode =
      match Json.decode shape.reader record.snapshot.json.data.toList with
      | .ok read =>
        if read.revisionHash.text ≠ record.revisionHash.text ∨
            read.versionToken.text ≠ record.versionToken.text ∨ read.key ≠ record.key then
          .error (.corrupt s!"record columns disagree with payload for {record.revisionHash.text}")
        else .ok read
      | .error _ => .error (.corrupt s!"record decode failed: {Snapshot.decodeDetail}") := by
  have hyear : record.row.yearPartition.int32? = some record.yearPartition :=
    Cell.int32?_toInt64 record.yearPartition
  have hdate : record.row.commitDate.int64? = some record.commitDate := rfl
  have hhash : record.row.revisionHash.text? = some record.revisionHash.text := rfl
  have htoken : record.row.versionToken.text? = some record.versionToken.text := rfl
  have hjson : record.row.recordJson.blob? = some record.snapshot.json := rfl
  have hdigest : record.row.recordHash.text? = some record.snapshot.digest := rfl
  have hlabel : record.row.hashAlgorithm.text? = some Snapshot.digestLabel := rfl
  have hsize : Snapshot.checkSize record.snapshot.json.size = .ok () := if_neg (Nat.not_lt_of_le h)
  have hsame : Sha256.hex record.snapshot.json = record.snapshot.digest := rfl
  rw [Row.decode, hyear, hdate, hhash, htoken, hjson, hdigest, hlabel]
  simp only [Row.typed, bind, Except.bind, Snapshot.decode, hsize, hsame, ne_eq, not_true_eq_false,
    if_false]
  cases Json.decode shape.reader record.snapshot.json.data.toList with
  | error fault => rfl
  | ok read => rfl

theorem row_congr {a b : Record} (h : a.unsignZeros = b.unsignZeros) : a.row = b.row := by
  obtain ⟨hhash, hdate, hyear, -, -, htoken, -⟩ := unsignZeros_eq_iff.1 h
  rw [row, row, Row.ofRecord, Row.ofRecord, snapshot, snapshot, json_canonical_congr h, hhash,
    hdate, hyear, htoken]

namespace Storable

variable {record : Record}

/-- The snapshot of a record is also that of every other with its canonical text. -/
theorem encode_congr (h : record.Storable) {other : Record}
    (heq : other.unsignZeros = record.unsignZeros) :
    Snapshot.encode other = .ok other.snapshot := by
  have hsize : Snapshot.checkSize (other.json Json.canonical).toUTF8.size = .ok () := by
    rw [json_canonical_congr heq]
    exact if_neg (Nat.not_lt_of_le h.size)
  rw [Snapshot.encode, hsize]
  rfl

theorem encode (h : record.Storable) : Snapshot.encode record = .ok record.snapshot :=
  h.encode_congr rfl

theorem unsignZero_reread (h : record.Storable) :
    ∀ x ∈ record.reals, (Json.canonical.reread x).unsignZero = x.unsignZero := by
  intro x hx
  obtain ⟨-, y, hread, heq⟩ := h.reals x hx
  have hreread : Json.canonical.reread x = y := by
    unfold Json.Style.reread Json.bytes
    rw [hread]
  rw [hreread, ← Binary64.unsignZero_eq_of_numericEq heq]

theorem unsignZeros_stored (h : record.Storable) :
    record.stored.unsignZeros = record.unsignZeros :=
  unsignZeros_mapReals h.unsignZero_reread

theorem same_stored (h : record.Storable) : record.Same record.stored :=
  same_of_unsignZeros_eq h.unsignZeros_stored.symm fun x hx => (h.reals x hx).1

/-- The canonical text is read as the record, but for the signs of zeros. -/
theorem decode_json (h : record.Storable) :
    Json.decode shape.reader record.snapshot.json.data.toList = .ok record.stored := by
  have hreals : ∀ x ∈ record.reals, Json.canonical.Rereads x := fun x hx => by
    obtain ⟨hfinite, y, hread, -⟩ := h.reals x hx
    exact ⟨hfinite, y, hread⟩
  exact (Record.reads rfl hreals).decode

/-- The row passes all checks. -/
theorem decode_row (h : record.Storable) : record.row.decode = .ok record.stored := by
  have hagree : ¬(record.stored.revisionHash.text ≠ record.revisionHash.text ∨
      record.stored.versionToken.text ≠ record.versionToken.text ∨
      record.stored.key ≠ record.key) := by
    rintro (hne | hne | hne) <;> exact hne rfl
  rw [decode_row_of_fits h.size, h.decode_json]
  exact if_neg hagree

end Storable

end Record

/-! ## 2. Columns -/

namespace Row

theorem hasKey_row {record : Record} {key : RecordKey} :
    record.row.hasKey key ↔ record.key = key := by
  have hyear : (record.row.yearPartition = .integer key.yearPartition.toInt64) ↔
      record.yearPartition = key.yearPartition := by
    have hcell : record.row.yearPartition = .integer record.yearPartition.toInt64 := rfl
    rw [hcell, Cell.integer.injEq, ← Int64.toInt_inj, Int32.toInt_toInt64, Int32.toInt_toInt64,
      Int32.toInt_inj]
  have hdate : (record.row.commitDate = .integer key.commitDate) ↔
      record.commitDate = key.commitDate := iff_of_eq (Cell.integer.injEq _ _)
  rw [hasKey, Bool.and_eq_true, decide_eq_true_eq, decide_eq_true_eq, hyear, hdate]
  exact iff_of_eq (RecordKey.mk.injEq _ _ _ _).symm

theorem hasHash_row {record : Record} {hash : RevisionHash} :
    record.row.hasHash hash ↔ record.revisionHash = hash := by
  have hhash : (record.row.revisionHash = .text hash.text) ↔ record.revisionHash = hash := by
    have htext : record.row.revisionHash = .text record.revisionHash.text := rfl
    rw [htext, Cell.text.injEq]
    exact ⟨fun h => congrArg RevisionHash.mk h, fun h => congrArg RevisionHash.text h⟩
  rw [hasHash, decide_eq_true_eq, hhash]

end Row

/-! ## 3. Operations -/

namespace Database

/-- The result of an operation with the error that a caller gets. -/
def reported {α : Type} (result : Except DatabaseError α) : Except StoreError α :=
  result.mapError DatabaseError.toStoreError

/-- The database with one more row. -/
def withRow (database : Database) (row : Row) : Database :=
  { database with rows := database.rows ++ [row] }

/-- The database with another row under a key. -/
def withRowAt (database : Database) (key : RecordKey) (row : Row) : Database :=
  { database with rows := database.rows.map fun old => if old.hasKey key then row else old }

/-- A record is encoded before the table is asked, which then looks at both of its columns. -/
theorem put_eq {record : Record} {snapshot : Snapshot}
    (h : Snapshot.encode record = .ok snapshot) (database : Database) :
    RecordStore.put database record =
      if (database.rows.any fun row =>
          row.hasKey record.key || row.hasHash record.revisionHash) then
        .error (.conflict s!"record exists for hash {record.revisionHash.text}")
      else .ok (database.withRow (Row.ofRecord record snapshot)) := by
  show (database.insert record).mapError _ = _
  rw [insert, h]
  simp only [bind, Except.bind]
  split <;> rfl

theorem update_of_none {database : Database} {key : RecordKey} (h : database.row? key = none)
    (delta : Delta) (expected : VersionToken) :
    RecordStore.update database key delta expected =
      .error (.notFound s!"no record for key {key.display}") := by
  show (database.update key delta expected).mapError _ = _
  rw [update, h]
  rfl

theorem update_of_some {database : Database} {key : RecordKey} {row : Row} {current : Record}
    (hrow : database.row? key = some row) (hdecode : row.decode = .ok current) (delta : Delta)
    (expected : VersionToken) :
    RecordStore.update database key delta expected =
      if current.versionToken ≠ expected then
        .error (.conflict s!"version token mismatch for key {key.display}")
      else
        match delta.revisionHash.filter (database.ownedElsewhere key) with
        | some hash => .error (.invalid s!"hash {hash.text} already owned by another record")
        | none => reported ((Snapshot.encode (delta.applyTo current)).map fun snapshot =>
            database.withRowAt key (Row.ofRecord (delta.applyTo current) snapshot)) := by
  show (database.update key delta expected).mapError _ = _
  -- The token is compared first, then the owner of the hash is looked for, and last the size.
  rw [update, hrow]
  simp only [hdecode, bind, Except.bind]
  split
  · rfl
  · cases hfilter : delta.revisionHash.filter (database.ownedElsewhere key) with
    | some hash => rfl
    | none => cases Snapshot.encode (delta.applyTo current) <;> rfl

end Database

end RevisionLedger
