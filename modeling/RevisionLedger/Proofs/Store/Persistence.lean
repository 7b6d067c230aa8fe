import RevisionLedger.Proofs.Record.Readable
import RevisionLedger.Proofs.Store.Copies
import RevisionLedger.Proofs.Store.Integrity
import RevisionLedger.Proofs.Store.Runs

/-!
# What a durable store keeps of what it acknowledged

A durable store is given any operations at all. The writes that it acknowledges are given to an
in-memory store as well, which acknowledges all of them, and whose records are those that the rows
are for (`Persists.run`). Such a row can be read back if the doubles of its record are finite. If
one of them is not, the text in the row is that of no record, which no write checks: the record is
lost to every later look at it (`Database.recalls_iff_finite`).
-/

namespace RevisionLedger

/-! ## 1. Rows that can be read -/

/-- What is reported of a text that is that of no record. -/
def Snapshot.unreadable : String := s!"record decode failed: {decodeDetail}"

namespace Record

variable {record : Record}

theorem encode_eq_ok_iff {snapshot : Snapshot} :
    Snapshot.encode record = .ok snapshot ↔ record.Fits ∧ snapshot = record.snapshot := by
  rw [Snapshot.encode, Snapshot.checkSize]
  by_cases h : Snapshot.maxBytes < (record.json Json.canonical).toUTF8.size
  · rw [if_pos h]
    exact iff_of_false (fun h => by cases h) fun hfits => Nat.not_le_of_lt h hfits.1
  · rw [if_neg h]
    constructor
    · intro hok
      cases hok
      exact ⟨Nat.le_of_not_lt h, rfl⟩
    · rintro ⟨-, rfl⟩
      rfl

theorem Fits.storable (h : record.Fits) (hfinite : record.Finite) : record.Storable where
  size := h
  reals x hx := ⟨hfinite x hx, x.unsignZero, Json.decode_real_canonical (hfinite x hx),
    Binary64.numericEq_unsignZero (hfinite x hx)⟩

/-- The text that is stored for a record whose doubles are not all finite is that of no record. -/
theorem Fits.decode_row_of_not_finite (h : record.Fits) (hfinite : ¬record.Finite) :
    record.row.decode = .error (.corrupt Snapshot.unreadable) := by
  obtain ⟨fault, hfault⟩ := (Record.refuses hfinite).decode
  have hread : Json.decode shape.reader record.snapshot.json.data.toList = .error fault := hfault
  rw [decode_row_of_fits h, hread]
  rfl

end Record

/-! ## 2. One operation -/

/-- The rows of a database are those of the records in memory, all of which fit into a row. -/
structure Persists (memory : MemoryStore) (database : Database) : Prop
    extends Copies memory database where
  fits : ∀ {key record}, memory.get? key = some record → record.Fits

namespace Persists

variable {memory : MemoryStore} {database : Database} (h : Persists memory database)

include h

theorem fits_write {key : RecordKey} {next : Record} (hnext : next.Fits) :
    ∀ {other found}, (memory.write key next).get? other = some found → found.Fits :=
  MemoryStore.forall_write (fun _ _ => h.fits) key hnext _ _

theorem put {record : Record} {next : Database} (hinsert : database.insert record = .ok next) :
    ∃ memory', memory.put record = .ok memory' ∧ Persists memory' next := by
  obtain ⟨snapshot, hencode, hfree, rfl⟩ := Database.insert_eq_ok hinsert
  obtain ⟨hfits, rfl⟩ := Record.encode_eq_ok_iff.1 hencode
  have hclash : ¬database.rows.any fun row =>
      row.hasKey record.key || row.hasHash record.revisionHash := by
    rw [List.any_eq_true]
    rintro ⟨row, hrow, hany⟩
    rw [← Database.clash_ofRecord record record.snapshot] at hany
    exact hfree row hrow hany
  rw [h.any_clash_iff] at hclash
  rcases memory.put_cases record with ⟨hput, hkey, -⟩ | ⟨error, -, -, hmemory⟩
  · exact ⟨_, hput, h.append hkey (h.sound.put hput), h.fits_write hfits⟩
  · exact absurd hmemory hclash

theorem update {key : RecordKey} {delta : Delta} {expected : VersionToken} {next : Database}
    (hupdate : database.update key delta expected = .ok next) :
    ∃ memory', memory.update key delta expected = .ok memory' ∧ Persists memory' next := by
  obtain ⟨row, read, snapshot, hrow, hintact, htoken, hfree, hencode, rfl⟩ :=
    Database.update_eq_ok hupdate
  have hdecode := Row.decode_eq_ok_iff.2 hintact
  obtain ⟨hfits, rfl⟩ := Record.encode_eq_ok_iff.1 hencode
  cases hget : memory.get? key with
  | none =>
    rw [h.row?_of_none hget] at hrow
    cases hrow
  | some current =>
    rw [h.row?_of_some hget] at hrow
    cases hrow
    -- The row was read, so the record in it is the one in memory, but for the signs of zeros.
    have hfinite : current.Finite := by
      by_contra hnot
      rw [(h.fits hget).decode_row_of_not_finite hnot] at hdecode
      cases hdecode
    have hstorable := (h.fits hget).storable hfinite
    rw [hstorable.decode_row] at hdecode
    cases hdecode
    -- The delta makes of the two records such records again, and these have one row.
    have hnext := delta.unsignZeros_applyTo_congr hstorable.unsignZeros_stored
    have hadmitted : (Operation.update key delta expected).Admitted memory := by
      refine ⟨⟨current, hget, htoken⟩, fun hash hhash other found hother hfound heq => ?_⟩
      apply hfree hash hhash
      rw [h.ownedElsewhere_iff]
      exact MemoryStore.ownedElsewhere_iff.2 ⟨other, found, hother, hfound, heq⟩
    rcases memory.update_cases key delta expected with ⟨found, hfound, hok, -⟩ | ⟨-, hnot⟩
    · rw [hget] at hfound
      cases hfound
      have hwritten : (delta.applyTo current).Fits := by
        rw [Record.Fits, ← Record.json_canonical_congr hnext]
        exact hfits
      refine ⟨_, hok, ?_⟩
      have hcopies := h.replace hget (h.sound.update hok)
      rw [← Record.row_congr hnext] at hcopies
      exact ⟨hcopies, h.fits_write hwritten⟩
    · exact absurd hadmitted hnot

/-- An operation leaves the database alone, or is a write that is acknowledged in memory as well. -/
theorem handle_cases (operation : Operation) :
    ((database.handle operation).2 = database ∧
        (operation.isWrite && (database.handle operation).1.isOk) = false) ∨
      (operation.isWrite && (database.handle operation).1.isOk) = true ∧
        (operation.isWrite && (memory.handle operation).1.isOk) = true ∧
        Persists (memory.handle operation).2 (database.handle operation).2 := by
  cases operation with
  | put record =>
    have hput : RecordStore.put database record = Database.reported (database.insert record) := rfl
    rw [Database.handle, hput, MemoryStore.handle]
    cases hinsert : database.insert record with
    | error error => exact Or.inl ⟨rfl, rfl⟩
    | ok next =>
      obtain ⟨memory', hmemory, hpersists⟩ := h.put hinsert
      rw [hmemory]
      exact Or.inr ⟨rfl, rfl, hpersists⟩
  | update key delta expected =>
    have hupdates : RecordStore.update database key delta expected =
      Database.reported (database.update key delta expected) := rfl
    rw [Database.handle, hupdates, MemoryStore.handle]
    cases hupdate : database.update key delta expected with
    | error error => exact Or.inl ⟨rfl, rfl⟩
    | ok next =>
      obtain ⟨memory', hmemory, hpersists⟩ := h.update hupdate
      rw [hmemory]
      exact Or.inr ⟨rfl, rfl, hpersists⟩
  | query hash | load key => exact Or.inl ⟨rfl, rfl⟩
  | reopen =>
    rw [Database.handle, h.atCurrentVersion]
    exact Or.inl ⟨rfl, rfl⟩

/-- The writes that a database acknowledges are all acknowledged in memory, and the rows are those
of the records that they make there. -/
theorem run (operations : List Operation) :
    let writes := Operation.acknowledged Database.handle database operations
    Operation.acknowledged MemoryStore.handle memory writes = writes ∧
      Persists (Operation.run MemoryStore.handle memory writes)
        (Operation.run Database.handle database operations) := by
  induction operations generalizing memory database with
  | nil => exact ⟨rfl, h⟩
  | cons operation operations ih =>
    have hrun : Operation.run Database.handle database (operation :: operations) =
      Operation.run Database.handle (database.handle operation).2 operations := rfl
    rw [hrun, Operation.acknowledged]
    rcases h.handle_cases operation with ⟨hsame, hnone⟩ | ⟨hwrite, hmemory, hnext⟩
    · simp only [hnone, hsame, Bool.false_eq_true, if_false]
      exact ih h
    · obtain ⟨hwrites, hpersists⟩ := ih hnext
      simp only [hwrite, if_true, Operation.acknowledged, hmemory, hwrites]
      exact ⟨trivial, hpersists⟩

end Persists

/-! ## 3. Reading a record -/

namespace Database

/-- By its key and by its hash an equal of the record is found, and nothing else. -/
def Recalls (database : Database) (record : Record) : Prop :=
  ∃ found, record.Same found ∧ database.load record.key = .ok (some found) ∧
    database.query record.revisionHash = .ok [found]

/-- The row of the record is taken for damaged, by its key and by its hash, and the record cannot be
updated any more. -/
structure Loses (database : Database) (record : Record) : Prop where
  load : database.load record.key = .error (.corrupt Snapshot.unreadable)
  query : database.query record.revisionHash = .error (.corrupt Snapshot.unreadable)
  update : ∀ delta expected,
    database.update record.key delta expected = .error (.corrupt Snapshot.unreadable)

theorem Loses.not_recalls {database : Database} {record : Record} (h : database.Loses record) :
    ¬database.Recalls record := by
  rintro ⟨found, -, hload, -⟩
  rw [h.load] at hload
  cases hload

end Database

namespace Persists

variable {memory : MemoryStore} {database : Database} (h : Persists memory database)
  {key : RecordKey} {record : Record} (hget : memory.get? key = some record)

include h hget

theorem recalls (hfinite : record.Finite) : database.Recalls record := by
  have hstorable := (h.fits hget).storable hfinite
  refine ⟨record.stored, hstorable.same_stored, ?_, ?_⟩
  · rw [h.sound.keyed hget, h.load_of_some hget, hstorable.decode_row]
    rfl
  · rw [h.query_of_some hget, hstorable.decode_row]
    rfl

theorem loses (hfinite : ¬record.Finite) : database.Loses record := by
  have hdecode := (h.fits hget).decode_row_of_not_finite hfinite
  constructor
  · rw [h.sound.keyed hget, h.load_of_some hget, hdecode]
    rfl
  · rw [h.query_of_some hget, hdecode]
    rfl
  · intro delta expected
    rw [Database.update, h.sound.keyed hget, h.row?_of_some hget]
    simp only [bind, Except.bind, hdecode]

end Persists

/-! ## 4. Whole runs -/

namespace Database

theorem persists_fresh : Persists .empty fresh where
  version := rfl
  rows := List.Perm.refl _
  sound := MemoryStore.sound_empty
  fits hget := by cases hget

theorem handle_fresh_put {record : Record} (h : record.Fits) :
    fresh.handle (.put record) = (.ok .done, fresh.withRow record.row) := by
  rw [handle, put_eq (Record.encode_eq_ok_iff.2 ⟨h, rfl⟩)]
  rfl

theorem acknowledged_fresh_put {record : Record} (h : record.Fits) :
    Operation.acknowledged handle fresh [.put record] = [.put record] := by
  rw [Operation.acknowledged, handle_fresh_put h]
  rfl

theorem get?_empty_put (record : Record) :
    (Operation.run MemoryStore.handle .empty [.put record]).get? record.key = some record := by
  have hput : MemoryStore.empty.put record = .ok (MemoryStore.empty.write record.key record) := rfl
  show (MemoryStore.empty.handle (.put record)).2.get? record.key = some record
  rw [MemoryStore.handle, hput]
  exact MemoryStore.get?_write_self _ _ _

/-- Whatever is asked of a database, it has the records that the writes it acknowledged make, each
as it was written last. But it recalls only those whose doubles are finite, and loses the others. -/
theorem recalls_iff_finite (operations : List Operation) :
    let database := Operation.run handle fresh operations
    let writes := Operation.acknowledged handle fresh operations
    let memory := Operation.run MemoryStore.handle .empty writes
    Operation.acknowledged MemoryStore.handle .empty writes = writes ∧
      ∀ key record, memory.get? key = some record →
        record.key = key ∧ (database.Recalls record ↔ record.Finite) ∧
          (¬record.Finite → database.Loses record) := by
  intro database writes memory
  obtain ⟨hwrites, hpersists⟩ := persists_fresh.run operations
  refine ⟨hwrites, fun key record hget => ⟨hpersists.sound.keyed hget, ⟨?_, ?_⟩, ?_⟩⟩
  · intro hrecalls
    by_contra hnot
    exact (hpersists.loses hget hnot).not_recalls hrecalls
  · exact hpersists.recalls hget
  · exact hpersists.loses hget

theorem recalls_measured :
    let record := Record.measured "c0ffee" "first"
    let operations := [.put record]
    let writes := Operation.acknowledged handle fresh operations
    (Operation.run MemoryStore.handle .empty writes).get? record.key = some record ∧
      (Operation.run handle fresh operations).Recalls record := by
  intro record operations writes
  have hfits : record.Fits := (Record.storable_measured (by decide) (by decide)).size
  have hwrites : writes = [.put record] := acknowledged_fresh_put hfits
  have hget : (Operation.run MemoryStore.handle .empty writes).get? record.key = some record := by
    rw [hwrites]
    exact get?_empty_put record
  obtain ⟨-, hall⟩ := recalls_iff_finite operations
  obtain ⟨-, hrecalls, -⟩ := hall record.key record hget
  exact ⟨hget, hrecalls.2 (by decide)⟩

/-- A put of what was made of a sample that is not a number is acknowledged, and the record is lost
at once. -/
theorem loses_undefined :
    let record := Record.measuring (Statistics.summarize [.nan] 300) "c0ffee" "first"
    Operation.acknowledged handle fresh [.put record] = [.put record] ∧
      (Operation.run handle fresh [.put record]).Loses record ∧
        ¬(Operation.run handle fresh [.put record]).Recalls record := by
  intro record
  have hstatistics : Statistics.summarize [.nan] 300 = ⟨.nan, .nan, .nan, .nan, .nan, 300⟩ := by
    rw [Statistics.summarize, Statistics.sortSamples, List.mergeSort_singleton]
    decide +kernel
  have hfits : record.Fits := by
    apply Record.size_measuring_le
    · rw [hstatistics]
      exact (Json.length_object_le _ _).trans (by decide)
    · decide
    · decide
  have hnot : ¬record.Finite := by
    have hrecord : record =
        Record.measuring ⟨.nan, .nan, .nan, .nan, .nan, 300⟩ "c0ffee" "first" := by
      rw [← hstatistics]
    rw [hrecord]
    decide
  obtain ⟨-, hpersists⟩ := persists_fresh.run [.put record]
  rw [acknowledged_fresh_put hfits] at hpersists
  have hloses := hpersists.loses (get?_empty_put record) hnot
  exact ⟨acknowledged_fresh_put hfits, hloses, hloses.not_recalls⟩

end Database

end RevisionLedger
