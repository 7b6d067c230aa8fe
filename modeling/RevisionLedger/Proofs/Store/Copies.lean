import RevisionLedger.Proofs.Store.Database
import RevisionLedger.Proofs.Store.Memory

/-!
# Rows for records

A database copies an in-memory store if its rows are those of the records in memory, in some order.
Look-ups by key and by hash then find the row of the record that the in-memory store finds, and a
row that is added or replaced copies a record that is written.
-/

namespace RevisionLedger

/-- The rows of a database are those of the records in memory, in some order. -/
structure Copies (memory : MemoryStore) (database : Database) : Prop where
  version : database.schemaVersion = some Database.currentVersion
  rows : database.rows.Perm (memory.records.toList.map fun entry => entry.2.row)
  sound : memory.Sound

namespace Copies

variable {memory : MemoryStore} {database : Database} (h : Copies memory database)

include h

/-! ## 1. Look-ups -/

theorem mem_rows {row : Row} :
    row ∈ database.rows ↔ ∃ key record, memory.get? key = some record ∧ record.row = row := by
  rw [h.rows.mem_iff, List.mem_map]
  constructor
  · intro ⟨entry, hentry, hrow⟩
    exact ⟨entry.1, entry.2, (SortedMap.find?_eq_some_iff _).2 hentry, hrow⟩
  · intro ⟨key, record, hget, hrow⟩
    exact ⟨(key, record), (SortedMap.find?_eq_some_iff _).1 hget, hrow⟩

/-- Only the row of the record under a key has the key. -/
theorem row?_of_some {key : RecordKey} {record : Record} (hget : memory.get? key = some record) :
    database.row? key = some record.row := by
  have hkey : record.key = key := h.sound.keyed hget
  cases hrow : database.row? key with
  | none =>
    have hnot := List.find?_eq_none.1 hrow record.row (h.mem_rows.2 ⟨key, record, hget, rfl⟩)
    exact absurd (Row.hasKey_row.2 hkey) hnot
  | some row =>
    -- Some row has the key; it is the row of the record that stands under the key.
    obtain ⟨other, found, hfound, rfl⟩ := h.mem_rows.1 (List.mem_of_find?_eq_some hrow)
    have hfind : database.rows.find? (·.hasKey key) = some found.row := hrow
    have hhas := List.find?_some hfind
    have hother : found.key = key := Row.hasKey_row.1 hhas
    rw [← h.sound.keyed hfound, hother, hget] at hfound
    rw [Option.some.inj hfound]

theorem row?_of_none {key : RecordKey} (hget : memory.get? key = none) :
    database.row? key = none := by
  refine List.find?_eq_none.2 fun row hrow hhas => ?_
  obtain ⟨other, found, hfound, rfl⟩ := h.mem_rows.1 hrow
  rw [← h.sound.keyed hfound, Row.hasKey_row.1 hhas, hget] at hfound
  cases hfound

theorem ownedElsewhere_iff (key : RecordKey) (hash : RevisionHash) :
    database.ownedElsewhere key hash ↔ memory.ownedElsewhere key hash := by
  rw [MemoryStore.ownedElsewhere_iff, Database.ownedElsewhere, List.any_eq_true]
  constructor
  · intro ⟨row, hrow, howned⟩
    obtain ⟨other, found, hfound, rfl⟩ := h.mem_rows.1 hrow
    rw [Bool.and_eq_true, Bool.not_eq_true', ← Bool.not_eq_true] at howned
    refine ⟨other, found, fun heq => howned.2 ?_, hfound, Row.hasHash_row.1 howned.1⟩
    rw [Row.hasKey_row, h.sound.keyed hfound, heq]
  · intro ⟨other, found, hother, hfound, hhash⟩
    refine ⟨found.row, h.mem_rows.2 ⟨other, found, hfound, rfl⟩, ?_⟩
    rw [Bool.and_eq_true, Bool.not_eq_true', ← Bool.not_eq_true, Row.hasKey_row, Row.hasHash_row,
      h.sound.keyed hfound]
    exact ⟨hhash, hother⟩

/-- The rows of a hash are those of the records that a query in memory finds. -/
theorem filter_hasHash (hash : RevisionHash) : (database.rows.filter (·.hasHash hash)).Perm
    ((memory.query hash).map Record.row) := by
  have hfilter := h.rows.filter (·.hasHash hash)
  have hpred : (·.hasHash hash) ∘ (fun entry : RecordKey × Record => entry.2.row) =
      (fun record : Record => decide (record.revisionHash = hash)) ∘ Prod.snd := by
    funext entry
    exact Bool.eq_iff_iff.2 (Row.hasHash_row.trans decide_eq_true_iff.symm)
  rw [List.filter_map, hpred] at hfilter
  rw [MemoryStore.query, List.filter_map, List.map_map]
  exact hfilter

theorem load_of_some {key : RecordKey} {record : Record} (hget : memory.get? key = some record) :
    database.load key = record.row.decode.map some := by
  rw [Database.load, h.row?_of_some hget]

theorem load_of_none {key : RecordKey} (hget : memory.get? key = none) :
    database.load key = .ok none := by
  rw [Database.load, h.row?_of_none hget]

theorem query_of_some {key : RecordKey} {record : Record} (hget : memory.get? key = some record) :
    database.query record.revisionHash = record.row.decode.map fun found => [found] := by
  have hrows := h.filter_hasHash record.revisionHash
  -- No other record has the hash, so there is one row to read.
  rw [h.sound.query_of_get? hget, List.map_singleton, List.perm_singleton] at hrows
  rw [Database.query, hrows, List.mapM_cons]
  cases record.row.decode <;> rfl

theorem query_of_nil {hash : RevisionHash} (hquery : memory.query hash = []) :
    database.query hash = .ok [] := by
  have hrows := h.filter_hasHash hash
  rw [hquery, List.map_nil, List.perm_nil] at hrows
  rw [Database.query, hrows]
  rfl

theorem atCurrentVersion : database.atCurrentVersion = .ok database := by
  rw [Database.atCurrentVersion, h.version]
  exact if_pos rfl

/-- Whether a row clashes with a new one is whether a record in memory does. -/
theorem any_clash_iff (record : Record) :
    (database.rows.any fun row =>
        row.hasKey record.key || row.hasHash record.revisionHash) ↔
      (∃ found, memory.get? record.key = some found) ∨ ∃ key found,
        memory.get? key = some found ∧ found.revisionHash = record.revisionHash := by
  rw [List.any_eq_true]
  constructor
  · intro ⟨row, hrow, hclash⟩
    obtain ⟨key, found, hfound, rfl⟩ := h.mem_rows.1 hrow
    rcases Bool.or_eq_true_iff.1 hclash with hkey | hhash
    · rw [← Row.hasKey_row.1 hkey, h.sound.keyed hfound]
      exact Or.inl ⟨found, hfound⟩
    · exact Or.inr ⟨key, found, hfound, Row.hasHash_row.1 hhash⟩
  · rintro (⟨found, hfound⟩ | ⟨key, found, hfound, hhash⟩)
    · refine ⟨found.row, h.mem_rows.2 ⟨record.key, found, hfound, rfl⟩, Bool.or_eq_true_iff.2 ?_⟩
      exact Or.inl (Row.hasKey_row.2 (h.sound.keyed hfound))
    · refine ⟨found.row, h.mem_rows.2 ⟨key, found, hfound, rfl⟩, Bool.or_eq_true_iff.2 ?_⟩
      exact Or.inr (Row.hasHash_row.2 hhash)

/-! ## 2. Writes -/

theorem append {record : Record} (hkey : memory.get? record.key = none)
    (hsound : (memory.write record.key record).Sound) :
    Copies (memory.write record.key record) (database.withRow record.row) where
  version := h.version
  rows := by
    -- The new row is the last one; the new entry stands wherever its key puts it.
    have hentries := (SortedMap.toList_insert_of_none hkey record).map fun entry => entry.2.row
    have hrows := (List.perm_append_singleton record.row database.rows).trans (h.rows.cons _)
    exact hrows.trans hentries.symm
  sound := hsound

theorem replace {key : RecordKey} {current next : Record} (hget : memory.get? key = some current)
    (hsound : (memory.write key next).Sound) :
    Copies (memory.write key next) (database.withRowAt key next.row) where
  version := h.version
  rows := by
    have hentries := SortedMap.toList_insert_of_some hget next
    have hrows := h.rows.map fun row => if row.hasKey key then next.row else row
    have hsame : (memory.write key next).records.toList.map (fun entry => entry.2.row) =
        (memory.records.toList.map fun entry => entry.2.row).map fun row =>
          if row.hasKey key then next.row else row := by
      show (memory.records.insert key next).toList.map _ = _
      rw [hentries, List.map_map, List.map_map]
      refine List.map_congr_left fun entry hentry => ?_
      -- A row has the key exactly if its entry does, for a record stands under its own key.
      have hkeyed := h.sound.keyed ((SortedMap.find?_eq_some_iff _).2 hentry)
      by_cases hkey : compare key entry.1 = .eq
      · have hhas : entry.2.row.hasKey key := Row.hasKey_row.2
          (hkeyed.trans (Std.LawfulEqOrd.eq_of_compare hkey).symm)
        simp only [Function.comp_apply, if_pos hkey, if_pos hhas]
      · have hhas : ¬entry.2.row.hasKey key := fun hhas => hkey (by
          rw [← Row.hasKey_row.1 hhas, hkeyed]
          exact Std.ReflCmp.compare_self)
        simp only [Function.comp_apply, if_neg hkey, if_neg hhas]
    rw [hsame]
    exact hrows
  sound := hsound

end Copies

end RevisionLedger
