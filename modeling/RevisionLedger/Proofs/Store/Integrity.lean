import Mathlib.Data.List.Pairwise
import RevisionLedger.Proofs.Store.Refinement
import RevisionLedger.Store.Edit
import RevisionLedger.Store.Statements

/-!
# Any table at all

Another program may have put anything into the cells of a table. A row is read exactly if it is
intact, that is if it passes every check (`Row.decode_eq_ok_iff`), so what is read can be trusted
whatever the table holds, and a write goes ahead only from an intact row. The statements of a write
leave the table alone if any of them fails (`Database.Distinct.perform_eq_handle`). All of it
together is `Database.fails_closed`.
-/

namespace RevisionLedger

/-! ## 1. Intact rows -/

theorem Cell.int32?_eq_some_iff {cell : Cell} {n : Int32} :
    cell.int32? = some n ↔ cell = .integer n.toInt64 := by
  constructor
  · intro h
    cases cell with
    | integer value =>
      rw [int32?] at h
      split at h
      · rename_i hrange
        cases h
        congr 1
        apply Int64.toInt_inj.1
        rw [Int32.toInt_toInt64, Int32.toInt_ofInt_of_le]
        · exact hrange.1
        · have hmax : Int32.maxValue.toInt = 2147483647 := rfl
          omega
      · cases h
    | real _ | text _ | garbled _ | blob _ => cases h
  · rintro rfl
    exact int32?_toInt64 n

theorem Cell.int64?_eq_some_iff {cell : Cell} {n : Int64} :
    cell.int64? = some n ↔ cell = .integer n := by
  cases cell <;> simp [int64?]

theorem Cell.text?_eq_some_iff {cell : Cell} {text : String} :
    cell.text? = some text ↔ cell = .text text := by
  cases cell <;> simp [text?]

theorem Cell.blob?_eq_some_iff {cell : Cell} {bytes : ByteArray} :
    cell.blob? = some bytes ↔ cell = .blob bytes := by
  cases cell <;> simp [blob?]

namespace Row

/-- The cells of a row agree with a record and with a text of it that is not too long. -/
structure Agrees (row : Row) (record : Record) (json : ByteArray) : Prop where
  content : row.recordJson = .blob json
  size : json.size ≤ Snapshot.maxBytes
  label : row.hashAlgorithm = .text Snapshot.digestLabel
  digest : row.recordHash = .text (Sha256.hex json)
  revisionHash : row.revisionHash = .text record.revisionHash.text
  versionToken : row.versionToken = .text record.versionToken.text
  yearPartition : row.yearPartition = .integer record.yearPartition.toInt64
  commitDate : row.commitDate = .integer record.commitDate

/-- The row holds a text of the record, and agrees with both. -/
def Intact (row : Row) (record : Record) : Prop :=
  ∃ json, row.Agrees record json ∧
    Json.decode Record.shape.reader json.data.toList = .ok record

theorem Agrees.hasKey_iff {row : Row} {record : Record} {json : ByteArray}
    (h : row.Agrees record json) (key : RecordKey) : row.hasKey key ↔ record.key = key := by
  rw [← hasKey_row, hasKey, hasKey, h.yearPartition, h.commitDate]
  rfl

theorem Agrees.hasHash_iff {row : Row} {record : Record} {json : ByteArray}
    (h : row.Agrees record json) (hash : RevisionHash) :
    row.hasHash hash ↔ record.revisionHash = hash := by
  rw [← hasHash_row, hasHash, hasHash, h.revisionHash]
  rfl

/-- A row that is written agrees with the record that it is written for. -/
theorem agrees_ofRecord {record : Record} {snapshot : Snapshot}
    (h : Snapshot.encode record = .ok snapshot) :
    (ofRecord record snapshot).Agrees record (record.json Json.canonical).toUTF8 := by
  rw [Snapshot.encode, Snapshot.checkSize] at h
  split at h
  · cases h
  · rename_i hsize
    cases h
    exact ⟨rfl, Nat.le_of_not_lt hsize, rfl, rfl, rfl, rfl, rfl, rfl⟩

theorem typed_bind_eq_ok {α β : Type} {cell : Option α} {next : α → Except DatabaseError β}
    {value : β} (h : typed cell >>= next = .ok value) :
    ∃ found, cell = some found ∧ next found = .ok value := by
  cases cell with
  | none => cases h
  | some found => exact ⟨found, rfl, h⟩

/-- The checks of a text: its length, its label, its digest, and that it is a record. -/
theorem decode_snapshot_eq_ok_iff {json : ByteArray} {label digest hash : String}
    {record : Record} : Snapshot.decode json label digest hash = .ok record ↔
      json.size ≤ Snapshot.maxBytes ∧ label = Snapshot.digestLabel ∧ Sha256.hex json = digest ∧
        Json.decode Record.shape.reader json.data.toList = .ok record := by
  rw [Snapshot.decode, Snapshot.checkSize]
  by_cases hsize : Snapshot.maxBytes < json.size
  · rw [if_pos hsize]
    exact iff_of_false (fun h => by cases h) fun h => Nat.not_le_of_lt hsize h.1
  · rw [if_neg hsize]
    have hle : json.size ≤ Snapshot.maxBytes := Nat.le_of_not_lt hsize
    by_cases hlabel : label = Snapshot.digestLabel
    · by_cases hdigest : Sha256.hex json = digest
      · cases hread : Json.decode Record.shape.reader json.data.toList with
        | ok found => simp [hle, hlabel, hdigest, bind, Except.bind, pure, Except.pure]
        | error fault =>
          simp [hle, hlabel, hdigest, bind, Except.bind, throw, throwThe, MonadExceptOf.throw]
      · simp [hlabel, hdigest, bind, Except.bind, throw, throwThe, MonadExceptOf.throw]
    · simp [hlabel, bind, Except.bind, throw, throwThe, MonadExceptOf.throw]

/-- A row is read exactly if it is intact. -/
theorem decode_eq_ok_iff {row : Row} {record : Record} :
    row.decode = .ok record ↔ row.Intact record := by
  constructor
  · intro h
    obtain ⟨year, hyear, h⟩ := typed_bind_eq_ok h
    obtain ⟨date, hdate, h⟩ := typed_bind_eq_ok h
    obtain ⟨hash, hhash, h⟩ := typed_bind_eq_ok h
    obtain ⟨token, htoken, h⟩ := typed_bind_eq_ok h
    obtain ⟨json, hjson, h⟩ := typed_bind_eq_ok h
    obtain ⟨digest, hdigest, h⟩ := typed_bind_eq_ok h
    obtain ⟨label, hlabel, h⟩ := typed_bind_eq_ok h
    cases hdecode : Snapshot.decode json label digest hash with
    | error error =>
      rw [hdecode] at h
      cases h
    | ok found =>
      rw [hdecode] at h
      change (if _ then _ else _) = _ at h
      split at h
      · cases h
      · rename_i hagree
        cases h
        simp only [not_or, not_not] at hagree
        obtain ⟨hhash', htoken', hkey⟩ := hagree
        obtain ⟨hsize, hlabel', hdigest', hread⟩ := decode_snapshot_eq_ok_iff.1 hdecode
        obtain ⟨hyear', hdate'⟩ := RecordKey.mk.inj hkey
        refine ⟨json, ?_, hread⟩
        exact {
          content := Cell.blob?_eq_some_iff.1 hjson
          size := hsize
          label := by rw [Cell.text?_eq_some_iff.1 hlabel, hlabel']
          digest := by rw [Cell.text?_eq_some_iff.1 hdigest, hdigest']
          revisionHash := by rw [Cell.text?_eq_some_iff.1 hhash, hhash']
          versionToken := by rw [Cell.text?_eq_some_iff.1 htoken, htoken']
          yearPartition := by rw [Cell.int32?_eq_some_iff.1 hyear, hyear']
          commitDate := by rw [Cell.int64?_eq_some_iff.1 hdate, hdate'] }
  · rintro ⟨json, h, hread⟩
    have hdecode : Snapshot.decode json Snapshot.digestLabel (Sha256.hex json)
        record.revisionHash.text = .ok record :=
      decode_snapshot_eq_ok_iff.2 ⟨h.size, rfl, rfl, hread⟩
    have hagree : ¬(record.revisionHash.text ≠ record.revisionHash.text ∨
        record.versionToken.text ≠ record.versionToken.text ∨
        record.key ≠ ⟨record.yearPartition, record.commitDate⟩) := by
      rintro (hne | hne | hne) <;> exact hne rfl
    rw [decode, h.yearPartition, h.commitDate, h.revisionHash, h.versionToken, h.content, h.digest,
      h.label, Cell.int32?_toInt64]
    simp only [Cell.int64?, Cell.text?, Cell.blob?, typed, bind, Except.bind, hdecode,
      if_neg hagree]
    rfl

end Row

/-! ## 2. Tables that keep their constraints -/

namespace Database

/-- The primary key and the unique index hold: no two rows share a key or a hash. -/
def Distinct (database : Database) : Prop := database.rows.Pairwise fun a b => ¬clash a b

theorem clash_of_hasKey {a b : Row} {key : RecordKey} (ha : a.hasKey key) (hb : b.hasKey key) :
    clash a b := by
  simp only [Row.hasKey, Bool.and_eq_true, decide_eq_true_eq] at ha hb
  simp [clash, ha, hb]

theorem clash_of_hasHash {a b : Row} {hash : RevisionHash} (ha : a.hasHash hash)
    (hb : b.hasHash hash) : clash a b := by
  simp only [Row.hasHash, decide_eq_true_eq] at ha hb
  simp [clash, ha, hb]

theorem clash_comm (a b : Row) : clash a b = clash b a := by
  rw [Bool.eq_iff_iff]
  simp only [clash, Bool.or_eq_true, Bool.and_eq_true, decide_eq_true_eq]
  simp only [eq_comm]

/-- A row of a record clashes with those that have the key or the hash of the record. -/
theorem clash_ofRecord (record : Record) (snapshot : Snapshot) (row : Row) :
    clash (Row.ofRecord record snapshot) row =
      (row.hasKey record.key || row.hasHash record.revisionHash) := by
  rw [clash_comm]
  rfl

/-- Of rows that clash with each other a table has one at most. -/
theorem filter_eq_singleton {rows : List Row} {p : Row → Bool} {row : Row}
    (h : rows.Pairwise fun a b => ¬clash a b) (hclash : ∀ a b, p a → p b → clash a b)
    (hfind : rows.find? p = some row) : rows.filter p = [row] := by
  induction rows with
  | nil => cases hfind
  | cons first rest ih =>
    obtain ⟨hfirst, hrest⟩ := List.pairwise_cons.1 h
    by_cases hp : p first
    · rw [List.find?_cons_of_pos hp] at hfind
      cases hfind
      have hnone : rest.filter p = [] := List.filter_eq_nil_iff.2 fun other hother hpother =>
        hfirst other hother (hclash row other hp hpother)
      rw [List.filter_cons_of_pos hp, hnone]
    · rw [List.find?_cons_of_neg hp] at hfind
      rw [List.filter_cons_of_neg hp, ih hrest hfind]

variable {database : Database}

theorem Distinct.filter_hasKey (h : database.Distinct) {key : RecordKey} {row : Row}
    (hrow : database.row? key = some row) : database.rows.filter (·.hasKey key) = [row] :=
  filter_eq_singleton h (fun _ _ => clash_of_hasKey) hrow

/-- The only row with a key is the one that is found. -/
theorem Distinct.eq_of_hasKey (h : database.Distinct) {key : RecordKey} {row other : Row}
    (hrow : database.row? key = some row) (hother : other ∈ database.rows)
    (hkey : other.hasKey key) : other = row := by
  have hmem : other ∈ database.rows.filter (·.hasKey key) := List.mem_filter.2 ⟨hother, hkey⟩
  rw [h.filter_hasKey hrow] at hmem
  exact List.mem_singleton.1 hmem

/-- A query looks at one row at most. -/
theorem Distinct.query_eq (h : database.Distinct) (hash : RevisionHash) :
    database.query hash = match database.rows.find? (·.hasHash hash) with
      | none => .ok []
      | some row => row.decode.map ([·]) := by
  rw [query]
  cases hfind : database.rows.find? (·.hasHash hash) with
  | none =>
    have hnone : database.rows.filter (·.hasHash hash) = [] :=
      List.filter_eq_nil_iff.2 (List.find?_eq_none.1 hfind)
    rw [hnone]
    rfl
  | some row =>
    rw [filter_eq_singleton h (fun _ _ => clash_of_hasHash) hfind]
    cases hdecode : row.decode <;> simp [hdecode, Except.map, bind, Except.bind, pure, Except.pure]

theorem mem_of_row?_eq {key : RecordKey} {row : Row} (h : database.row? key = some row) :
    row ∈ database.rows ∧ row.hasKey key := by
  have hfind : database.rows.find? (·.hasKey key) = some row := h
  have hkey := List.find?_some hfind
  exact ⟨List.mem_of_find?_eq_some hfind, hkey⟩

/-! ## 3. What a write comes to -/

section Statements

variable {α β : Type} (next : α → Statements β)

@[simp]
theorem bind_get (next : Database → Statements β) :
    (get >>= next) database = next database database :=
  rfl

@[simp]
theorem bind_liftM_ok (value : α) :
    (liftM (Except.ok value : Except DatabaseError α) >>= next) database = next value database :=
  rfl

@[simp]
theorem bind_liftM_error (error : DatabaseError) :
    (liftM (Except.error error : Except DatabaseError α) >>= next) database =
      (.error error, database) :=
  rfl

theorem bind_statements_of_ok {first : Statements α} {before after : Database} {value : α}
    (h : first before = (.ok value, after)) : (first >>= next) before = next value after := by
  change ExceptT.bindCont next (first before).1 (first before).2 = _
  rw [h]
  rfl

theorem bind_statements_of_error {first : Statements α} {before after : Database}
    {error : DatabaseError} (h : first before = (.error error, after)) :
    (first >>= next) before = (.error error, after) := by
  change ExceptT.bindCont next (first before).1 (first before).2 = _
  rw [h]
  rfl

end Statements

theorem insert_eq_ok {record : Record} {next : Database} (h : database.insert record = .ok next) :
    ∃ snapshot, Snapshot.encode record = .ok snapshot ∧
      (∀ row ∈ database.rows, ¬clash (Row.ofRecord record snapshot) row) ∧
      next = database.withRow (Row.ofRecord record snapshot) := by
  rw [insert] at h
  cases hencode : Snapshot.encode record with
  | error error =>
    rw [hencode] at h
    cases h
  | ok snapshot =>
    rw [hencode] at h
    simp only [bind, Except.bind] at h
    split at h
    · cases h
    · rename_i hfree
      cases h
      refine ⟨snapshot, rfl, fun row hrow hclash => hfree ?_, rfl⟩
      rw [clash_ofRecord] at hclash
      exact List.any_eq_true.2 ⟨row, hrow, hclash⟩

/-- The checks before an update refuse it with the table as it was, or find the record that it
applies to. -/
theorem checked_cases (database : Database) (key : RecordKey) (delta : Delta)
    (expected : VersionToken) :
    (∃ error, Statements.checked key delta expected database = (.error error, database) ∧
        database.update key delta expected = .error error) ∨
      ∃ row current, database.row? key = some row ∧ row.Intact current ∧
        current.versionToken = expected ∧
        (∀ hash ∈ delta.revisionHash, ¬database.ownedElsewhere key hash) ∧
        Statements.checked key delta expected database = (.ok current, database) ∧
        database.update key delta expected =
          (Snapshot.encode (delta.applyTo current)).map fun snapshot =>
            database.withRowAt key (Row.ofRecord (delta.applyTo current) snapshot) := by
  rw [Statements.checked, bind_get, update]
  cases hrow : database.row? key with
  | none => exact Or.inl ⟨_, rfl, rfl⟩
  | some row =>
    cases hdecode : row.decode with
    | error error =>
      left
      simp only [hdecode, bind_liftM_error]
      exact ⟨error, rfl, rfl⟩
    | ok current =>
      have hok {α : Type} (rest : Record → Except DatabaseError α) :
          Except.ok current >>= rest = rest current := rfl
      simp only [hdecode, bind_liftM_ok, hok]
      by_cases htoken : current.versionToken = expected
      · simp only [htoken, ne_eq, not_true_eq_false, if_false]
        cases hfilter : delta.revisionHash.filter (database.ownedElsewhere key) with
        | some hash => exact Or.inl ⟨_, rfl, rfl⟩
        | none =>
          right
          have hfree : ∀ hash ∈ delta.revisionHash, ¬database.ownedElsewhere key hash := by
            intro hash hhash howned
            rw [hhash, Option.filter_some, if_pos howned] at hfilter
            cases hfilter
          refine ⟨row, current, rfl, Row.decode_eq_ok_iff.1 hdecode, htoken, hfree, rfl, ?_⟩
          cases Snapshot.encode (delta.applyTo current) <;> rfl
      · simp only [htoken, ne_eq, not_false_eq_true, if_true]
        exact Or.inl ⟨_, rfl, rfl⟩

theorem update_eq_ok {key : RecordKey} {delta : Delta} {expected : VersionToken} {next : Database}
    (h : database.update key delta expected = .ok next) :
    ∃ row current snapshot, database.row? key = some row ∧ row.Intact current ∧
      current.versionToken = expected ∧
      (∀ hash ∈ delta.revisionHash, ¬database.ownedElsewhere key hash) ∧
      Snapshot.encode (delta.applyTo current) = .ok snapshot ∧
      next = database.withRowAt key (Row.ofRecord (delta.applyTo current) snapshot) := by
  rcases database.checked_cases key delta expected with ⟨error, -, herror⟩ |
    ⟨row, current, hrow, hintact, htoken, hfree, -, hupdate⟩
  · rw [herror] at h
    cases h
  · rw [hupdate] at h
    cases hencode : Snapshot.encode (delta.applyTo current) with
    | error error =>
      rw [hencode] at h
      cases h
    | ok snapshot =>
      rw [hencode] at h
      cases h
      exact ⟨row, current, snapshot, hrow, hintact, htoken, hfree, hencode, rfl⟩

/-- The row that an update writes clashes with no row of another key. -/
theorem Distinct.not_clash_written (h : database.Distinct) {key : RecordKey} {row : Row}
    {current : Record} (hrow : database.row? key = some row) (hintact : row.Intact current)
    {delta : Delta} (hfree : ∀ hash ∈ delta.revisionHash, ¬database.ownedElsewhere key hash)
    (snapshot : Snapshot) {other : Row} (hother : other ∈ database.rows)
    (hkey : ¬other.hasKey key) : ¬clash (Row.ofRecord (delta.applyTo current) snapshot) other := by
  obtain ⟨json, hagrees, -⟩ := hintact
  obtain ⟨hmem, hhas⟩ := mem_of_row?_eq hrow
  have hcurrent : (delta.applyTo current).key = key := (hagrees.hasKey_iff key).1 hhas
  rw [clash_ofRecord, hcurrent, Bool.or_eq_true]
  rintro (hsame | hhash)
  · exact hkey hsame
  · cases hdelta : delta.revisionHash with
    | some hash =>
      -- The table was asked whether another row has the hash that the delta brings.
      rw [Delta.applyTo, hdelta, Option.getD_some] at hhash
      apply hfree hash hdelta
      apply List.any_eq_true.2
      exact ⟨other, hother, by simp [hhash, hkey]⟩
    | none =>
      -- The hash stays, and no other row has that of the row itself.
      rw [Delta.revisionHash_applyTo hdelta] at hhash
      have hclash : clash row other := clash_of_hasHash ((hagrees.hasHash_iff _).2 rfl) hhash
      have hne : row ≠ other := fun heq => hkey (heq ▸ hhas)
      have : Std.Symm fun a b => ¬clash a b := ⟨fun a b hab => clash_comm a b ▸ hab⟩
      exact h.forall hmem hother hne hclash

theorem Distinct.insert {record : Record} {next : Database} (h : database.Distinct)
    (hinsert : database.insert record = .ok next) : next.Distinct := by
  obtain ⟨snapshot, -, hfree, rfl⟩ := insert_eq_ok hinsert
  apply List.pairwise_append.2
  refine ⟨h, List.pairwise_singleton _ _, fun row hrow written hwritten => ?_⟩
  rw [List.mem_singleton.1 hwritten, clash_comm]
  exact hfree row hrow

theorem Distinct.withRowAt (h : database.Distinct) {key : RecordKey} {row : Row}
    {current : Record} (hrow : database.row? key = some row) (hintact : row.Intact current)
    {delta : Delta} (hfree : ∀ hash ∈ delta.revisionHash, ¬database.ownedElsewhere key hash)
    (snapshot : Snapshot) :
    (database.withRowAt key (Row.ofRecord (delta.applyTo current) snapshot)).Distinct := by
  have hfree' {other : Row} (hother : other ∈ database.rows) (hkey : ¬other.hasKey key) :=
    h.not_clash_written hrow hintact hfree snapshot hother hkey
  apply List.pairwise_map.2
  refine h.imp_of_mem fun {a b} ha hb hab => ?_
  by_cases hkeyA : a.hasKey key <;> by_cases hkeyB : b.hasKey key
  · exact absurd (clash_of_hasKey hkeyA hkeyB) hab
  · rw [if_pos hkeyA, if_neg hkeyB]
    exact hfree' hb hkeyB
  · rw [if_neg hkeyA, if_pos hkeyB, clash_comm]
    exact hfree' ha hkeyA
  · rwa [if_neg hkeyA, if_neg hkeyB]

/-! ## 4. Writes made of statements -/

/-- What is left by a write as it is answered: the table that results, or the old one. -/
def outcome (database : Database) :
    Except DatabaseError Database → Except DatabaseError Unit × Database
  | .ok next => (.ok (), next)
  | .error error => (.error error, database)

theorem put_statements (database : Database) (record : Record) :
    Statements.put record database = database.outcome (database.insert record) := by
  rw [insert, Statements.put]
  cases hencode : Snapshot.encode record with
  | error error => rfl
  | ok snapshot =>
    have hclash : clash (Row.ofRecord record snapshot) =
        fun row => row.hasKey record.key || row.hasHash record.revisionHash :=
      funext (clash_ofRecord record snapshot)
    change Statements.insertRow record.revisionHash (Row.ofRecord record snapshot) database = _
    rw [Statements.insertRow, bind_get, hclash]
    simp only [bind, Except.bind]
    split <;> rfl

/-- Rows are changed if the table keeps its constraints. -/
theorem updateRows_eq {selected : Row → Bool} {change : Row → Row}
    (h : (database.rows.map fun row => if selected row then change row else row).Pairwise
      fun a b => ¬clash a b) (hash : RevisionHash) :
    Statements.updateRows hash selected change database =
      (.ok (database.rows.countP selected), { database with
        rows := database.rows.map fun row => if selected row then change row else row }) := by
  rw [Statements.updateRows, bind_get, if_neg (not_not.2 h)]
  rfl

/-- The statement of an update changes the one row with the key. -/
theorem Distinct.rewrite_eq (h : database.Distinct) {key : RecordKey} {row : Row}
    {current : Record} (hrow : database.row? key = some row) (hintact : row.Intact current)
    {delta : Delta} (hfree : ∀ hash ∈ delta.revisionHash, ¬database.ownedElsewhere key hash)
    (snapshot : Snapshot) (hash : RevisionHash) :
    Statements.updateRows hash
        (fun row => row.hasKey key && row.versionToken = .text current.versionToken.text)
        (Statements.rewrite (delta.applyTo current) snapshot) database =
      (.ok 1, database.withRowAt key (Row.ofRecord (delta.applyTo current) snapshot)) := by
  have hdistinct := h.withRowAt hrow hintact hfree snapshot
  obtain ⟨json, hagrees, -⟩ := hintact
  -- The token was read from this row, so the condition on it leaves the row selected.
  have hselected : ∀ other ∈ database.rows,
      (other.hasKey key && other.versionToken = .text current.versionToken.text) =
        other.hasKey key := by
    intro other hother
    by_cases hkey : other.hasKey key
    · rw [h.eq_of_hasKey hrow hother hkey, hagrees.versionToken]
      simp
    · simp [hkey]
  have hrows : (database.rows.map fun other =>
      if other.hasKey key && other.versionToken = .text current.versionToken.text then
        Statements.rewrite (delta.applyTo current) snapshot other else other) =
      (database.withRowAt key (Row.ofRecord (delta.applyTo current) snapshot)).rows := by
    apply List.map_congr_left
    intro other hother
    simp only [hselected other hother]
    split
    · -- The key columns are not set, and hold the key of the record already.
      rw [h.eq_of_hasKey hrow hother ‹_›, Statements.rewrite, hagrees.yearPartition,
        hagrees.commitDate]
      rfl
    · rfl
  have hcount : (database.rows.countP fun other =>
      other.hasKey key && other.versionToken = .text current.versionToken.text) = 1 := by
    rw [List.countP_congr fun other hother => by rw [hselected other hother],
      List.countP_eq_length_filter, h.filter_hasKey hrow]
    rfl
  rw [updateRows_eq (hrows ▸ hdistinct), hrows, hcount]
  rfl

/-- What the checks allow goes through, for the table has the same constraints. -/
theorem Distinct.update_statements (h : database.Distinct) (key : RecordKey) (delta : Delta)
    (expected : VersionToken) : Statements.update key delta expected database =
      database.outcome (database.update key delta expected) := by
  rw [Statements.update, Statements.transaction]
  rcases database.checked_cases key delta expected with ⟨error, hchecked, hupdate⟩ |
    ⟨row, current, hrow, hintact, rfl, hfree, hchecked, hupdate⟩
  · rw [bind_statements_of_error _ hchecked, hupdate]
    rfl
  · rw [bind_statements_of_ok _ hchecked, hupdate]
    cases hencode : Snapshot.encode (delta.applyTo current) with
    | error error => rfl
    | ok snapshot =>
      rw [bind_liftM_ok, bind_statements_of_ok _ (h.rewrite_eq hrow hintact hfree snapshot _)]
      rfl

/-! ## 5. Operations -/

/-- The reply to a script and the table that it leaves. -/
def answered (result : Except DatabaseError Unit × Database) : Except StoreError Reply × Database :=
  (reported (result.1.map fun _ => .done), result.2)

/-- Answers an operation as `handle` does, but makes a write statement by statement. -/
def perform (database : Database) : Operation → Except StoreError Reply × Database
  | .put record => answered (Statements.put record database)
  | .update key delta expected => answered (Statements.update key delta expected database)
  | operation => database.handle operation

theorem answered_outcome (database : Database) (result : Except DatabaseError Database) :
    answered (database.outcome result) = afterWrite database (reported result) := by
  cases result <;> rfl

theorem Distinct.perform_eq_handle (h : database.Distinct) (operation : Operation) :
    database.perform operation = database.handle operation := by
  cases operation with
  | put record =>
    rw [perform, put_statements, answered_outcome]
    rfl
  | update key delta expected =>
    rw [perform, h.update_statements, answered_outcome]
    rfl
  | query _ | load _ | reopen => rfl

/-- The row under the key of a record was written for the record, and no other row has changed. -/
structure Wrote (before : Database) (record : Record) (after : Database) : Prop where
  version : after.schemaVersion = before.schemaVersion
  others : after.rows.filter (!·.hasKey record.key) = before.rows.filter (!·.hasKey record.key)
  row : ∃ row, after.rows.filter (·.hasKey record.key) = [row] ∧
    row.Agrees record (record.json Json.canonical).toUTF8

theorem wrote_insert {record : Record} {next : Database} (h : database.insert record = .ok next) :
    database.Wrote record next := by
  obtain ⟨snapshot, hencode, hfree, rfl⟩ := insert_eq_ok h
  have hagrees := Row.agrees_ofRecord hencode
  have hkey : (Row.ofRecord record snapshot).hasKey record.key := (hagrees.hasKey_iff _).2 rfl
  have hnone : database.rows.filter (·.hasKey record.key) = [] :=
    List.filter_eq_nil_iff.2 fun row hrow hhas => hfree row hrow (clash_of_hasKey hkey hhas)
  constructor
  · rfl
  · simp [withRow, List.filter_append, hkey]
  · refine ⟨Row.ofRecord record snapshot, ?_, hagrees⟩
    simp [withRow, List.filter_append, hkey, hnone]

theorem Distinct.wrote_update (h : database.Distinct) {key : RecordKey} {delta : Delta}
    {expected : VersionToken} {next : Database}
    (hupdate : database.update key delta expected = .ok next) :
    ∃ row current, database.row? key = some row ∧ row.Intact current ∧
      current.versionToken = expected ∧ (delta.applyTo current).key = key ∧
      database.Wrote (delta.applyTo current) next := by
  obtain ⟨row, current, snapshot, hrow, hintact, htoken, -, hencode, rfl⟩ := update_eq_ok hupdate
  have hagrees := Row.agrees_ofRecord hencode
  have hcurrent : (delta.applyTo current).key = key := by
    obtain ⟨json, hagrees, -⟩ := hintact
    exact (hagrees.hasKey_iff key).1 (mem_of_row?_eq hrow).2
  have hkey : (Row.ofRecord (delta.applyTo current) snapshot).hasKey key :=
    (hagrees.hasKey_iff key).2 hcurrent
  let change (old : Row) : Row :=
    if old.hasKey key then Row.ofRecord (delta.applyTo current) snapshot else old
  -- The row that is written has the key that the row before it had.
  have hkept (old : Row) : (change old).hasKey key = old.hasKey key := by
    by_cases hold : old.hasKey key
    · rw [show change old = _ from if_pos hold, hkey, hold]
    · rw [show change old = old from if_neg hold]
  have hothers : (database.rows.map change).filter (!·.hasKey key) =
      database.rows.filter (!·.hasKey key) := by
    rw [List.filter_map, Function.comp_def]
    simp only [hkept]
    conv_rhs => rw [← List.map_id (database.rows.filter (!·.hasKey key))]
    apply List.map_congr_left
    intro old hold
    have hnot : ¬old.hasKey key := by simpa using (List.mem_filter.1 hold).2
    exact if_neg hnot
  have hrow' : (database.rows.map change).filter (·.hasKey key) =
      [Row.ofRecord (delta.applyTo current) snapshot] := by
    rw [List.filter_map, Function.comp_def]
    simp only [hkept]
    rw [h.filter_hasKey hrow]
    exact congrArg ([·]) (if_pos (mem_of_row?_eq hrow).2)
  refine ⟨row, current, hrow, hintact, htoken, hcurrent, rfl, ?_, ⟨_, ?_, hagrees⟩⟩
  · rw [hcurrent]
    exact hothers
  · rw [hcurrent]
    exact hrow'

/-- A record is loaded from the row under its key. -/
theorem load_eq_ok {key : RecordKey} {record : Record}
    (h : database.load key = .ok (some record)) :
    record.key = key ∧ ∃ row, database.row? key = some row ∧ row.Intact record := by
  rw [load] at h
  cases hrow : database.row? key with
  | none =>
    rw [hrow] at h
    cases h
  | some row =>
    cases hdecode : row.decode with
    | error error =>
      simp only [hrow, hdecode] at h
      cases h
    | ok found =>
      simp only [hrow, hdecode] at h
      cases h
      have hintact := Row.decode_eq_ok_iff.1 hdecode
      obtain ⟨json, hagrees, -⟩ := id hintact
      exact ⟨(hagrees.hasKey_iff key).1 (mem_of_row?_eq hrow).2, row, rfl, hintact⟩

/-- The record of a hash is found in the only row of the hash. -/
theorem Distinct.query_eq_ok (h : database.Distinct) {hash : RevisionHash} {records : List Record}
    (hquery : database.query hash = .ok records) : records = [] ∨ ∃ record, records = [record] ∧
      record.revisionHash = hash ∧ ∃ row ∈ database.rows, row.hasHash hash ∧ row.Intact record := by
  rw [h.query_eq] at hquery
  cases hfind : database.rows.find? (·.hasHash hash) with
  | none =>
    rw [hfind] at hquery
    cases hquery
    exact Or.inl rfl
  | some row =>
    have hhash := List.find?_some hfind
    cases hdecode : row.decode with
    | error error =>
      simp only [hfind, hdecode] at hquery
      cases hquery
    | ok record =>
      simp only [hfind, hdecode] at hquery
      cases hquery
      have hintact := Row.decode_eq_ok_iff.1 hdecode
      obtain ⟨json, hagrees, -⟩ := id hintact
      exact Or.inr ⟨record, rfl, (hagrees.hasHash_iff hash).1 hhash, row,
        List.mem_of_find?_eq_some hfind, hhash, hintact⟩

theorem afterWrite_eq_done {result : Except DatabaseError Database} {next : Database}
    (h : afterWrite database (reported result) = (.ok .done, next)) : result = .ok next := by
  cases result with
  | ok changed =>
    cases h
    rfl
  | error error => cases h

theorem eq_of_afterWrite_eq_error {result : Except DatabaseError Database} {error : StoreError}
    {next : Database} (h : afterWrite database (reported result) = (.error error, next)) :
    next = database := by
  cases result with
  | ok changed => cases h
  | error refusal =>
    cases h
    rfl

/-! ## 6. Failing closed -/

/-- What is answered can be trusted: a record that is found is that of an intact row, a write that
is acknowledged is that of one record, and what is refused has no effect. -/
structure FailsClosed (database : Database) : Prop where
  load : ∀ key record, (database.perform (.load key)).1 = .ok (.loaded (some record)) →
    record.key = key ∧ ∃ row, database.row? key = some row ∧ row.Intact record
  query : ∀ hash records, (database.perform (.query hash)).1 = .ok (.found records) →
    records = [] ∨ ∃ record, records = [record] ∧ record.revisionHash = hash ∧
      ∃ row ∈ database.rows, row.hasHash hash ∧ row.Intact record
  put : ∀ record next, database.perform (.put record) = (.ok .done, next) →
    database.Wrote record next
  update : ∀ key delta expected next,
    database.perform (.update key delta expected) = (.ok .done, next) →
      ∃ row current, database.row? key = some row ∧ row.Intact current ∧
        current.versionToken = expected ∧ (delta.applyTo current).key = key ∧
        database.Wrote (delta.applyTo current) next
  refused : ∀ operation error next, database.perform operation = (.error error, next) →
    next = database

theorem Distinct.perform (h : database.Distinct) (operation : Operation) :
    (database.perform operation).2.Distinct := by
  have hwrite {result : Except DatabaseError Database}
      (hresult : ∀ next, result = .ok next → next.Distinct) :
      (afterWrite database (reported result)).2.Distinct := by
    cases result with
    | ok next => exact hresult next rfl
    | error error => exact h
  rw [h.perform_eq_handle]
  cases operation with
  | put record => exact hwrite fun next hnext => h.insert hnext
  | update key delta expected =>
    apply hwrite
    intro next hnext
    obtain ⟨row, current, snapshot, hrow, hintact, -, hfree, -, rfl⟩ := update_eq_ok hnext
    exact h.withRowAt hrow hintact hfree snapshot
  | query _ | load _ => exact h
  | reopen =>
    apply hwrite
    intro next hnext
    rw [atCurrentVersion] at hnext
    split at hnext
    · cases hnext
      exact h
    · split at hnext
      · cases hnext
        exact h
      · cases hnext

/-- The store fails closed on any table that keeps its constraints. -/
theorem fails_closed (database : Database) (h : database.Distinct) : database.FailsClosed := by
  constructor
  · intro key record hload
    rw [h.perform_eq_handle, handle] at hload
    cases hresult : database.load key with
    | error error =>
      rw [hresult] at hload
      cases hload
    | ok loaded =>
      rw [hresult] at hload
      cases hload
      exact load_eq_ok hresult
  · intro hash records hquery
    rw [h.perform_eq_handle, handle] at hquery
    change (reported (database.query hash)).map _ = _ at hquery
    cases hresult : database.query hash with
    | error error =>
      rw [hresult] at hquery
      cases hquery
    | ok found =>
      rw [hresult] at hquery
      cases hquery
      exact h.query_eq_ok hresult
  · intro record next hput
    rw [h.perform_eq_handle] at hput
    exact wrote_insert (afterWrite_eq_done hput)
  · intro key delta expected next hupdate
    rw [h.perform_eq_handle] at hupdate
    exact h.wrote_update (afterWrite_eq_done hupdate)
  · intro operation error next hrefused
    rw [h.perform_eq_handle] at hrefused
    cases operation with
    | put _ | update _ _ _ | reopen => exact eq_of_afterWrite_eq_error hrefused
    | query _ | load _ => exact (Prod.mk.inj hrefused).2.symm

/-- A table with an intact row and an edited one. The columns keep what was written into them: a
year that is no number, and a text that is no text. -/
def tampered : Database where
  schemaVersion := some currentVersion
  rows := [(Record.measured "c0ffee" "first").row,
    Column.yearPartition.set (.text "someday")
      (Column.recordJson.set (.garbled ⟨#[0xff]⟩) (Record.measured "decade" "second").row)]

-- A year that spells a number would not stay a text.
example : (Cell.text "someday").convert .integer = .text "someday" ∧
    (Cell.text "2025").convert .integer = .integer 2025 := by decide

theorem fails_closed_tampered : tampered.Distinct ∧ tampered.FailsClosed := by
  have h : tampered.Distinct := by
    refine .cons (fun row hrow => ?_) (List.pairwise_singleton _ _)
    rw [List.mem_singleton.1 hrow]
    decide
  exact ⟨h, fails_closed tampered h⟩

end Database

end RevisionLedger
