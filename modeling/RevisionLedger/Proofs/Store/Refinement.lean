import RevisionLedger.Proofs.Store.Copies

/-!
# The durable store refines the in-memory store

Both stores are given the same operations from empty stores on. The durable one mirrors the other:
its rows are those of the records that the other one holds, in some order (`Mirrors`). A row can be
read as its record, so each operation finds the same and decides the same in both, and leaves the
one a mirror of the other (`Mirrors.handle`). Over a whole run the answers agree at every step
(`Database.refines_memory`).
-/

namespace RevisionLedger

/-! ## 1. Operations -/

/-- What a store is asked for. -/
inductive Operation
  | put (record : Record)
  | update (key : RecordKey) (delta : Delta) (expected : VersionToken)
  | query (hash : RevisionHash)
  | load (key : RecordKey)
  /-- The file of a durable store is closed and opened again. -/
  | reopen

/-- What a store answers. -/
inductive Reply
  | done
  | found (records : List Record)
  | loaded (record : Option Record)

/-- The reply to a write and the store after it; a write that is refused changes nothing. -/
def afterWrite {σ : Type} (store : σ) : Except StoreError σ → Except StoreError Reply × σ
  | .ok next => (.ok .done, next)
  | .error error => (.error error, store)

def MemoryStore.handle (store : MemoryStore) : Operation → Except StoreError Reply × MemoryStore
  | .put record => afterWrite store (store.put record)
  | .update key delta expected => afterWrite store (store.update key delta expected)
  | .query hash => (.ok (.found (store.query hash)), store)
  | .load key => (.ok (.loaded (store.get? key)), store)
  | .reopen => (.ok .done, store)

def Database.handle (database : Database) : Operation → Except StoreError Reply × Database
  | .put record => afterWrite database (RecordStore.put database record)
  | .update key delta expected =>
    afterWrite database (RecordStore.update database key delta expected)
  | .query hash => ((RecordStore.query database hash).map .found, database)
  | .load key => ((reported (database.load key)).map .loaded, database)
  | .reopen => afterWrite database (reported database.atCurrentVersion)

namespace Operation

/-- The replies to operations, each with the store after it. -/
def history {σ : Type} (handle : σ → Operation → Except StoreError Reply × σ) :
    σ → List Operation → List (Except StoreError Reply × σ)
  | _, [] => []
  | store, operation :: operations =>
    handle store operation :: history handle (handle store operation).2 operations

/-- Whether the record of a put and the record that an update results in fit into a row. -/
def Storable (store : MemoryStore) : Operation → Prop
  | .put record => record.Storable
  | .update key delta expected => ∀ next record, store.update key delta expected = .ok next →
      next.get? key = some record → record.Storable
  | _ => True

/-- Whether this holds of every operation of a run. -/
def AllStorable : MemoryStore → List Operation → Prop
  | _, [] => True
  | store, operation :: operations =>
    operation.Storable store ∧ AllStorable (store.handle operation).2 operations

end Operation

/-! ## 2. Agreement -/

/-- Errors of one variant, which is one of three. -/
inductive StoreError.Alike : StoreError → StoreError → Prop
  | conflict (a b : String) : Alike (.conflict a) (.conflict b)
  | notFound (a b : String) : Alike (.notFound a) (.notFound b)
  | invalid (a b : String) : Alike (.invalid a) (.invalid b)

/-- Replies with equal records. -/
inductive Reply.Same : Reply → Reply → Prop
  | done : Same .done .done
  | found {a b : List Record} (h : List.Forall₂ Record.Same a b) : Same (.found a) (.found b)
  | loaded {a b : Option Record} (h : Option.Rel Record.Same a b) : Same (.loaded a) (.loaded b)

/-- Two stores give the same answer: equal records, or errors of one variant. -/
inductive Agree : Except StoreError Reply → Except StoreError Reply → Prop
  | ok {a b : Reply} (h : a.Same b) : Agree (.ok a) (.ok b)
  | error {a b : StoreError} (h : a.Alike b) : Agree (.error a) (.error b)

/-- The stores hold equal records under the same keys, and the durable one nothing else. -/
structure SameRecords (memory : MemoryStore) (database : Database) : Prop where
  load : ∀ key, ∃ loaded, database.load key = .ok loaded ∧
    Option.Rel Record.Same (memory.get? key) loaded
  size : database.rows.length = memory.records.size

/-! ## 3. Mirrors -/

/-- The rows of a database are those of the records in memory, in some order. -/
structure Mirrors (memory : MemoryStore) (database : Database) : Prop where
  version : database.schemaVersion = some Database.currentVersion
  rows : database.rows.Perm (memory.records.toList.map fun entry => entry.2.row)
  sound : memory.Sound
  storable : ∀ {key record}, memory.get? key = some record → record.Storable

/-- Results of a write on both stores: mirrors, or errors of one variant. -/
inductive Matches : Except StoreError MemoryStore → Except StoreError Database → Prop
  | ok {memory : MemoryStore} {database : Database} (h : Mirrors memory database) :
      Matches (.ok memory) (.ok database)
  | error {a b : StoreError} (h : a.Alike b) : Matches (.error a) (.error b)

namespace Mirrors

variable {memory : MemoryStore} {database : Database} (h : Mirrors memory database)

include h

theorem copies : Copies memory database := ⟨h.version, h.rows, h.sound⟩

/-! ## 4. Reading -/

theorem load (key : RecordKey) :
    ∃ loaded, database.load key = .ok loaded ∧
      Option.Rel Record.Same (memory.get? key) loaded := by
  cases hget : memory.get? key with
  | none => exact ⟨none, h.copies.load_of_none hget, .none⟩
  | some record =>
    have hstorable := h.storable hget
    refine ⟨some record.stored, ?_, .some hstorable.same_stored⟩
    rw [h.copies.load_of_some hget, hstorable.decode_row]
    rfl

theorem query (hash : RevisionHash) :
    ∃ found, database.query hash = .ok found ∧
      List.Forall₂ Record.Same (memory.query hash) found := by
  -- At most one record has the hash, so the order of the rows does not matter.
  rcases h.sound.query_cases hash with ⟨hquery, -⟩ | ⟨record, hquery, hget, rfl⟩
  · exact ⟨[], h.copies.query_of_nil hquery, by rw [hquery]; exact .nil⟩
  · have hstorable := h.storable hget
    refine ⟨[record.stored], ?_, by rw [hquery]; exact .cons hstorable.same_stored .nil⟩
    rw [h.copies.query_of_some hget, hstorable.decode_row]
    rfl

theorem sameRecords : SameRecords memory database where
  load := h.load
  size := h.rows.length_eq.trans (List.length_map _)

/-! ## 5. Writing -/

theorem storable_write {key : RecordKey} {next : Record} (hnext : next.Storable) :
    ∀ {other found}, (memory.write key next).get? other = some found → found.Storable :=
  MemoryStore.forall_write (fun _ _ => h.storable) key hnext _ _

theorem append {record : Record} (hkey : memory.get? record.key = none)
    (hsound : (memory.write record.key record).Sound) (hrecord : record.Storable) :
    Mirrors (memory.write record.key record) (database.withRow record.row) :=
  have hcopies := h.copies.append hkey hsound
  ⟨hcopies.version, hcopies.rows, hcopies.sound, h.storable_write hrecord⟩

theorem replace {key : RecordKey} {current next : Record} (hget : memory.get? key = some current)
    (hsound : (memory.write key next).Sound) (hnext : next.Storable) :
    Mirrors (memory.write key next) (database.withRowAt key next.row) :=
  have hcopies := h.copies.replace hget hsound
  ⟨hcopies.version, hcopies.rows, hcopies.sound, h.storable_write hnext⟩

theorem put {record : Record} (hrecord : record.Storable) :
    Matches (memory.put record) (RecordStore.put database record) := by
  rw [Database.put_eq hrecord.encode]
  have hiff := h.copies.any_clash_iff record
  -- The table refuses a row exactly if the other store refuses the record.
  rcases memory.put_cases record with ⟨hput, hkey, hhash⟩ | ⟨error, hput, hkind, hclash⟩
  · have hfree : ¬database.rows.any fun row =>
        row.hasKey record.key || row.hasHash record.revisionHash := by
      rw [hiff]
      rintro (⟨found, hfound⟩ | ⟨key, found, hfound, heq⟩)
      · rw [hkey] at hfound
        cases hfound
      · exact hhash key found hfound heq
    rw [hput, if_neg hfree]
    exact .ok (h.append hkey (h.sound.put hput) hrecord)
  · rw [hput, if_pos (hiff.2 hclash)]
    cases error with
    | conflict detail => exact .error (.conflict _ _)
    | notFound | io | corrupt | invalid => cases hkind

theorem update {key : RecordKey} {delta : Delta} {expected : VersionToken}
    (hresult : ∀ next record, memory.update key delta expected = .ok next →
      next.get? key = some record → record.Storable) :
    Matches (memory.update key delta expected)
      (RecordStore.update database key delta expected) := by
  cases hget : memory.get? key with
  | none =>
    rw [MemoryStore.update_of_none hget, Database.update_of_none (h.copies.row?_of_none hget)]
    exact .error (.notFound _ _)
  | some current =>
    have hcurrent := h.storable hget
    have howned : delta.revisionHash.filter (database.ownedElsewhere key) =
        delta.revisionHash.filter (memory.ownedElsewhere key) := by
      have heq : database.ownedElsewhere key = memory.ownedElsewhere key :=
        funext fun hash => Bool.eq_iff_iff.2 (h.copies.ownedElsewhere_iff key hash)
      rw [heq]
    -- The two records of the key have one token, and the deltas make of them records of one text.
    have htoken : current.stored.versionToken = current.versionToken := rfl
    have hnext := delta.unsignZeros_applyTo_congr hcurrent.unsignZeros_stored
    rw [Database.update_of_some (h.copies.row?_of_some hget) hcurrent.decode_row, htoken, howned]
    rw [MemoryStore.update, hget] at hresult ⊢
    by_cases hmismatch : current.versionToken ≠ expected
    · simp only [if_pos hmismatch]
      exact .error (.conflict _ _)
    · simp only [if_neg hmismatch] at hresult ⊢
      cases hfilter : delta.revisionHash.filter (memory.ownedElsewhere key) with
      | some hash => exact .error (.invalid _ _)
      | none =>
        simp only [hfilter] at hresult
        have hstorable := hresult _ _ rfl (MemoryStore.get?_write_self _ _ _)
        have hok : memory.update key delta expected =
            .ok (memory.write key (delta.applyTo current)) := by
          rw [MemoryStore.update, hget]
          simp only [if_neg hmismatch, hfilter]
        have hrow : Row.ofRecord (delta.applyTo current.stored)
            (delta.applyTo current.stored).snapshot = (delta.applyTo current).row :=
          Record.row_congr hnext
        rw [hstorable.encode_congr hnext, Except.map, Database.reported, Except.mapError, hrow]
        exact .ok (h.replace hget (h.sound.update hok) hstorable)

theorem handle {operation : Operation} (hoperation : operation.Storable memory) :
    Agree (memory.handle operation).1 (database.handle operation).1 ∧
      Mirrors (memory.handle operation).2 (database.handle operation).2 := by
  have hwrite {a : Except StoreError MemoryStore} {b : Except StoreError Database}
      (hmatches : Matches a b) : Agree (afterWrite memory a).1 (afterWrite database b).1 ∧
        Mirrors (afterWrite memory a).2 (afterWrite database b).2 := by
    cases hmatches with
    | ok hmirrors => exact ⟨.ok .done, hmirrors⟩
    | error halike => exact ⟨.error halike, h⟩
  cases operation with
  -- A write comes to one result in both, a read leaves both as they are.
  | put record => exact hwrite (h.put hoperation)
  | update key delta expected => exact hwrite (h.update hoperation)
  | query hash =>
    obtain ⟨found, hquery, hsame⟩ := h.query hash
    refine ⟨?_, h⟩
    show Agree (.ok (.found (memory.query hash)))
      (((database.query hash).mapError DatabaseError.toStoreError).map .found)
    rw [hquery]
    exact .ok (.found hsame)
  | load key =>
    obtain ⟨loaded, hload, hsame⟩ := h.load key
    refine ⟨?_, h⟩
    show Agree (.ok (.loaded (memory.get? key)))
      (((database.load key).mapError DatabaseError.toStoreError).map .loaded)
    rw [hload]
    exact .ok (.loaded hsame)
  | reopen =>
    show Agree (.ok .done) (afterWrite database (Database.reported database.atCurrentVersion)).1 ∧
      Mirrors memory (afterWrite database (Database.reported database.atCurrentVersion)).2
    rw [h.copies.atCurrentVersion]
    exact ⟨.ok .done, h⟩

theorem history {operations : List Operation}
    (hrun : Operation.AllStorable memory operations) :
    List.Forall₂ (fun a b => Agree a.1 b.1 ∧ SameRecords a.2 b.2)
      (Operation.history MemoryStore.handle memory operations)
      (Operation.history Database.handle database operations) := by
  induction operations generalizing memory database with
  | nil => exact .nil
  | cons operation operations ih =>
    obtain ⟨hoperation, hrest⟩ := hrun
    obtain ⟨hagree, hnext⟩ := h.handle hoperation
    exact .cons ⟨hagree, hnext.sameRecords⟩ (ih hnext hrest)

end Mirrors

/-! ## 6. Whole runs -/

/-- The database that opening a new file makes. -/
def Database.fresh : Database := ⟨some currentVersion, []⟩

theorem Database.atCurrentVersion_empty : empty.atCurrentVersion = .ok fresh := rfl

theorem mirrors_fresh : Mirrors .empty .fresh where
  version := rfl
  rows := List.Perm.refl _
  sound := MemoryStore.sound_empty
  storable hget := by cases hget

/-- The durable store refines the in-memory store. Both are empty at first and are given the same
operations; whatever the in-memory store answers at a step, the durable one gives the same answer,
and both hold equal records under the same keys after it. -/
theorem Database.refines_memory (operations : List Operation)
    (h : Operation.AllStorable MemoryStore.empty operations) :
    ∃ fresh, Database.empty.atCurrentVersion = .ok fresh ∧ SameRecords MemoryStore.empty fresh ∧
      List.Forall₂ (fun a b => Agree a.1 b.1 ∧ SameRecords a.2 b.2)
        (Operation.history MemoryStore.handle MemoryStore.empty operations)
        (Operation.history Database.handle fresh operations) :=
  ⟨.fresh, atCurrentVersion_empty, mirrors_fresh.sameRecords, mirrors_fresh.history h⟩

/-- Statistics with a negative zero among them. -/
def Statistics.measured : Statistics :=
  ⟨.ofRatio 3 2, .ofNat 3, .ofNat 3, Binary64.zero.neg, .ofRatio 3 2, 150⟩

def Metrics.measured : Metrics := SortedMap.empty.insert "latency" .measured

def Record.measured (hash token : String) : Record where
  revisionHash := ⟨hash⟩
  commitDate := 7
  yearPartition := 2024
  isRelease := false
  releaseLabel := none
  versionToken := ⟨token⟩
  results := SortedMap.empty.insert ⟨"1-50"⟩ .measured

/-- A record like the measured one, whatever was measured. -/
def Record.measuring (statistics : Statistics) (hash token : String) : Record :=
  { measured hash token with
    results := SortedMap.empty.insert ⟨"1-50"⟩ (SortedMap.empty.insert "latency" statistics) }

open Json in
theorem Record.size_measuring_le {statistics : Statistics} {hash token : String}
    (hstatistics : (bytes (statistics.json canonical)).length ≤ 100)
    (hhash : (bytes (quoted hash)).length ≤ 50) (htoken : (bytes (quoted token)).length ≤ 50) :
    ((measuring statistics hash token).json canonical).toUTF8.size ≤ Snapshot.maxBytes := by
  let record := measuring statistics hash token
  -- Bounds for the parts, from the inside out; each is far below what a row may hold.
  have hmetrics :
      (bytes (Metrics.json canonical (SortedMap.empty.insert "latency" statistics))).length ≤
        200 := by
    refine (length_object_le _ _).trans ?_
    show (bytes (quoted "latency")).length +
      (bytes (statistics.json canonical)).length + 2 + 0 + 2 ≤ 200
    have hname : (bytes (quoted "latency")).length = 9 := rfl
    omega
  have hresults : (bytes (Results.json canonical record.results)).length ≤ 300 := by
    refine (length_object_le _ _).trans ?_
    show (bytes (quoted "1-50")).length + (bytes (Metrics.json canonical
      (SortedMap.empty.insert "latency" statistics))).length + 2 + 0 + 2 ≤ 300
    have hname : (bytes (quoted "1-50")).length = 6 := rfl
    omega
  have hnames : (["revision_hash", "commit_date", "year_partition", "is_release",
    "release_label", "version_token", "results"].map fun name => (bytes (quoted name)).length) =
      [15, 13, 16, 12, 15, 15, 9] := rfl
  have htexts : ([toString (7 : Int64), toString (2024 : Int32), bool false,
    optional quoted none].map fun text => (bytes text).length) = [1, 4, 5, 4] := rfl
  have hrecord := length_object_le canonical
    [("revision_hash", quoted hash), ("commit_date", toString (7 : Int64)),
     ("year_partition", toString (2024 : Int32)), ("is_release", bool false),
     ("release_label", optional quoted none), ("version_token", quoted token),
     ("results", Results.json canonical record.results)]
  simp only [List.map_cons, List.map_nil, List.cons.injEq] at hnames htexts
  simp only [membersSize] at hrecord
  have hmax : Snapshot.maxBytes = 4194304 := rfl
  have hsize : (record.json canonical).toUTF8.size =
      (bytes (record.json canonical)).length := Array.length_toList.symm
  rw [hsize, hmax]
  refine Nat.le_trans hrecord ?_
  omega

open Json in
theorem Record.storable_measured {hash token : String} (hhash : (bytes (quoted hash)).length ≤ 50)
    (htoken : (bytes (quoted token)).length ≤ 50) : (measured hash token).Storable where
  size := by
    have hstatistics : (bytes (Statistics.measured.json canonical)).length ≤ 100 :=
      (length_object_le _ _).trans (by decide)
    exact size_measuring_le hstatistics hhash htoken
  reals := by
    have hall : ∀ x ∈ [Binary64.ofRatio 3 2, .ofNat 3, .ofNat 3, Binary64.zero.neg, .ofRatio 3 2],
        x.isFinite ∧ ∃ y, decode Reader.real (canonical.real x).toUTF8.data.toList = .ok y ∧
          x.numericEq y := by
      simp only [List.forall_mem_cons]
      exact ⟨⟨by decide, _, rfl, by decide⟩, ⟨by decide, _, rfl, by decide⟩,
        ⟨by decide, _, rfl, by decide⟩, ⟨by decide, _, rfl, by decide⟩,
        ⟨by decide, _, rfl, by decide⟩, fun _ h => by cases h⟩
    exact hall

/-- Changes the hash of a record and brings results for a setting that it has. -/
def Delta.rotation : Delta where
  addedResults := SortedMap.empty.insert ⟨"1-50"⟩ .empty
  isRelease := none
  releaseLabel := none
  revisionHash := some ⟨"decade"⟩
  versionToken := ⟨"second"⟩

/-- A put made twice, and an update made twice with the file opened anew in between. -/
def Operation.rotation : List Operation :=
  [.put (.measured "c0ffee" "first"), .put (.measured "c0ffee" "first"),
   .update ⟨2024, 7⟩ .rotation ⟨"first"⟩, .reopen, .update ⟨2024, 7⟩ .rotation ⟨"first"⟩,
   .query ⟨"decade"⟩, .load ⟨2024, 7⟩, .load ⟨2024, 8⟩]

theorem Database.refines_memory_rotation :
    Operation.AllStorable MemoryStore.empty Operation.rotation ∧
      ∃ fresh, Database.empty.atCurrentVersion = .ok fresh ∧ SameRecords MemoryStore.empty fresh ∧
        List.Forall₂ (fun a b => Agree a.1 b.1 ∧ SameRecords a.2 b.2)
          (Operation.history MemoryStore.handle MemoryStore.empty Operation.rotation)
          (Operation.history Database.handle fresh Operation.rotation) := by
  have hall : Operation.AllStorable MemoryStore.empty Operation.rotation := by
    have hfirst : (Record.measured "c0ffee" "first").Storable :=
      Record.storable_measured (by decide) (by decide)
    -- The second update has a token that is out of date, and results in nothing.
    refine ⟨hfirst, hfirst, fun next record hnext hrecord => ?_, trivial,
      fun next record hnext _ => ?_, trivial, trivial, trivial, trivial⟩
    · cases hnext
      cases hrecord
      show (Record.measured "decade" "second").Storable
      exact Record.storable_measured (by decide) (by decide)
    · cases hnext
  exact ⟨hall, Database.refines_memory Operation.rotation hall⟩

end RevisionLedger
