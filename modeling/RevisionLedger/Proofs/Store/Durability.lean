import RevisionLedger.Proofs.Store.Persistence

/-!
# Results that stay

An acknowledged write that brings metrics for a setting which the record lacks settles them: as long
as all doubles are finite, every later look at the record shows the setting with these metrics,
whatever is asked of the database in between (`Database.durable`). In memory the metrics stay as
they are (`MemoryStore.retains_run`), and the rows are always those of the records in memory.
-/

namespace RevisionLedger

/-! ## 1. Results -/

theorem SortedMap.Same.find?_eq_some {α β : Type} [Ord α] [Std.TransOrd α] [Std.LawfulEqOrd α]
    {R : β → β → Prop} {a b : SortedMap α β} (h : Same R a b) {key : α} {value : β}
    (hfind : a.find? key = some value) : ∃ other, b.find? key = some other ∧ R value other := by
  have hentry := (find?_eq_some_iff a).1 hfind
  obtain ⟨i, hi, heq⟩ := List.mem_iff_getElem.1 hentry
  have hlength : i < b.toList.length := h.length_eq ▸ hi
  -- The entry of the other map in the same place has the same key.
  obtain ⟨hkey, hvalue⟩ := h.get hi hlength
  rw [List.get_eq_getElem, heq] at hkey hvalue
  have hmem : (key, b.toList[i].2) ∈ b.toList := by
    rw [show key = b.toList[i].1 from hkey]
    exact List.getElem_mem hlength
  exact ⟨_, (find?_eq_some_iff b).2 hmem, hvalue⟩

theorem Results.mem_reals {results : Results} {x : Binary64} :
    x ∈ Results.reals results ↔
      ∃ setting metrics, results.find? setting = some metrics ∧ x ∈ Metrics.reals metrics := by
  rw [Results.reals, List.mem_flatMap]
  constructor
  · intro ⟨entry, hentry, hx⟩
    exact ⟨entry.1, entry.2, (SortedMap.find?_eq_some_iff _).2 hentry, hx⟩
  · intro ⟨setting, metrics, hfind, hx⟩
    exact ⟨(setting, metrics), (SortedMap.find?_eq_some_iff _).1 hfind, hx⟩

theorem Delta.mem_reals_applyTo {delta : Delta} {current : Record} {x : Binary64}
    (h : x ∈ (delta.applyTo current).reals) :
    x ∈ current.reals ∨ x ∈ Results.reals delta.addedResults := by
  obtain ⟨setting, metrics, hfind, hx⟩ := Results.mem_reals.1 h
  rw [find?_applyTo, Option.or_eq_some_iff] at hfind
  rcases hfind with hfind | ⟨-, hfind⟩
  · exact Or.inl (Results.mem_reals.2 ⟨setting, metrics, hfind, hx⟩)
  · exact Or.inr (Results.mem_reals.2 ⟨setting, metrics, hfind, hx⟩)

/-! ## 2. Writes in memory -/

namespace Operation

/-- The doubles that a write brings. -/
def reals : Operation → List Binary64
  | .put record => record.reals
  | .update _ delta _ => Results.reals delta.addedResults
  | _ => []

/-- The metrics that a write brings for a setting of the record under a key. -/
def Brings (key : RecordKey) (setting : Setting) (metrics : Metrics) : Operation → Prop
  | .put record => record.key = key ∧ record.results.find? setting = some metrics
  | .update written delta _ => written = key ∧ delta.addedResults.find? setting = some metrics
  | _ => False

theorem Brings.isWrite {operation : Operation} {key : RecordKey} {setting : Setting}
    {metrics : Metrics} (h : operation.Brings key setting metrics) : operation.isWrite := by
  cases operation with
  | put record | update written delta expected => rfl
  | query hash | load key | reopen => exact h.elim

end Operation

namespace MemoryStore

variable {store : MemoryStore}

/-- All doubles are finite. -/
def Finite (store : MemoryStore) : Prop :=
  ∀ key record, store.get? key = some record → record.Finite

theorem Finite.handle (h : store.Finite) {operation : Operation}
    (hoperation : ∀ x ∈ operation.reals, x.isFinite) : (store.handle operation).2.Finite := by
  cases operation with
  | put record =>
    rw [MemoryStore.handle]
    rcases store.put_cases record with ⟨hput, -⟩ | ⟨error, hput, -⟩
    · rw [hput]
      exact forall_write h record.key hoperation
    · rw [hput]
      exact h
  | update key delta expected =>
    rw [MemoryStore.handle]
    rcases store.update_cases key delta expected with ⟨current, hget, hok, -⟩ | ⟨⟨error, herror⟩, -⟩
    · rw [hok]
      refine forall_write h key ?_
      intro x hx
      exact (Delta.mem_reals_applyTo hx).elim (h key current hget x) (hoperation x)
    · rw [herror]
      exact h
  | query hash | load key | reopen => exact h

theorem Finite.run (h : store.Finite) {operations : List Operation}
    (hoperations : ∀ operation ∈ operations, ∀ x ∈ operation.reals, x.isFinite) :
    (Operation.run MemoryStore.handle store operations).Finite := by
  induction operations generalizing store with
  | nil => exact h
  | cons operation operations ih =>
    obtain ⟨hoperation, hrest⟩ := List.forall_mem_cons.1 hoperations
    exact ih (h.handle hoperation) hrest

theorem find?_handle {operation : Operation} {key : RecordKey} {setting : Setting}
    {metrics : Metrics} (hbrings : operation.Brings key setting metrics)
    (hok : (store.handle operation).1.isOk)
    (hnew : ∀ current, store.get? key = some current → current.results.find? setting = none) :
    ∃ record, (store.handle operation).2.get? key = some record ∧
      record.results.find? setting = some metrics := by
  cases operation with
  | put record =>
    obtain ⟨rfl, hfind⟩ := hbrings
    rw [handle] at hok ⊢
    rcases store.put_cases record with ⟨hput, -⟩ | ⟨error, hput, -⟩
    · rw [hput]
      exact ⟨record, get?_write_self _ _ _, hfind⟩
    · rw [hput] at hok
      cases hok
  | update written delta expected =>
    obtain ⟨rfl, hfind⟩ := hbrings
    rw [handle] at hok ⊢
    rcases store.update_cases written delta expected with ⟨current, hget, hupdate, -⟩ |
      ⟨⟨error, herror⟩, -⟩
    · rw [hupdate]
      refine ⟨delta.applyTo current, get?_write_self _ _ _, ?_⟩
      -- The record lacks the setting, so the delta adds it.
      rw [Delta.find?_applyTo, hnew current hget, Option.none_or, hfind]
    · rw [herror] at hok
      cases hok
  | query hash | load key | reopen => exact hbrings.elim

end MemoryStore

/-! ## 3. Looks at a record -/

namespace Persists

variable {memory : MemoryStore} {database : Database} (h : Persists memory database)
  (hfinite : memory.Finite)

include h hfinite

/-- A query shows of the record under a key what a load of the key shows. -/
theorem query_subset {key : RecordKey} {record : Record}
    (hload : database.load key = .ok (some record)) (hash : RevisionHash) :
    ∃ records, database.query hash = .ok records ∧
      ∀ other ∈ records, other.key = key → other = record := by
  rcases h.sound.query_cases hash with ⟨hquery, -⟩ | ⟨found, -, hget, rfl⟩
  · exact ⟨[], h.query_of_nil hquery, fun other hother => by cases hother⟩
  · obtain ⟨read, hsame, hread, hquery⟩ := h.recalls hget (hfinite _ _ hget)
    refine ⟨[read], hquery, ?_⟩
    intro other hother hkey
    rw [List.mem_singleton.1 hother] at hkey ⊢
    have hfound : found.key = key := by
      rw [← hkey, Record.key, Record.key, hsame.yearPartition, hsame.commitDate]
    rw [hfound, hload] at hread
    cases hread
    rfl

theorem exists_load {key : RecordKey} {current : Record} (hget : memory.get? key = some current)
    {setting : Setting} {metrics : Metrics} (hfind : current.results.find? setting = some metrics) :
    ∃ record found, database.load key = .ok (some record) ∧
      database.query record.revisionHash = .ok [record] ∧
      record.results.find? setting = some found ∧ metrics.Same found := by
  obtain ⟨record, hsame, hload, hquery⟩ := h.recalls hget (hfinite _ _ hget)
  obtain ⟨found, hfound, hmetrics⟩ := hsame.results.find?_eq_some hfind
  rw [h.sound.keyed hget] at hload
  rw [hsame.revisionHash] at hquery
  exact ⟨record, found, hload, hquery, hfound, hmetrics⟩

/-- What a load of the key does not show is not in memory either. -/
theorem find?_eq_none {key : RecordKey} {setting : Setting}
    (hlacks : ∀ record, database.load key = .ok (some record) →
      record.results.find? setting = none) :
    ∀ current, memory.get? key = some current → current.results.find? setting = none := by
  intro current hget
  by_contra hhas
  obtain ⟨metrics, hfind⟩ := Option.ne_none_iff_exists'.1 hhas
  obtain ⟨record, found, hload, -, hfound, -⟩ := h.exists_load hfinite hget hfind
  rw [hlacks record hload] at hfound
  cases hfound

end Persists

/-! ## 4. Whole runs -/

/-- An acknowledged write brings metrics for a setting that the record under a key lacks. At any
later time, whatever else was asked of the database, a load of the key and a query of the hash find
a record that has the setting with these metrics, and no query finds another record of the key. -/
theorem Database.durable (before after : List Operation) (operation : Operation) (key : RecordKey)
    (setting : Setting) (metrics : Metrics)
    (hfinite : ∀ write ∈ Operation.acknowledged handle fresh (before ++ operation :: after),
      ∀ x ∈ write.reals, x.isFinite)
    (hbrings : operation.Brings key setting metrics)
    (hacknowledged : ((Operation.run handle fresh before).handle operation).1.isOk)
    (hnew : ∀ record, (Operation.run handle fresh before).load key = .ok (some record) →
      record.results.find? setting = none) :
    let later := Operation.run handle fresh (before ++ operation :: after)
    ∃ record found, later.load key = .ok (some record) ∧
      later.query record.revisionHash = .ok [record] ∧
      record.results.find? setting = some found ∧ metrics.Same found ∧
      ∀ hash, ∃ records, later.query hash = .ok records ∧
        ∀ other ∈ records, other.key = key → other = record := by
  intro later
  let earlier := Operation.run handle fresh before
  let writes := Operation.acknowledged handle fresh before
  let rest := Operation.acknowledged handle (earlier.handle operation).2 after
  let memory := Operation.run MemoryStore.handle .empty writes
  have hwrite : (operation.isWrite && (earlier.handle operation).1.isOk) = true := by
    rw [hbrings.isWrite, hacknowledged]
    rfl
  have hwrites : Operation.acknowledged handle fresh (before ++ operation :: after) =
      writes ++ operation :: rest := Operation.acknowledged_append_cons hwrite after
  rw [hwrites] at hfinite
  -- Before the write and at the later time the rows are those of stores in memory, and the second
  -- of these comes from the first by the write and the rest.
  have hearlier := (persists_fresh.run before).2
  have hlater := (persists_fresh.run (before ++ operation :: after)).2
  rw [hwrites, Operation.run_append] at hlater
  have hempty : MemoryStore.empty.Finite := fun _ _ hget => by cases hget
  have hbefore : memory.Finite := hempty.run fun write hmem =>
    hfinite write (List.mem_append_left _ hmem)
  have hok : (memory.handle operation).1.isOk := by
    rcases hearlier.handle_cases operation with ⟨-, hnone⟩ | ⟨-, hmemory, -⟩
    · exact absurd (hwrite.symm.trans hnone) (by decide)
    · exact (Bool.and_eq_true_iff.1 hmemory).2
  obtain ⟨record, hget, hfind⟩ := MemoryStore.find?_handle hbrings hok
    (hearlier.find?_eq_none hbefore hnew)
  -- The writes after it leave the setting alone.
  obtain ⟨next, hnext, hretains⟩ := MemoryStore.retains_run _ rest key record hget
  have hafter : (Operation.run MemoryStore.handle memory (operation :: rest)).Finite :=
    hbefore.run fun write hmem => hfinite write (List.mem_append_right _ hmem)
  obtain ⟨read, found, hload, hquery, hfound, hsame⟩ :=
    hlater.exists_load hafter hnext (hretains.results setting metrics hfind)
  exact ⟨read, found, hload, hquery, hfound, hsame, hlater.query_subset hafter hload⟩

/-- The update brings other metrics for the setting, and another hash. -/
theorem Database.durable_rotation :
    let later := Operation.run handle fresh [.put (.measured "c0ffee" "first"),
      .update ⟨2024, 7⟩ .rotation ⟨"first"⟩, .reopen]
    ∃ record found, later.load ⟨2024, 7⟩ = .ok (some record) ∧
      later.query record.revisionHash = .ok [record] ∧
      record.results.find? ⟨"1-50"⟩ = some found ∧ Metrics.measured.Same found ∧
      ∀ hash, ∃ records, later.query hash = .ok records ∧
        ∀ other ∈ records, other.key = ⟨2024, 7⟩ → other = record := by
  have hfits : (Record.measured "c0ffee" "first").Fits :=
    (Record.storable_measured (by decide) (by decide)).size
  have hfinite : ∀ operation ∈ [Operation.put (.measured "c0ffee" "first"),
      .update ⟨2024, 7⟩ .rotation ⟨"first"⟩, .reopen], ∀ x ∈ operation.reals, x.isFinite := by
    decide
  refine durable [] [.update ⟨2024, 7⟩ .rotation ⟨"first"⟩, .reopen]
    (.put (.measured "c0ffee" "first")) ⟨2024, 7⟩ ⟨"1-50"⟩ .measured ?_ ?_ ?_ ?_
  · exact fun write hmem => hfinite write ((Operation.acknowledged_sublist _ _).mem hmem)
  · exact ⟨rfl, SortedMap.find?_insert_self _ _ _⟩
  · show (fresh.handle (.put (.measured "c0ffee" "first"))).1.isOk
    rw [handle_fresh_put hfits]
    rfl
  · intro record hload
    cases hload

end RevisionLedger
