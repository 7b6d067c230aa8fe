import RevisionLedger.Proofs.Record.Growth
import RevisionLedger.Store.Memory

/-!
# What the operations of the in-memory store do

Everything is said through `get?`, the record under a key. `Sound` is what every store has that its
own operations have filled: each record stands under its own key, and no two have one hash. In a
sound store a query finds one record at most (`Sound.query_cases`). `Grows` relates a store to what
writes can make of it.
-/

namespace RevisionLedger.MemoryStore

/-! ## 1. Reading -/

@[simp] theorem get?_write_self (store : MemoryStore) (key : RecordKey) (record : Record) :
    (store.write key record).get? key = some record :=
  SortedMap.find?_insert_self _ _ _

theorem get?_write_of_ne (store : MemoryStore) {key other : RecordKey} (record : Record)
    (h : other ≠ key) : (store.write key record).get? other = store.get? other :=
  SortedMap.find?_insert_of_ne _ _ h

/-- What holds of the records in a store and of a record that is written holds of all after it. -/
theorem forall_write {store : MemoryStore} {P : Record → Prop}
    (h : ∀ key record, store.get? key = some record → P record) (key : RecordKey) {next : Record}
    (hnext : P next) :
    ∀ other record, (store.write key next).get? other = some record → P record := by
  intro other record hget
  by_cases hother : other = key
  · rw [hother, get?_write_self] at hget
    cases hget
    exact hnext
  · rw [get?_write_of_ne _ _ hother] at hget
    exact h other record hget

theorem mem_query {store : MemoryStore} {hash : RevisionHash} {record : Record} :
    record ∈ store.query hash ↔
      (∃ key, store.get? key = some record) ∧ record.revisionHash = hash := by
  unfold query get?
  simp only [List.mem_filter, List.mem_map, decide_eq_true_eq, Prod.exists, exists_eq_right,
    SortedMap.find?_eq_some_iff]

theorem of_query_eq {store : MemoryStore} {hash : RevisionHash} {record : Record}
    (h : store.query hash = [record]) :
    (∃ key, store.get? key = some record) ∧ record.revisionHash = hash :=
  mem_query.1 (by rw [h]; exact List.mem_singleton_self record)

theorem query_eq_nil_iff {store : MemoryStore} {hash : RevisionHash} :
    store.query hash = [] ↔
      ∀ key record, store.get? key = some record → record.revisionHash ≠ hash := by
  rw [List.eq_nil_iff_forall_not_mem]
  constructor
  · intro h key record hget hhash
    exact h record (mem_query.2 ⟨⟨key, hget⟩, hhash⟩)
  · intro h record hmem
    obtain ⟨⟨key, hget⟩, hhash⟩ := mem_query.1 hmem
    exact h key record hget hhash

theorem ownedElsewhere_iff {store : MemoryStore} {key : RecordKey} {hash : RevisionHash} :
    store.ownedElsewhere key hash ↔
      ∃ other found, other ≠ key ∧ store.get? other = some found ∧ found.revisionHash = hash := by
  unfold ownedElsewhere get?
  simp only [List.any_eq_true, Bool.and_eq_true, decide_eq_true_eq, Prod.exists,
    SortedMap.find?_eq_some_iff]
  constructor
  · intro ⟨other, found, hmem, hother, hhash⟩
    exact ⟨other, found, hother, hmem, hhash⟩
  · intro ⟨other, found, hother, hmem, hhash⟩
    exact ⟨other, found, hmem, hother, hhash⟩

/-! ## 2. Sound stores -/

/-- Each record stands under its own key, and no two have one hash. -/
structure Sound (store : MemoryStore) : Prop where
  keyed : ∀ {key record}, store.get? key = some record → record.key = key
  unique : ∀ {key other record found}, store.get? key = some record →
    store.get? other = some found → record.revisionHash = found.revisionHash → key = other

theorem sound_empty : empty.Sound where
  keyed h := by cases h
  unique h := by cases h

theorem Sound.query_length_le {store : MemoryStore} (h : store.Sound) (hash : RevisionHash) :
    (store.query hash).length ≤ 1 := by
  -- The keys of the entries ascend, but entries of one hash have one key.
  have hnone : (store.records.entries.filter ((·.revisionHash = hash) ∘ Prod.snd)).Pairwise
      fun _ _ => False := by
    refine (store.records.ascending.filter _).imp_of_mem ?_
    intro a b ha hb hlt
    obtain ⟨ha, hahash⟩ := List.mem_filter.1 ha
    obtain ⟨hb, hbhash⟩ := List.mem_filter.1 hb
    have hkey : a.1 = b.1 := h.unique ((SortedMap.find?_eq_some_iff _).2 ha)
      ((SortedMap.find?_eq_some_iff _).2 hb)
      ((of_decide_eq_true hahash).trans (of_decide_eq_true hbhash).symm)
    rw [hkey] at hlt
    exact absurd (hlt.symm.trans Std.ReflCmp.compare_self) (by decide)
  show ((store.records.entries.map Prod.snd).filter _).length ≤ 1
  rw [List.filter_map, List.length_map]
  generalize store.records.entries.filter _ = found at hnone ⊢
  match found, hnone with
  | [], _ => exact Nat.zero_le 1
  | [_], _ => exact Nat.le_refl 1
  | _ :: _ :: _, hnone => exact ((List.pairwise_cons.1 hnone).1 _ List.mem_cons_self).elim

/-- A query finds nothing, or the one record with the hash. -/
theorem Sound.query_cases {store : MemoryStore} (h : store.Sound) (hash : RevisionHash) :
    (store.query hash = [] ∧ ∀ key record, store.get? key = some record →
        record.revisionHash ≠ hash) ∨
      ∃ record, store.query hash = [record] ∧ store.get? record.key = some record ∧
        record.revisionHash = hash := by
  have hlength := h.query_length_le hash
  match hlist : store.query hash, hlength with
  | [], _ => exact Or.inl ⟨rfl, query_eq_nil_iff.1 hlist⟩
  | [record], _ =>
    obtain ⟨⟨key, hget⟩, hhash⟩ := of_query_eq hlist
    exact Or.inr ⟨record, rfl, by rw [h.keyed hget]; exact hget, hhash⟩

theorem Sound.query_of_get? {store : MemoryStore} (h : store.Sound) {key : RecordKey}
    {record : Record} (hget : store.get? key = some record) :
    store.query record.revisionHash = [record] := by
  rcases h.query_cases record.revisionHash with ⟨-, hnone⟩ | ⟨found, hquery, hfound, hhash⟩
  · exact absurd rfl (hnone key record hget)
  · have hkey : found.key = key := h.unique hfound hget hhash
    rw [hkey, hget] at hfound
    rw [hquery, Option.some.inj hfound]

/-! ## 3. Writing -/

/-- A put adds a record whose key and hash are free; any other is a conflict. -/
theorem put_cases (store : MemoryStore) (record : Record) :
    (store.put record = .ok (store.write record.key record) ∧ store.get? record.key = none ∧
        ∀ key found, store.get? key = some found → found.revisionHash ≠ record.revisionHash) ∨
      ∃ error, store.put record = .error error ∧ error.kind = .conflict ∧
        ((∃ found, store.get? record.key = some found) ∨
          ∃ key found, store.get? key = some found ∧
            found.revisionHash = record.revisionHash) := by
  unfold put
  -- The key is looked at before the hash.
  by_cases hkey : store.records.contains record.key
  · rw [if_pos hkey]
    exact Or.inr ⟨_, rfl, rfl, Or.inl (Option.isSome_iff_exists.1 hkey)⟩
  · rw [if_neg hkey]
    have hfree : store.get? record.key = none := Option.not_isSome_iff_eq_none.1 hkey
    cases hquery : store.query record.revisionHash with
    | nil => exact Or.inl ⟨rfl, hfree, query_eq_nil_iff.1 hquery⟩
    | cons found rest =>
      have hmem : found ∈ store.query record.revisionHash := by
        rw [hquery]; exact List.mem_cons_self
      obtain ⟨⟨key, hget⟩, hhash⟩ := mem_query.1 hmem
      exact Or.inr ⟨_, rfl, rfl, Or.inr ⟨key, found, hget, hhash⟩⟩

theorem update_of_none {store : MemoryStore} {key : RecordKey} (h : store.get? key = none)
    (delta : Delta) (expected : VersionToken) :
    store.update key delta expected = .error (.noRecord key) := by
  rw [update, h]

theorem update_of_ne {store : MemoryStore} {key : RecordKey} {current : Record}
    (h : store.get? key = some current) (delta : Delta) {expected : VersionToken}
    (htoken : current.versionToken ≠ expected) :
    store.update key delta expected = .error (.tokenMismatch key) := by
  rw [update, h]
  exact if_pos htoken

/-- A delta without a hash is applied to the record that bears the expected token. -/
theorem update_of_eq {store : MemoryStore} {key : RecordKey} {current : Record}
    (h : store.get? key = some current) {delta : Delta} (hhash : delta.revisionHash = none)
    {expected : VersionToken} (htoken : current.versionToken = expected) :
    store.update key delta expected = .ok (store.write key (delta.applyTo current)) := by
  rw [update, h, hhash]
  exact if_neg fun hne => hne htoken

/-- An update that is done applies its delta to the record under the key. -/
theorem of_update_eq_ok {store next : MemoryStore} {key : RecordKey} {delta : Delta}
    {expected : VersionToken} (h : store.update key delta expected = .ok next) :
    ∃ current, store.get? key = some current ∧
      next = store.write key (delta.applyTo current) := by
  unfold update at h
  split at h
  · cases h
  · rename_i current hget
    split at h
    · cases h
    · split at h
      · cases h
      · exact ⟨current, hget, (Except.ok.inj h).symm⟩

/-- A write keeps a store sound if the record is of the key and no other key has its hash. -/
theorem Sound.write {store : MemoryStore} (h : store.Sound) {key : RecordKey} {next : Record}
    (hkey : next.key = key) (hhash : ∀ other found, other ≠ key → store.get? other = some found →
      found.revisionHash ≠ next.revisionHash) : (store.write key next).Sound where
  keyed {other found} hget := by
    by_cases hother : other = key
    · rw [hother, get?_write_self] at hget
      rw [hother, ← Option.some.inj hget, hkey]
    · rw [get?_write_of_ne _ _ hother] at hget
      exact h.keyed hget
  unique {other third found rival} hget hrival heq := by
    by_cases hother : other = key <;> by_cases hthird : third = key
    · rw [hother, hthird]
    · rw [hother, get?_write_self] at hget
      rw [get?_write_of_ne _ _ hthird] at hrival
      rw [← Option.some.inj hget] at heq
      exact absurd heq.symm (hhash third rival hthird hrival)
    · rw [hthird, get?_write_self] at hrival
      rw [get?_write_of_ne _ _ hother] at hget
      rw [← Option.some.inj hrival] at heq
      exact absurd heq (hhash other found hother hget)
    · rw [get?_write_of_ne _ _ hother] at hget
      rw [get?_write_of_ne _ _ hthird] at hrival
      exact h.unique hget hrival heq

theorem Sound.write_new {store : MemoryStore} (h : store.Sound) {record : Record}
    (hhash : ∀ key found, store.get? key = some found →
      found.revisionHash ≠ record.revisionHash) : (store.write record.key record).Sound :=
  h.write rfl fun other found _ hget => hhash other found hget

theorem Sound.write_later {store : MemoryStore} (h : store.Sound) {key : RecordKey}
    {current next : Record} (hget : store.get? key = some current) (hnext : current.Extends next) :
    (store.write key next).Sound := by
  refine h.write (hnext.key.trans (h.keyed hget)) fun other found hother hfound hhash => ?_
  exact hother (h.unique hfound hget (hhash.trans hnext.hash))

theorem Sound.put {store next : MemoryStore} {record : Record} (h : store.Sound)
    (hput : store.put record = .ok next) : next.Sound := by
  rcases store.put_cases record with ⟨hok, -, hhash⟩ | ⟨error, herror, -⟩
  · obtain rfl := Except.ok.inj (hok.symm.trans hput)
    exact h.write_new hhash
  · rw [herror] at hput
    cases hput

/-- Even an update that brings a hash leaves a sound store, for it is refused if another record
has the hash. -/
theorem Sound.update {store next : MemoryStore} {key : RecordKey} {delta : Delta}
    {expected : VersionToken} (h : store.Sound)
    (hupdate : store.update key delta expected = .ok next) : next.Sound := by
  unfold MemoryStore.update at hupdate
  split at hupdate
  · cases hupdate
  · rename_i current hget
    split at hupdate
    · cases hupdate
    · split at hupdate
      · cases hupdate
      · rename_i howned
        cases hupdate
        have hkey : current.key = key := h.keyed hget
        refine h.write hkey fun other found hother hfound hhash => ?_
        cases hdelta : delta.revisionHash with
        | none =>
          rw [Delta.applyTo, hdelta, Option.getD_none] at hhash
          exact hother (h.unique hfound hget hhash)
        | some hash =>
          -- The record that has the hash would own it.
          rw [Delta.applyTo, hdelta, Option.getD_some] at hhash
          have howner : store.ownedElsewhere key hash :=
            ownedElsewhere_iff.2 ⟨other, found, hother, hfound, hhash⟩
          rw [hdelta, Option.filter_some, if_pos howner] at howned
          cases howned

/-! ## 4. Growth -/

/-- Every record is still there, as a later version of itself. -/
def Grows (earlier later : MemoryStore) : Prop :=
  ∀ key record, earlier.get? key = some record →
    ∃ next, later.get? key = some next ∧ record.Extends next

namespace Grows

theorem refl (store : MemoryStore) : store.Grows store := fun _ record h =>
  ⟨record, h, .refl record⟩

theorem trans {a b c : MemoryStore} (hab : a.Grows b) (hbc : b.Grows c) : a.Grows c := by
  intro key record h
  obtain ⟨next, hnext, hext⟩ := hab key record h
  obtain ⟨last, hlast, hext'⟩ := hbc key next hnext
  exact ⟨last, hlast, hext.trans hext'⟩

theorem write_new {store : MemoryStore} {key : RecordKey} (h : store.get? key = none)
    (record : Record) : store.Grows (store.write key record) := by
  intro other found hget
  have hne : other ≠ key := fun heq => by rw [heq, h] at hget; cases hget
  exact ⟨found, by rw [get?_write_of_ne _ _ hne]; exact hget, .refl found⟩

theorem write_later {store : MemoryStore} {key : RecordKey} {current next : Record}
    (h : store.get? key = some current) (hnext : current.Extends next) :
    store.Grows (store.write key next) := by
  intro other found hget
  by_cases hkey : other = key
  · rw [hkey, h] at hget
    exact ⟨next, by rw [hkey, get?_write_self], Option.some.inj hget ▸ hnext⟩
  · exact ⟨found, by rw [get?_write_of_ne _ _ hkey]; exact hget, .refl found⟩

end Grows

end RevisionLedger.MemoryStore
