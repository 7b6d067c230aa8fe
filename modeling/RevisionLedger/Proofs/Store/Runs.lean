import RevisionLedger.Proofs.Store.Refinement

/-!
# Runs of the in-memory store

A store is empty at first and is given operations one after another. Each operation is acknowledged
exactly if its condition holds (`MemoryStore.isOk_handle_iff`), and changes nothing but the record
under its own key (`MemoryStore.get?_handle_of_ne`). So whatever the operations are, the store stays
sound, its records only gain settings, and it counts the writes that were acknowledged
(`MemoryStore.run_invariant`).
-/

namespace RevisionLedger

/-! ## 1. Runs -/

namespace Operation

/-- The store after operations, whatever was answered. -/
def run {σ : Type} (handle : σ → Operation → Except StoreError Reply × σ) (store : σ)
    (operations : List Operation) : σ :=
  operations.foldl (fun store operation => (handle store operation).2) store

def isWrite : Operation → Bool
  | .put _ | .update _ _ _ => true
  | _ => false

/-- The key of the record that a write is for. -/
def key? : Operation → Option RecordKey
  | .put record => some record.key
  | .update key _ _ => some key
  | _ => none

/-- The writes among the operations that were acknowledged, in order. -/
def acknowledged {σ : Type} (handle : σ → Operation → Except StoreError Reply × σ) :
    σ → List Operation → List Operation
  | _, [] => []
  | store, operation :: operations =>
    let (reply, next) := handle store operation
    if operation.isWrite && reply.isOk then operation :: acknowledged handle next operations
    else acknowledged handle next operations

/-- The condition of an operation on the records of a store. -/
def Admitted (store : MemoryStore) : Operation → Prop
  | .put record => store.get? record.key = none ∧
      ∀ key found, store.get? key = some found → found.revisionHash ≠ record.revisionHash
  | .update key delta expected => (∃ current, store.get? key = some current ∧
        current.versionToken = expected) ∧
      ∀ hash ∈ delta.revisionHash, ∀ other found, other ≠ key → store.get? other = some found →
        found.revisionHash ≠ hash
  | _ => True

section Run

variable {σ : Type} {handle : σ → Operation → Except StoreError Reply × σ}

theorem run_append (store : σ) (before after : List Operation) :
    run handle store (before ++ after) = run handle (run handle store before) after :=
  List.foldl_append

theorem acknowledged_append (store : σ) (before after : List Operation) :
    acknowledged handle store (before ++ after) =
      acknowledged handle store before ++ acknowledged handle (run handle store before) after := by
  induction before generalizing store with
  | nil => rfl
  | cons operation before ih =>
    have hrest := ih (handle store operation).2
    simp only [List.cons_append, acknowledged]
    split
    · rw [hrest]
      rfl
    · exact hrest

theorem acknowledged_append_cons {store : σ} {before : List Operation} {operation : Operation}
    (h : (operation.isWrite && (handle (run handle store before) operation).1.isOk) = true)
    (after : List Operation) :
    acknowledged handle store (before ++ operation :: after) =
      acknowledged handle store before ++
        operation :: acknowledged handle (handle (run handle store before) operation).2 after := by
  rw [acknowledged_append]
  simp only [acknowledged, h, if_true]

theorem acknowledged_sublist (store : σ) (operations : List Operation) :
    (acknowledged handle store operations).Sublist operations := by
  induction operations generalizing store with
  | nil => exact .slnil
  | cons operation operations ih =>
    simp only [acknowledged]
    split
    · exact (ih _).cons_cons operation
    · exact (ih _).cons operation

end Run

end Operation

/-! ## 2. One operation -/

/-- A later version of a record, perhaps of another revision: its settings keep their metrics. -/
structure Record.Retains (earlier later : Record) : Prop where
  key : later.key = earlier.key
  results : ∀ setting metrics, earlier.results.find? setting = some metrics →
    later.results.find? setting = some metrics

theorem Record.Retains.refl (record : Record) : record.Retains record := ⟨rfl, fun _ _ h => h⟩

theorem Record.Retains.trans {a b c : Record} (hab : a.Retains b) (hbc : b.Retains c) :
    a.Retains c where
  key := hbc.key.trans hab.key
  results setting metrics h := hbc.results setting metrics (hab.results setting metrics h)

theorem Delta.retains_applyTo (delta : Delta) (current : Record) :
    current.Retains (delta.applyTo current) where
  key := rfl
  results setting metrics h := by rw [find?_applyTo, h, Option.some_or]

namespace MemoryStore

variable {store : MemoryStore}

theorem update_cases (store : MemoryStore) (key : RecordKey) (delta : Delta)
    (expected : VersionToken) :
    (∃ current, store.get? key = some current ∧
        store.update key delta expected = .ok (store.write key (delta.applyTo current)) ∧
        (Operation.update key delta expected).Admitted store) ∨
      (∃ error, store.update key delta expected = .error error) ∧
        ¬(Operation.update key delta expected).Admitted store := by
  cases hget : store.get? key with
  | none =>
    right
    refine ⟨⟨_, update_of_none hget delta expected⟩, ?_⟩
    rintro ⟨⟨current, hcurrent, -⟩, -⟩
    rw [hget] at hcurrent
    cases hcurrent
  | some current =>
    by_cases htoken : current.versionToken = expected
    · rw [update, hget]
      simp only [htoken, ne_eq, not_true_eq_false, if_false]
      -- The hash that the delta may bring decides.
      cases hfilter : delta.revisionHash.filter (store.ownedElsewhere key) with
      | some hash =>
        obtain ⟨hhash, howned⟩ := Option.filter_eq_some_iff.1 hfilter
        obtain ⟨other, found, hother, hfound, heq⟩ := ownedElsewhere_iff.1 howned
        exact Or.inr ⟨⟨_, rfl⟩, fun h => h.2 hash hhash other found hother hfound heq⟩
      | none =>
        refine Or.inl ⟨current, rfl, rfl, ⟨current, hget, htoken⟩, ?_⟩
        intro hash hhash other found hother hfound heq
        have howned : store.ownedElsewhere key hash :=
          ownedElsewhere_iff.2 ⟨other, found, hother, hfound, heq⟩
        rw [hhash, Option.filter_some, if_pos howned] at hfilter
        cases hfilter
    · right
      refine ⟨⟨_, update_of_ne hget delta htoken⟩, ?_⟩
      rintro ⟨⟨found, hfound, heq⟩, -⟩
      rw [hget] at hfound
      cases hfound
      exact htoken heq

/-- An operation is acknowledged exactly if its condition holds. -/
theorem isOk_handle_iff (store : MemoryStore) (operation : Operation) :
    (store.handle operation).1.isOk ↔ operation.Admitted store := by
  cases operation with
  | put record =>
    rw [handle]
    rcases store.put_cases record with ⟨hput, hkey, hhash⟩ | ⟨error, hput, -, hclash⟩
    · rw [hput]
      exact iff_of_true rfl ⟨hkey, hhash⟩
    · rw [hput]
      refine iff_of_false Bool.false_ne_true ?_
      rintro ⟨hkey, hhash⟩
      rcases hclash with ⟨found, hfound⟩ | ⟨key, found, hfound, heq⟩
      · rw [hkey] at hfound
        cases hfound
      · exact hhash key found hfound heq
  | update key delta expected =>
    rw [handle]
    rcases store.update_cases key delta expected with ⟨current, -, hok, hadmitted⟩ |
      ⟨⟨error, herror⟩, hrefused⟩
    · rw [hok]
      exact iff_of_true rfl hadmitted
    · rw [herror]
      exact iff_of_false Bool.false_ne_true hrefused
  | query hash => exact iff_of_true rfl trivial
  | load key => exact iff_of_true rfl trivial
  | reopen => exact iff_of_true rfl trivial

/-- An operation leaves the store as it is, or writes one record: a new one, or a later version of
the one under the key. -/
theorem handle_cases (store : MemoryStore) (operation : Operation) :
    ((store.handle operation).2 = store ∧
        (operation.isWrite && (store.handle operation).1.isOk) = false) ∨
      ∃ key next, operation.key? = some key ∧
        (operation.isWrite && (store.handle operation).1.isOk) = true ∧
        (store.handle operation).2 = store.write key next ∧
        ∀ current, store.get? key = some current → current.Retains next := by
  cases operation with
  | put record =>
    rw [handle]
    rcases store.put_cases record with ⟨hput, hkey, -⟩ | ⟨error, hput, -⟩
    · rw [hput]
      refine Or.inr ⟨record.key, record, rfl, rfl, rfl, fun current hcurrent => ?_⟩
      rw [hkey] at hcurrent
      cases hcurrent
    · rw [hput]
      exact Or.inl ⟨rfl, rfl⟩
  | update key delta expected =>
    rw [handle]
    rcases store.update_cases key delta expected with ⟨current, hget, hok, -⟩ |
      ⟨⟨error, herror⟩, -⟩
    · rw [hok]
      refine Or.inr ⟨key, delta.applyTo current, rfl, rfl, rfl, fun found hfound => ?_⟩
      rw [hget] at hfound
      cases hfound
      exact delta.retains_applyTo current
    · rw [herror]
      exact Or.inl ⟨rfl, rfl⟩
  | query hash => exact Or.inl ⟨rfl, rfl⟩
  | load key => exact Or.inl ⟨rfl, rfl⟩
  | reopen => exact Or.inl ⟨rfl, rfl⟩

theorem handle_of_error {operation : Operation} {error : StoreError}
    (h : (store.handle operation).1 = .error error) : (store.handle operation).2 = store := by
  cases operation with
  | put record =>
    rw [handle] at h ⊢
    cases hput : store.put record with
    | ok next => rw [hput] at h; cases h
    | error _ => rfl
  | update key delta expected =>
    rw [handle] at h ⊢
    cases hupdate : store.update key delta expected with
    | ok next => rw [hupdate] at h; cases h
    | error _ => rfl
  | query hash | load key | reopen => rfl

theorem get?_handle_of_ne {operation : Operation} {key : RecordKey}
    (h : operation.key? ≠ some key) : (store.handle operation).2.get? key = store.get? key := by
  rcases store.handle_cases operation with ⟨hsame, -⟩ | ⟨written, next, hkey, -, hnext, -⟩
  · rw [hsame]
  · rw [hnext]
    apply get?_write_of_ne
    intro heq
    exact h (heq ▸ hkey)

theorem Sound.handle (h : store.Sound) (operation : Operation) :
    (store.handle operation).2.Sound := by
  cases operation with
  | put record =>
    rw [MemoryStore.handle]
    cases hput : store.put record with
    | ok next => exact h.put hput
    | error _ => exact h
  | update key delta expected =>
    rw [MemoryStore.handle]
    cases hupdate : store.update key delta expected with
    | ok next => exact h.update hupdate
    | error _ => exact h
  | query hash | load key | reopen => exact h

/-! ## 3. Many operations -/

/-- Every record is still there under its key, with the settings that it had. -/
def Retains (earlier later : MemoryStore) : Prop :=
  ∀ key record, earlier.get? key = some record →
    ∃ next, later.get? key = some next ∧ record.Retains next

theorem Retains.trans {a b c : MemoryStore} (hab : a.Retains b) (hbc : b.Retains c) :
    a.Retains c := by
  intro key record hget
  obtain ⟨next, hnext, hretains⟩ := hab key record hget
  obtain ⟨last, hlast, hretains'⟩ := hbc key next hnext
  exact ⟨last, hlast, hretains.trans hretains'⟩

theorem retains_handle (store : MemoryStore) (operation : Operation) :
    store.Retains (store.handle operation).2 := by
  intro key record hget
  rcases store.handle_cases operation with ⟨hsame, -⟩ | ⟨written, next, -, -, hnext, hretains⟩
  · rw [hsame]
    exact ⟨record, hget, .refl record⟩
  · rw [hnext]
    by_cases hkey : key = written
    · subst hkey
      exact ⟨next, get?_write_self store key next, hretains record hget⟩
    · rw [get?_write_of_ne store next hkey]
      exact ⟨record, hget, .refl record⟩

theorem retains_run (store : MemoryStore) (operations : List Operation) :
    store.Retains (Operation.run handle store operations) := by
  induction operations generalizing store with
  | nil => exact fun key record hget => ⟨record, hget, .refl record⟩
  | cons operation operations ih =>
    exact (store.retains_handle operation).trans (ih (store.handle operation).2)

theorem Sound.run (h : store.Sound) (operations : List Operation) :
    (Operation.run MemoryStore.handle store operations).Sound := by
  induction operations generalizing store with
  | nil => exact h
  | cons operation operations ih => exact ih (h.handle operation)

/-- Each acknowledged write is counted once, and nothing else is. -/
theorem writes_run (store : MemoryStore) (operations : List Operation) :
    (Operation.run handle store operations).writes =
      store.writes + (Operation.acknowledged handle store operations).length := by
  induction operations generalizing store with
  | nil => rfl
  | cons operation operations ih =>
    have hrest := ih (store.handle operation).2
    have hrun : Operation.run handle store (operation :: operations) =
        Operation.run handle (store.handle operation).2 operations := rfl
    rw [hrun, hrest]
    simp only [Operation.acknowledged]
    rcases store.handle_cases operation with ⟨hsame, hnone⟩ | ⟨key, next, -, hone, hnext, -⟩
    · rw [hnone, hsame]
      rfl
    · rw [hone, hnext, if_pos rfl, List.length_cons]
      show store.writes + 1 + _ = _
      omega

/-- What holds of every store that was empty at first, and of the next operation on it, whatever
the operations before and after are. -/
theorem run_invariant (before after : List Operation) :
    let store := Operation.run handle empty before
    store.Sound ∧
    (∀ hash, (store.query hash = [] ∧ ∀ key record, store.get? key = some record →
          record.revisionHash ≠ hash) ∨
        ∃ record, store.query hash = [record] ∧ store.get? record.key = some record ∧
          record.revisionHash = hash) ∧
    store.Retains (Operation.run handle empty (before ++ after)) ∧
    store.writes = (Operation.acknowledged handle empty before).length ∧
    ∀ operation,
      ((store.handle operation).1.isOk ↔ operation.Admitted store) ∧
      (∀ error, (store.handle operation).1 = .error error →
        (store.handle operation).2 = store) ∧
      ∀ key, operation.key? ≠ some key →
        (store.handle operation).2.get? key = store.get? key := by
  intro store
  have hsound : store.Sound := sound_empty.run before
  have hretains : store.Retains (Operation.run handle empty (before ++ after)) := by
    rw [Operation.run_append]
    exact store.retains_run after
  have hwrites : store.writes = (Operation.acknowledged handle empty before).length := by
    have h := writes_run empty before
    rwa [show empty.writes = 0 from rfl, Nat.zero_add] at h
  refine ⟨hsound, hsound.query_cases, hretains, hwrites, fun operation => ⟨?_, ?_, ?_⟩⟩
  · exact store.isOk_handle_iff operation
  · exact fun error => handle_of_error
  · exact fun key => get?_handle_of_ne

end MemoryStore

end RevisionLedger
