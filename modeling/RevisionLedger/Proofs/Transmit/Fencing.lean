import RevisionLedger.Proofs.Store.Memory
import RevisionLedger.Transmit.Fleet

/-!
# What version tokens fence off

A call updates a record on the strength of a copy, which may be out of date by then. The update is
safe because equal tokens mean equal records: among the versions of records that were ever stored
or are still to be written, no two share key and token (`Fenced`). There are three ways in which
the versions change: a record comes under a new key (`Fenced.write_new`), a call computes a version
with the token of its step (`Fenced.draft`), and a version is stored (`Fenced.write_version`).
-/

namespace RevisionLedger

/-! ## 1. Tokens that are new -/

namespace Source

/-- From a step on, no step draws the token. -/
def Avoids (source : Source) (start : Nat) (token : VersionToken) : Prop :=
  ∀ step call, start ≤ step → (source step call).token ≠ token

theorem Avoids.mono {source : Source} {start later : Nat} {token : VersionToken}
    (h : source.Avoids start token) (hle : start ≤ later) : source.Avoids later token :=
  fun step call hstep => h step call (Nat.le_trans hle hstep)

/-- From a step on, some step draws the token. -/
def Draws (source : Source) (start : Nat) (token : VersionToken) : Prop :=
  ∃ step call, start ≤ step ∧ (source step call).token = token

theorem Draws.mono {source : Source} {start later : Nat} {token : VersionToken}
    (h : source.Draws later token) (hle : start ≤ later) : source.Draws start token := by
  obtain ⟨step, call, hstep, htoken⟩ := h
  exact ⟨step, call, Nat.le_trans hle hstep, htoken⟩

/-- Steps draw different tokens. -/
def Distinct (source : Source) : Prop :=
  ∀ ⦃step other call rival⦄, (source step call).token = (source other rival).token → step = other

/-- Steps draw different tokens, and none that is stored at first or comes from a caller. -/
structure Fresh (source : Source) (store : MemoryStore) (invocations : List Invocation) :
    Prop where
  distinct : source.Distinct
  stored : ∀ {key record}, store.get? key = some record → source.Avoids 0 record.versionToken
  supplied : ∀ {transmitter partialResult},
    .send transmitter partialResult ∈ invocations → source.Avoids 0 partialResult.versionToken

/-- Tokens that are one letter longer at every step. -/
def unary : Source := fun step _ => ⟨⟨String.ofList (List.replicate (step + 1) 'x')⟩, 0⟩

theorem avoids_unary (start : Nat) : unary.Avoids start ⟨""⟩ := by
  intro step call _ h
  have hlist : List.replicate (step + 1) 'x' = [] :=
    String.ofList_injective (VersionToken.mk.inj h)
  cases hlist

theorem unary_distinct : unary.Distinct := by
  intro step other call rival h
  have hlist : List.replicate (step + 1) 'x' = List.replicate (other + 1) 'x' :=
    String.ofList_injective (VersionToken.mk.inj h)
  have hlength := congrArg List.length hlist
  rw [List.length_replicate, List.length_replicate] at hlength
  omega

end Source

/-- Two sends and a tag that compete for one revision. -/
def Invocation.rivals : List Invocation :=
  let revision : RevisionHash := ⟨"4f1c"⟩
  let result (setting : Setting) : PartialResult := .single revision ⟨2024, 17⟩ setting .empty ⟨""⟩
  [.send ⟨{}, "Hash-index"⟩ (result ⟨"10-200"⟩), .send ⟨{}, "Hash-index"⟩ (result ⟨"20-200"⟩),
    .tag ⟨{}, "Hash-index"⟩ revision "v1"]

theorem Source.unary_fresh_rivals : Source.unary.Fresh .empty Invocation.rivals where
  distinct := Source.unary_distinct
  stored h := by cases h
  supplied h := by
    rcases List.mem_cons.1 h with h | h
    · cases h
      exact Source.avoids_unary 0
    · rcases List.mem_cons.1 h with h | h
      · cases h
        exact Source.avoids_unary 0
      · cases List.mem_singleton.1 h

/-! ## 2. Versions -/

/-- The versions of records that were stored or may yet be written. Key and token tell them apart,
no later step draws a token of theirs, and under the key of each of them there is a record. -/
structure Fenced (source : Source) (step : Nat) (store : MemoryStore) (versions : List Record) :
    Prop where
  fenced : ∀ version ∈ versions, ∀ other ∈ versions, version.key = other.key →
    version.versionToken = other.versionToken → version = other
  ahead : ∀ version ∈ versions, source.Avoids step version.versionToken
  held : ∀ version ∈ versions, ∃ current, store.get? version.key = some current
  stored : ∀ {key record}, store.get? key = some record → record ∈ versions

namespace Fenced

variable {source : Source} {step : Nat} {store : MemoryStore} {versions : List Record}

theorem mono (h : Fenced source step store versions) {later : Nat} (hle : step ≤ later) :
    Fenced source later store versions :=
  ⟨h.fenced, fun version hmem => (h.ahead version hmem).mono hle, h.held, h.stored⟩

/-- At first the versions are the records in the store. -/
theorem of_store (hsound : store.Sound)
    (hfresh : ∀ {key record}, store.get? key = some record → source.Avoids 0 record.versionToken) :
    Fenced source 0 store (store.records.toList.map Prod.snd) := by
  -- A record is listed exactly if it stands under its own key.
  have hmem : ∀ record, record ∈ store.records.toList.map Prod.snd ↔
      store.get? record.key = some record := by
    intro record
    simp only [List.mem_map, Prod.exists, exists_eq_right]
    constructor
    · intro ⟨key, hentry⟩
      have hget : store.get? key = some record := (SortedMap.find?_eq_some_iff _).2 hentry
      rw [hsound.keyed hget]
      exact hget
    · intro hget
      exact ⟨record.key, (SortedMap.find?_eq_some_iff _).1 hget⟩
  constructor
  · intro version hversion other hother hkey _
    rw [hmem] at hversion hother
    rw [hkey, hother] at hversion
    exact (Option.some.inj hversion).symm
  · intro version hversion
    exact hfresh ((hmem version).1 hversion)
  · intro version hversion
    exact ⟨version, (hmem version).1 hversion⟩
  · intro key record hget
    rw [hmem, hsound.keyed hget]
    exact hget

/-- A record under a new key is a new version. -/
theorem write_new (h : Fenced source step store versions) {record : Record}
    (hfree : store.get? record.key = none) (havoids : source.Avoids 0 record.versionToken) :
    Fenced source step (store.write record.key record) (record :: versions) := by
  -- No version has the key, for there would be a record under it.
  have hne : ∀ version ∈ versions, version.key ≠ record.key := by
    intro version hversion hkey
    obtain ⟨current, hcurrent⟩ := h.held version hversion
    rw [hkey, hfree] at hcurrent
    cases hcurrent
  constructor
  · intro version hversion other hother hkey htoken
    rcases List.mem_cons.1 hversion with hnew | hold <;>
      rcases List.mem_cons.1 hother with hnew' | hold'
    · rw [hnew, hnew']
    · exact absurd (hkey.symm.trans (congrArg _ hnew)) (hne other hold')
    · exact absurd (hkey.trans (congrArg _ hnew')) (hne version hold)
    · exact h.fenced version hold other hold' hkey htoken
  · intro version hversion
    rcases List.mem_cons.1 hversion with rfl | hversion
    · exact havoids.mono (Nat.zero_le step)
    · exact h.ahead version hversion
  · intro version hversion
    rcases List.mem_cons.1 hversion with rfl | hversion
    · exact ⟨version, MemoryStore.get?_write_self _ _ _⟩
    · rw [MemoryStore.get?_write_of_ne _ _ (hne version hversion)]
      exact h.held version hversion
  · intro key found hget
    by_cases hkey : key = record.key
    · rw [hkey, MemoryStore.get?_write_self] at hget
      exact List.mem_cons.2 (Or.inl (Option.some.inj hget).symm)
    · rw [MemoryStore.get?_write_of_ne _ _ hkey] at hget
      exact List.mem_cons_of_mem _ (h.stored hget)

/-- Storing a version is no new version. -/
theorem write_version (h : Fenced source step store versions) {key : RecordKey} {next : Record}
    (hnext : next ∈ versions) : Fenced source step (store.write key next) versions := by
  refine ⟨h.fenced, h.ahead, fun version hversion => ?_, fun {other found} hget => ?_⟩
  · by_cases hkey : version.key = key
    · exact ⟨next, by rw [hkey, MemoryStore.get?_write_self]⟩
    · rw [MemoryStore.get?_write_of_ne _ _ hkey]
      exact h.held version hversion
  · by_cases hkey : other = key
    · rw [hkey, MemoryStore.get?_write_self] at hget
      rw [← Option.some.inj hget]
      exact hnext
    · rw [MemoryStore.get?_write_of_ne _ _ hkey] at hget
      exact h.stored hget

/-- A version under the key of another, with the token of this step, is new. -/
theorem draft (h : Fenced source step store versions)
    (hdistinct : source.Distinct)
    {next current : Record} (hcurrent : current ∈ versions) (hkey : next.key = current.key)
    {call : Call} (htoken : next.versionToken = (source step call).token) :
    Fenced source (step + 1) store (next :: versions) := by
  -- No version has a token that this step or a later one draws.
  have hnew : ∀ version ∈ versions, next.versionToken ≠ version.versionToken := by
    intro version hversion heq
    exact h.ahead version hversion step call (Nat.le_refl step) (htoken.symm.trans heq)
  constructor
  · intro version hversion other hother hsame hequal
    rcases List.mem_cons.1 hversion with heq | hold <;>
      rcases List.mem_cons.1 hother with heq' | hold'
    · rw [heq, heq']
    · exact absurd (heq ▸ hequal) (hnew other hold')
    · exact absurd (heq' ▸ hequal.symm) (hnew version hold)
    · exact h.fenced version hold other hold' hsame hequal
  · intro version hversion
    rcases List.mem_cons.1 hversion with rfl | hversion
    · intro later rival hlater heq
      have hstep : later = step := hdistinct (heq.trans htoken)
      omega
    · exact (h.ahead version hversion).mono (Nat.le_succ step)
  · intro version hversion
    rcases List.mem_cons.1 hversion with rfl | hversion
    · rw [hkey]
      exact h.held current hcurrent
    · exact h.held version hversion
  · intro key record hget
    exact List.mem_cons_of_mem _ (h.stored hget)

end Fenced

end RevisionLedger
