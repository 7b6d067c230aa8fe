import RevisionLedger.Proofs.Transmit.Atomic
import RevisionLedger.Proofs.Transmit.Retries

/-!
# What a send and a tag mean

A call that runs alone over a sound store does one of four things as a send (`SendSpec`) and one of
two as a tag (`TagSpec`). The record of a revision is found by its hash, whatever its key; a key
matters only to a send that finds none. Nothing else in the store changes, since all that is ever
done to it is one write under one key (`Invocation.runs_alone`).
-/

namespace RevisionLedger

/-! ## 1. Records -/

namespace Record

/-- The record with one more setting. The flag changes only if a flag is given. -/
def gaining (record : Record) (setting : Setting) (metrics : Metrics) (isRelease : Option Bool)
    (token : VersionToken) : Record :=
  { record with
    results := record.results.insert setting metrics
    isRelease := isRelease.getD record.isRelease
    versionToken := token }

/-- The record as a release with a label. -/
def released (record : Record) (label : String) (token : VersionToken) : Record :=
  { record with isRelease := true, releaseLabel := some label, versionToken := token }

end Record

theorem Merge.applyTo_adding {incoming : PartialResult} {current : Record} {setting : Setting}
    {metrics : Metrics} (hhash : incoming.revisionHash = current.revisionHash)
    (hlacks : current.results.find? setting = none) (token : VersionToken) :
    ({ adding incoming current setting metrics with versionToken := token } : Delta).applyTo
        current = current.gaining setting metrics incoming.isRelease token := by
  -- A delta adds only what is missing; this setting is.
  have hresults : Delta.addMissing current.results (SortedMap.empty.insert setting metrics) =
      current.results.insert setting metrics := by
    show current.results.insertIfAbsent setting metrics = _
    rw [SortedMap.insertIfAbsent, SortedMap.contains, hlacks]
    rfl
  simp only [Delta.applyTo, adding, hhash, hresults]
  rfl

/-! ## 2. Specifications -/

/-- What a send of one setting does that runs alone. -/
structure SendSpec (source : Source) (store : MemoryStore) (incoming : PartialResult)
    (setting : Setting) (metrics : Metrics) (result : Except TransmitError Outcome)
    (next : MemoryStore) : Prop where
  /-- The record of the revision has the setting: nothing is written. -/
  skips : ∀ {key current}, store.get? key = some current →
    current.revisionHash = incoming.revisionHash → current.hasSetting setting →
    result = .ok (.skipped incoming.revisionHash setting 0) ∧ next = store
  /-- The record of the revision lacks the setting: it gains the setting, and a new token. -/
  adds : ∀ {key current}, store.get? key = some current →
    current.revisionHash = incoming.revisionHash → current.hasSetting setting = false →
    result = .ok (.sent incoming.revisionHash false 1) ∧ ∃ token, source.Draws 0 token ∧
      (source.Avoids 0 current.versionToken → token ≠ current.versionToken) ∧
      next = store.write key (current.gaining setting metrics incoming.isRelease token)
  /-- There is no record of the revision, and the key is free: the record is created. -/
  creates : (∀ key found, store.get? key = some found →
      found.revisionHash ≠ incoming.revisionHash) → store.get? incoming.key = none →
    result = .ok (.sent incoming.revisionHash true 1) ∧ next = store.write incoming.key {
      revisionHash := incoming.revisionHash
      commitDate := incoming.commitDate
      yearPartition := incoming.yearPartition
      isRelease := incoming.isRelease.getD false
      releaseLabel := none
      versionToken := incoming.versionToken
      results := incoming.results }
  /-- There is no record of the revision, and the key is another one's: nothing is written. -/
  misses : (∀ key found, store.get? key = some found →
      found.revisionHash ≠ incoming.revisionHash) → (store.get? incoming.key).isSome →
    result = .error (.notFound incoming.revisionHash) ∧ next = store

/-- What a tag does that runs alone. -/
structure TagSpec (source : Source) (store : MemoryStore) (revision : RevisionHash)
    (label : String) (result : Except TransmitError Outcome) (next : MemoryStore) : Prop where
  /-- The record of the revision gets the flag, the label without blanks around it, and a new
  token. -/
  labels : ∀ {key current}, store.get? key = some current → current.revisionHash = revision →
    result = .ok (.sent revision false 1) ∧ ∃ token, source.Draws 0 token ∧
      (source.Avoids 0 current.versionToken → token ≠ current.versionToken) ∧
      next = store.write key (current.released (Text.trim label) token)
  /-- There is no record of the revision: nothing is written. -/
  misses : (∀ key found, store.get? key = some found → found.revisionHash ≠ revision) →
    result = .error (.notFound revision) ∧ next = store

/-- What an invocation does that runs alone, unless it is refused. -/
def Invocation.Means (source : Source) (store : MemoryStore)
    (result : Except TransmitError Outcome) (next : MemoryStore) : Invocation → Prop
  | .send _ incoming => ∀ {setting metrics},
    Text.isBlankText incoming.revisionHash.text = false →
    incoming.results.toList = [(setting, metrics)] →
    SendSpec source store incoming setting metrics result next
  | .tag _ revision label => Text.isBlankText revision.text = false →
    Text.isBlankText label = false → TagSpec source store revision label result next

/-! ## 3. Deeds -/

theorem Source.Draws.ne {source : Source} {start : Nat} {token other : VersionToken}
    (h : source.Draws start token) (havoids : source.Avoids start other) : token ≠ other := by
  obtain ⟨step, call, hstep, rfl⟩ := h
  exact havoids step call hstep

theorem MemoryStore.Sound.eq_of_query {store : MemoryStore} (h : store.Sound) {hash : RevisionHash}
    {key : RecordKey} {record found : Record} (hquery : store.query hash = [record])
    (hget : store.get? key = some found) (hhash : found.revisionHash = hash) :
    found = record ∧ key = record.key := by
  rw [← hhash, h.query_of_get? hget] at hquery
  obtain rfl := List.singleton_inj.1 hquery
  exact ⟨rfl, (h.keyed hget).symm⟩

namespace Deed

variable {source : Source} {store next : MemoryStore} {result : Except TransmitError Outcome}

/-- A send whose revision has no record creates it, or finds its key taken. -/
theorem sendSpec_of_absent {incoming : PartialResult} {setting : Setting} (metrics : Metrics)
    (h : Deed source 0 incoming.revisionHash (.merge incoming setting) 0 store next result)
    (habsent : store.query incoming.revisionHash = []) :
    SendSpec source store incoming setting metrics result next := by
  have hnone := MemoryStore.query_eq_nil_iff.1 habsent
  cases h with
  | created hquery hcreates hkey =>
    obtain rfl := hcreates
    constructor
    · exact fun hget hhash => absurd hhash (hnone _ _ hget)
    · exact fun hget hhash => absurd hhash (hnone _ _ hget)
    · exact fun _ _ => ⟨rfl, rfl⟩
    · intro _ htaken
      rw [show store.get? incoming.key = none from hkey] at htaken
      cases htaken
  | missing hquery htaken =>
    obtain ⟨found, hfound⟩ := htaken incoming.toRecord rfl
    constructor
    · exact fun hget hhash => absurd hhash (hnone _ _ hget)
    · exact fun hget hhash => absurd hhash (hnone _ _ hget)
    · intro _ hfree
      exact absurd (hfree.symm.trans hfound) (Option.some_ne_none found).symm
    · exact fun _ _ => ⟨rfl, rfl⟩
  | updated hquery | skipped hquery => rw [hquery] at habsent; cases habsent

/-- A send whose revision has a record leaves it, or adds the setting. -/
theorem sendSpec_of_found {incoming : PartialResult} {setting : Setting} {metrics : Metrics}
    (h : Deed source 0 incoming.revisionHash (.merge incoming setting) 0 store next result)
    (hsound : store.Sound) (hmetrics : incoming.results.find? setting = some metrics)
    {current : Record} (hfound : store.query incoming.revisionHash = [current]) :
    SendSpec source store incoming setting metrics result next := by
  obtain ⟨⟨key, hget⟩, hhash⟩ := MemoryStore.of_query_eq hfound
  -- The last two cases of the specification ask that there be no record of the revision. The first
  -- two may name any record of it, which soundness makes the one that was found.
  have hthere : ¬∀ key found, store.get? key = some found →
      found.revisionHash ≠ incoming.revisionHash := fun h => h key current hget hhash
  cases h with
  | created hquery | missing hquery => rw [hquery] at hfound; cases hfound
  | @updated other token delta hquery hdraws hdelta =>
    obtain rfl := List.singleton_inj.1 (hquery.symm.trans hfound)
    obtain ⟨hlacks, added, hadded, rfl⟩ := Intent.delta_merge_eq_ok.1 hdelta
    obtain rfl := Option.some.inj (hmetrics.symm.trans hadded)
    constructor
    · intro key found hget' hhash' hhas
      obtain ⟨rfl, -⟩ := hsound.eq_of_query hfound hget' hhash'
      rw [Record.hasSetting, SortedMap.contains, hlacks] at hhas
      cases hhas
    · intro key found hget' hhash' _
      obtain ⟨rfl, rfl⟩ := hsound.eq_of_query hfound hget' hhash'
      refine ⟨rfl, token, hdraws, hdraws.ne, ?_⟩
      rw [Merge.applyTo_adding hhash.symm hlacks]
    · exact fun h => absurd h hthere
    · exact fun h => absurd h hthere
  | @skipped other token skippedSetting hquery hdelta =>
    obtain rfl := List.singleton_inj.1 (hquery.symm.trans hfound)
    have hfor : (Intent.merge incoming setting).IsFor incoming.revisionHash :=
      ⟨rfl, by rw [hmetrics]; rfl⟩
    obtain ⟨hsetting, hhas⟩ := Intent.delta_eq_error hfor hdelta
    obtain rfl := Option.some.inj hsetting
    constructor
    · exact fun _ _ _ => ⟨rfl, rfl⟩
    · intro key found hget' hhash' hlacks
      obtain ⟨rfl, -⟩ := hsound.eq_of_query hfound hget' hhash'
      exact absurd hhas (ne_true_of_eq_false hlacks)
    · exact fun h => absurd h hthere
    · exact fun h => absurd h hthere

theorem sendSpec {incoming : PartialResult} {setting : Setting} {metrics : Metrics}
    (h : Deed source 0 incoming.revisionHash (.merge incoming setting) 0 store next result)
    (hsound : store.Sound) (hmetrics : incoming.results.find? setting = some metrics) :
    SendSpec source store incoming setting metrics result next := by
  rcases hsound.query_cases incoming.revisionHash with ⟨habsent, -⟩ | ⟨current, hfound, -⟩
  · exact h.sendSpec_of_absent metrics habsent
  · exact h.sendSpec_of_found hsound hmetrics hfound

theorem tagSpec {revision : RevisionHash} {label : String}
    (h : Deed source 0 revision (.release (Text.trim label)) 0 store next result)
    (hsound : store.Sound) : TagSpec source store revision label result next := by
  cases h with
  | created _ hcreates => exact hcreates.elim
  | missing hquery =>
    have hnone := MemoryStore.query_eq_nil_iff.1 hquery
    exact ⟨fun hget hhash => absurd hhash (hnone _ _ hget), fun _ => ⟨rfl, rfl⟩⟩
  | @updated current token delta hquery hdraws hdelta =>
    obtain ⟨⟨key, hget⟩, hhash⟩ := MemoryStore.of_query_eq hquery
    cases hdelta
    constructor
    · intro key found hget' hhash'
      obtain ⟨rfl, rfl⟩ := hsound.eq_of_query hquery hget' hhash'
      exact ⟨rfl, token, hdraws, hdraws.ne, rfl⟩
    · exact fun h => absurd hhash (h key current hget)
  | skipped _ hdelta => cases hdelta

end Deed

/-! ## 4. Invocations -/

theorem Call.send_eq_start (transmitter : Transmitter) {incoming : PartialResult}
    {setting : Setting} {metrics : Metrics}
    (hhash : Text.isBlankText incoming.revisionHash.text = false)
    (hresults : incoming.results.toList = [(setting, metrics)]) :
    Call.send transmitter incoming = Call.start transmitter incoming.revisionHash
      (.merge incoming setting) (.opening incoming.toRecord) := by
  have hsetting : incoming.singleSetting? = some setting :=
    PartialResult.singleSetting?_eq_some_iff.2 (congrArg (List.map Prod.fst) hresults)
  simp [Call.send, hhash, hsetting]

theorem Call.tag_eq_start (transmitter : Transmitter) {revision : RevisionHash} {label : String}
    (hhash : Text.isBlankText revision.text = false) (hlabel : Text.isBlankText label = false) :
    Call.tag transmitter revision label = Call.start transmitter revision
      (.release (Text.trim label)) (.reading (transmitter.policy.rounds - 1)) := by
  simp [Call.tag, hhash, Text.isEmpty_trim, hlabel]

namespace Invocation

/-- A call that runs alone comes to its end, and does its deed unless it was refused. -/
theorem exists_deed {store : MemoryStore} (hsound : store.Sound) (source : Source)
    (invocation : Invocation) {turns : Nat} (hturns : invocation.call.rank ≤ turns) :
    let fleet := (Fleet.start store [invocation]).follow source (List.replicate turns 0)
    ∃ result, fleet.results = [some result] ∧ (invocation.call.request?.isSome →
      Deed source 0 invocation.call.revision invocation.call.intent 0 store fleet.store
        result) := by
  have hcall : (Fleet.start store [invocation]).calls[0]? = some invocation.call := rfl
  cases hrequest : invocation.call.request? with
  | none =>
    -- A refused call has its result before its first turn.
    obtain ⟨result, hresult⟩ := Option.isSome_iff_exists.1 (Call.request?_eq_none_iff.1 hrequest)
    rw [Fleet.follow_of_ended hcall hrequest]
    exact ⟨result, congrArg (fun result => [result]) hresult, fun h => by cases h⟩
  | some request =>
    obtain ⟨next, call, result, hfollow, hphase, hdeed⟩ : Fleet.Ends source turns 0 _ _ :=
      Fleet.ends_call hsound hcall (by rw [hrequest]; rfl) hturns
    rw [hfollow]
    refine ⟨result, ?_, fun _ => hdeed⟩
    show [call.result?] = _
    rw [Call.result?, hphase]

/-- What a call does that runs alone over a sound store. It always comes to its end. -/
theorem runs_alone {store : MemoryStore} (hsound : store.Sound) (source : Source)
    (invocation : Invocation) {turns : Nat} (hturns : invocation.call.rank ≤ turns) :
    let fleet := (Fleet.start store [invocation]).follow source (List.replicate turns 0)
    ∃ result, fleet.results = [some result] ∧ invocation.Means source store result fleet.store := by
  intro fleet
  obtain ⟨result, hresults, hdeed⟩ := exists_deed hsound source invocation hturns
  refine ⟨result, hresults, ?_⟩
  cases invocation with
  | send transmitter incoming =>
    intro setting metrics hhash hmetrics
    have hstart := Call.send_eq_start transmitter hhash hmetrics
    rw [call, hstart] at hdeed
    refine (hdeed rfl).sendSpec hsound ?_
    rw [SortedMap.find?_eq_some_iff, hmetrics]
    exact List.mem_singleton_self _
  | tag transmitter revision label =>
    intro hhash hlabel
    rw [call, Call.tag_eq_start transmitter hhash hlabel] at hdeed
    exact (hdeed rfl).tagSpec hsound

/-- The record of the revision stands under another key than the send names. -/
theorem runs_alone_other_key :
    let result (key : RecordKey) (setting : Setting) : PartialResult :=
      .single ⟨"4f1c"⟩ key setting .empty ⟨""⟩
    let current := (result ⟨2023, 5⟩ ⟨"20-200"⟩).toRecord
    let store := MemoryStore.empty.write current.key current
    let invocation : Invocation := .send ⟨{}, "Hash-index"⟩ (result ⟨2024, 17⟩ ⟨"10-200"⟩)
    let fleet := (Fleet.start store [invocation]).follow Source.unary (List.replicate 17 0)
    store.Sound ∧ invocation.call.rank ≤ 17 ∧
      fleet.results = [some (.ok (.sent ⟨"4f1c"⟩ false 1))] ∧
      ∃ token, token ≠ ⟨""⟩ ∧
        fleet.store = store.write ⟨2023, 5⟩ (current.gaining ⟨"10-200"⟩ .empty none token) := by
  intro result current store invocation fleet
  have hsound : store.Sound := MemoryStore.sound_empty.write_new fun _ _ h => by cases h
  have hturns : invocation.call.rank ≤ 17 := by decide
  have hget : store.get? ⟨2023, 5⟩ = some current := MemoryStore.get?_write_self _ _ _
  obtain ⟨ended, hresults, hmeans⟩ := runs_alone hsound Source.unary invocation hturns
  have hspec : SendSpec Source.unary store (result ⟨2024, 17⟩ ⟨"10-200"⟩) ⟨"10-200"⟩ .empty ended
      fleet.store := hmeans (by decide) rfl
  obtain ⟨rfl, token, -, hnew, hstore⟩ := hspec.adds hget rfl (by decide)
  exact ⟨hsound, hturns, hresults, token, hnew (Source.avoids_unary 0), hstore⟩

end Invocation

end RevisionLedger
