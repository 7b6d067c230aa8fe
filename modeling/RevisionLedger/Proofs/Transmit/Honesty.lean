import RevisionLedger.Proofs.Transmit.Answers
import RevisionLedger.Proofs.Transmit.Fencing

/-!
# Honest calls

A call is honest if it writes only what its intent makes of a version, and reports only what is
recorded. What a request of an honest call does to the store is one of six things (`Effect`); above
all, an update that is carried out is applied to the very record that it was computed from.

`serve_spec` says what a request leaves behind, `Call.Honest.resume` that a call stays honest when
it takes in an answer. Honesty outlasts what others do (`Call.Honest.mono`).
-/

namespace RevisionLedger

/-! ## 1. What calls rely on -/

/-- A record that a send may create. -/
def Intent.Creates : Intent → Record → Prop
  | .merge incoming _, record => record = incoming.toRecord
  | .release _, _ => False

theorem Intent.Creates.eq {intent : Intent} {record other : Record} (h : intent.Creates record)
    (h' : intent.Creates other) : record = other := by
  cases intent with
  | merge incoming setting => exact Eq.trans h (Eq.symm h')
  | release label => exact h.elim

theorem Intent.Creates.revisionHash_eq {intent : Intent} {record : Record}
    {revision : RevisionHash} (h : intent.Creates record) (hfor : intent.IsFor revision) :
    record.revisionHash = revision := by
  cases intent with
  | merge incoming setting =>
    rw [show record = incoming.toRecord from h]
    exact hfor.1
  | release label => exact h.elim

/-- A copy of a record of a revision, whose key has the same version or a later one. -/
structure IsCopy (store : MemoryStore) (versions : List Record) (revision : RevisionHash)
    (copy : Record) : Prop where
  version : copy ∈ versions
  hash : copy.revisionHash = revision
  extended : ∃ current, store.get? copy.key = some current ∧ copy.Extends current

/-- A request that has good reasons. A put creates the record of its caller; an update turns a copy
into a version. -/
def Backed (source : Source) (store : MemoryStore) (versions : List Record)
    (revision : RevisionHash) (intent : Intent) : Request → Prop
  | .query _ hash => hash = revision
  | .put record => intent.Creates record ∧ source.Avoids 0 record.versionToken
  | .update key delta expected => ∃ copy token, IsCopy store versions revision copy ∧
      key = copy.key ∧ expected = copy.versionToken ∧ intent.delta copy token = .ok delta ∧
      delta.applyTo copy ∈ versions
  | .pause _ => True

/-- What a call was to write is recorded. -/
def Achieved (store : MemoryStore) (revision : RevisionHash) (intent : Intent) : Prop :=
  ∃ key record, store.get? key = some record ∧ record.revisionHash = revision ∧ intent.Met record

/-- An outcome that the store bears out. -/
def Truthful (store : MemoryStore) (revision : RevisionHash) (intent : Intent) : Outcome → Prop
  | .sent identifier _ _ => identifier = revision ∧ Achieved store revision intent
  | .skipped identifier setting _ => identifier = revision ∧ intent.setting? = some setting ∧
      ∃ key record, store.get? key = some record ∧ record.revisionHash = revision ∧
        record.hasSetting setting

/-- An answer that does not lie: the records are copies, and a write that is done has achieved what
it was for. An error may be any. -/
structure Answer.Honest (store : MemoryStore) (versions : List Record) (revision : RevisionHash)
    (intent : Intent) (request : Request) (answer : Answer) : Prop where
  copies : ∀ {records}, answer = .done records → request.isWrite = false →
    ∀ record ∈ records, IsCopy store versions revision record
  achieved : ∀ {records}, answer = .done records → request.isWrite = true →
    Achieved store revision intent

/-! ## 2. Honesty outlasts what others do -/

section Mono

variable {source : Source} {store later : MemoryStore} {versions versions' : List Record}
  {revision : RevisionHash} {intent : Intent}

theorem IsCopy.mono {copy : Record} (h : IsCopy store versions revision copy)
    (hgrows : store.Grows later) (hsub : versions ⊆ versions') :
    IsCopy later versions' revision copy := by
  obtain ⟨current, hcurrent, hext⟩ := h.extended
  obtain ⟨next, hnext, hext'⟩ := hgrows _ _ hcurrent
  exact ⟨hsub h.version, h.hash, next, hnext, hext.trans hext'⟩

theorem Backed.mono {request : Request} (h : Backed source store versions revision intent request)
    (hgrows : store.Grows later) (hsub : versions ⊆ versions') :
    Backed source later versions' revision intent request := by
  cases request with
  | query index hash => exact h
  | put record => exact h
  | pause delayMs => exact h
  | update key delta expected =>
    obtain ⟨copy, token, hcopy, hkey, hexpected, hdelta, hversion⟩ := h
    exact ⟨copy, token, hcopy.mono hgrows hsub, hkey, hexpected, hdelta, hsub hversion⟩

theorem Achieved.mono (h : Achieved store revision intent)
    (hgrows : store.Grows later) : Achieved later revision intent := by
  obtain ⟨key, record, hget, hhash, hmet⟩ := h
  obtain ⟨next, hnext, hext⟩ := hgrows key record hget
  exact ⟨key, next, hnext, hext.hash.trans hhash, hmet.extends hext⟩

theorem Truthful.mono {outcome : Outcome} (h : Truthful store revision intent outcome)
    (hgrows : store.Grows later) : Truthful later revision intent outcome := by
  cases outcome with
  | sent identifier created attempts => exact ⟨h.1, h.2.mono hgrows⟩
  | skipped identifier setting attempts =>
    obtain ⟨hid, hsetting, key, record, hget, hhash, hhas⟩ := h
    obtain ⟨next, hnext, hext⟩ := hgrows key record hget
    exact ⟨hid, hsetting, key, next, hnext, hext.hash.trans hhash, hext.hasSetting hhas⟩

theorem Answer.Honest.mono {request : Request} {answer : Answer}
    (h : answer.Honest store versions revision intent request) (hgrows : store.Grows later)
    (hsub : versions ⊆ versions') : answer.Honest later versions' revision intent request where
  copies hanswer hread record hrecord := (h.copies hanswer hread record hrecord).mono hgrows hsub
  achieved hanswer hwrite := (h.achieved hanswer hwrite).mono hgrows

end Mono

/-! ## 3. What a request does -/

/-- What a request for a revision does to a store, and the answer to it. -/
inductive Effect (store : MemoryStore) (revision : RevisionHash) (intent : Intent) :
    Request → MemoryStore × Answer → Prop
  | found {index : String} {hash : RevisionHash} :
    Effect store revision intent (.query index hash) (store, .done (store.query hash))
  | rested {delayMs : Nat} : Effect store revision intent (.pause delayMs) (store, .done [])
  | added {record : Record} : intent.Creates record → store.get? record.key = none →
    (∀ key found, store.get? key = some found → found.revisionHash ≠ record.revisionHash) →
    Effect store revision intent (.put record) (store.write record.key record, .done [])
  | taken {record : Record} {error : StoreError} : intent.Creates record →
    error.kind = .conflict →
    ((∃ found, store.get? record.key = some found) ∨
      ∃ key found, store.get? key = some found ∧ found.revisionHash = record.revisionHash) →
    Effect store revision intent (.put record) (store, .failed error)
  | changed {current : Record} {token : VersionToken} {delta : Delta} :
    store.get? current.key = some current → current.revisionHash = revision →
    intent.delta current token = .ok delta →
    Effect store revision intent (.update current.key delta current.versionToken)
      (store.write current.key (delta.applyTo current), .done [])
  | moved {key : RecordKey} {delta : Delta} {expected : VersionToken} {current : Record}
    {error : StoreError} : store.get? key = some current → current.revisionHash = revision →
    current.versionToken ≠ expected → error.kind = .conflict →
    Effect store revision intent (.update key delta expected) (store, .failed error)

section Effects

variable {source : Source} {step : Nat} {store : MemoryStore} {versions : List Record}
  {revision : RevisionHash} {intent : Intent} {request : Request}

theorem serve_effect (hfenced : Fenced source step store versions)
    (hfor : intent.IsFor revision)
    (hbacked : Backed source store versions revision intent request) :
    Effect store revision intent request (Fleet.serve store request) := by
  cases request with
  | query index hash => exact .found
  | pause delayMs => exact .rested
  | put record =>
    rcases store.put_cases record with ⟨hput, hkey, hhash⟩ | ⟨error, hput, hkind, htaken⟩
    · simp only [Fleet.serve, hput]
      exact .added hbacked.1 hkey hhash
    · simp only [Fleet.serve, hput]
      exact .taken hbacked.1 hkind htaken
  | update key delta expected =>
    obtain ⟨copy, token, hcopy, rfl, rfl, hdelta, -⟩ := hbacked
    obtain ⟨current, hget, hext⟩ := hcopy.extended
    have hcurrentHash : current.revisionHash = revision := hext.hash.trans hcopy.hash
    by_cases htoken : current.versionToken = copy.versionToken
    · -- The stored record and the copy are versions of one key with one token.
      obtain rfl : current = copy :=
        hfenced.fenced current (hfenced.stored hget) copy hcopy.version hext.key htoken
      have hnone : delta.revisionHash = none :=
        Intent.revisionHash_delta (hcurrentHash.symm ▸ hfor) hdelta
      simp only [Fleet.serve, MemoryStore.update_of_eq hget hnone rfl]
      exact .changed hget hcurrentHash hdelta
    · simp only [Fleet.serve, MemoryStore.update_of_ne hget delta htoken]
      exact .moved hget hcurrentHash htoken rfl

variable {result : MemoryStore × Answer}

theorem Effect.sound (h : Effect store revision intent request result)
    (hfor : intent.IsFor revision) (hsound : store.Sound) : result.1.Sound := by
  cases h with
  | found | rested | taken | moved => exact hsound
  | added hcreates hkey hhash => exact hsound.write_new hhash
  | changed hget hhash hdelta =>
    exact hsound.write_later hget
      (Delta.extends_applyTo (Intent.revisionHash_delta (hhash.symm ▸ hfor) hdelta) _)

theorem Effect.grows (h : Effect store revision intent request result)
    (hfor : intent.IsFor revision) : store.Grows result.1 := by
  cases h with
  | found | rested | taken | moved => exact .refl store
  | added hcreates hkey hhash => exact .write_new hkey _
  | changed hget hhash hdelta =>
    exact .write_later hget
      (Delta.extends_applyTo (Intent.revisionHash_delta (hhash.symm ▸ hfor) hdelta) _)

/-- The store of an answer holds versions, of which the put may have added one. -/
theorem Effect.fenced (h : Effect store revision intent request result)
    (hfenced : Fenced source step store versions)
    (hbacked : Backed source store versions revision intent request) :
    ∃ versions', versions ⊆ versions' ∧ Fenced source step result.1 versions' := by
  cases h with
  | found | rested | taken | moved => exact ⟨versions, List.Subset.refl versions, hfenced⟩
  | added hcreates hkey hhash =>
    exact ⟨_, List.subset_cons_self _ _, hfenced.write_new hkey hbacked.2⟩
  | changed hget hhash hdelta =>
    -- The copy is the record that is stored, so its successor was a version before it is stored.
    obtain ⟨copy, token, hcopy, hkey, htoken, -, hversion⟩ := hbacked
    obtain rfl := hfenced.fenced _ (hfenced.stored hget) copy hcopy.version hkey htoken
    exact ⟨versions, List.Subset.refl versions, hfenced.write_version hversion⟩

theorem Effect.honest (h : Effect store revision intent request result)
    (hsound : store.Sound) (hfenced : Fenced source step store versions)
    (hfor : intent.IsFor revision)
    (hbacked : Backed source store versions revision intent request) :
    result.2.Honest result.1 versions revision intent request := by
  -- Of the answers that are no errors, a query's has records and a write's has an effect.
  refine ⟨fun hanswer hread => ?_, fun hanswer hwrite => ?_⟩
  · cases h with
    | taken | moved => cases hanswer
    | added | changed => cases hread
    | rested =>
      cases hanswer
      exact fun record hrecord => absurd hrecord List.not_mem_nil
    | found =>
      cases hanswer
      intro record hrecord
      obtain ⟨⟨key, hget⟩, hhash⟩ := MemoryStore.mem_query.1 hrecord
      exact ⟨hfenced.stored hget, hhash.trans hbacked, record,
        by rw [hsound.keyed hget]; exact hget, .refl record⟩
  · cases h with
    | taken | moved => cases hanswer
    | found | rested => cases hwrite
    | added hcreates hkey hhash =>
      cases intent with
      | release label => exact hcreates.elim
      | merge incoming setting =>
        cases hcreates
        obtain ⟨metrics, hmetrics⟩ := Option.isSome_iff_exists.1 hfor.2
        exact ⟨_, _, MemoryStore.get?_write_self _ _ _, hfor.1, metrics, hmetrics, hmetrics⟩
    | changed hget hhash hdelta =>
      refine ⟨_, _, MemoryStore.get?_write_self _ _ _, ?_, Intent.met_applyTo hdelta⟩
      rw [Delta.revisionHash_applyTo (Intent.revisionHash_delta (hhash.symm ▸ hfor) hdelta), hhash]

/-- What a call may do to a store. -/
inductive Change (store : MemoryStore) (revision : RevisionHash) (intent : Intent) :
    MemoryStore → Prop
  | none : Change store revision intent store
  /-- A send creates the record of its revision. -/
  | created {record : Record} : intent.Creates record → store.get? record.key = .none →
    (∀ key found, store.get? key = some found → found.revisionHash ≠ record.revisionHash) →
    Change store revision intent (store.write record.key record)
  /-- The delta was computed from the very record that it is applied to. -/
  | updated {current : Record} {token : VersionToken} {delta : Delta} :
    store.get? current.key = some current → current.revisionHash = revision →
    intent.delta current token = .ok delta →
    Change store revision intent (store.write current.key (delta.applyTo current))

theorem Effect.change (h : Effect store revision intent request result) :
    Change store revision intent result.1 := by
  cases h with
  | found | rested | taken | moved => exact .none
  | added hcreates hkey hhash => exact .created hcreates hkey hhash
  | changed hget hhash hdelta => exact .updated hget hhash hdelta

/-- What a request with good reasons leaves behind. -/
theorem serve_spec (hsound : store.Sound) (hfenced : Fenced source step store versions)
    (hfor : intent.IsFor revision)
    (hbacked : Backed source store versions revision intent request) :
    (Fleet.serve store request).1.Sound ∧ store.Grows (Fleet.serve store request).1 ∧
      ∃ versions', versions ⊆ versions' ∧
        Fenced source step (Fleet.serve store request).1 versions' ∧
        (Fleet.serve store request).2.Honest (Fleet.serve store request).1 versions' revision
          intent request := by
  have heffect := serve_effect hfenced hfor hbacked
  have hgrows := heffect.grows hfor
  obtain ⟨versions', hsub, hfenced'⟩ := heffect.fenced hfenced hbacked
  have hhonest := (heffect.honest hsound hfenced hfor hbacked).mono (.refl _) hsub
  exact ⟨heffect.sound hfor hsound, hgrows, versions', hsub, hfenced', hhonest⟩

end Effects

/-! ## 4. Calls -/

theorem PartialResult.singleSetting?_eq_some_iff {incoming : PartialResult} {setting : Setting} :
    incoming.singleSetting? = some setting ↔ incoming.results.keys = [setting] := by
  unfold singleSetting?
  constructor
  · intro h
    split at h <;> cases h
    assumption
  · intro h
    rw [h]

theorem PartialResult.find?_singleSetting {incoming : PartialResult} {setting : Setting}
    (h : incoming.singleSetting? = some setting) : (incoming.results.find? setting).isSome := by
  have hmem : setting ∈ incoming.results.keys := by
    rw [singleSetting?_eq_some_iff.1 h]
    exact List.mem_singleton_self setting
  obtain ⟨⟨found, metrics⟩, hentry, rfl⟩ := List.mem_map.1 hmem
  rw [(SortedMap.find?_eq_some_iff _).2 hentry]
  rfl

/-- A call that asks for nothing it has no reasons for, and has not lied about its end. -/
structure Call.Honest (source : Source) (store : MemoryStore) (versions : List Record)
    (call : Call) : Prop where
  /-- A call may be about nonsense only if it was refused. -/
  isFor : (∀ error, call.phase ≠ .finished (.error error)) → call.intent.IsFor call.revision
  opening : ∀ {record}, call.phase = .opening record →
    call.intent.Creates record ∧ source.Avoids 0 record.versionToken
  backed : ∀ {request}, call.request? = some request →
    Backed source store versions call.revision call.intent request
  truthful : ∀ {outcome}, call.phase = .finished (.ok outcome) →
    Truthful store call.revision call.intent outcome

/-- An invocation is refused, or begins a send of a partial result with the setting, or a tag. -/
theorem Invocation.call_cases (invocation : Invocation) :
    (∃ revision reason, invocation.call.phase = .finished (.error (.invalid revision reason))) ∨
      (∃ transmitter incoming setting, invocation = .send transmitter incoming ∧
        (incoming.results.find? setting).isSome ∧
        invocation.call = Call.start transmitter incoming.revisionHash (.merge incoming setting)
          (.opening incoming.toRecord)) ∨
      ∃ transmitter revision label, invocation.call = Call.start transmitter revision
        (.release label) (.reading (transmitter.policy.rounds - 1)) := by
  cases invocation with
  | send transmitter incoming =>
    unfold Invocation.call Call.send
    by_cases hblank : Text.isBlankText incoming.revisionHash.text
    · exact Or.inl ⟨_, _, by simp only [hblank, if_true]; rfl⟩
    · cases hsetting : incoming.singleSetting? with
      | none => exact Or.inl ⟨_, _, by simp [hblank, hsetting]; rfl⟩
      | some setting =>
        refine Or.inr (Or.inl ⟨transmitter, incoming, setting, rfl, ?_, by simp [hblank, hsetting]⟩)
        exact PartialResult.find?_singleSetting hsetting
  | tag transmitter revision label =>
    unfold Invocation.call Call.tag
    by_cases hblank : Text.isBlankText revision.text
    · exact Or.inl ⟨_, _, by simp only [hblank, if_true]; rfl⟩
    · by_cases hempty : (Text.trim label).isEmpty
      · exact Or.inl ⟨_, _, by simp [hblank, hempty]; rfl⟩
      · exact Or.inr (Or.inr ⟨transmitter, revision, Text.trim label, by simp [hblank, hempty]⟩)

namespace Call

theorem query_revision {call : Call} {index : String} {hash : RevisionHash}
    (h : call.request? = some (.query index hash)) : hash = call.revision := by
  unfold request? at h
  split at h <;> cases h <;> rfl

theorem phase_ne_finished {call : Call} (h : call.request?.isSome)
    (result : Except TransmitError Outcome) : call.phase ≠ .finished result := by
  intro hphase
  rw [request?, hphase] at h
  cases h

/-- A call that waits is about something. -/
theorem Honest.isFor_of_waits {source : Source} {store : MemoryStore} {versions : List Record}
    {call : Call} (h : call.Honest source store versions) (hwaits : call.request?.isSome) :
    call.intent.IsFor call.revision :=
  h.isFor fun error => phase_ne_finished hwaits (.error error)

theorem Honest.mono {source : Source} {store later : MemoryStore}
    {versions versions' : List Record} {call : Call} (h : call.Honest source store versions)
    (hgrows : store.Grows later) (hsub : versions ⊆ versions') :
    call.Honest source later versions' where
  isFor := h.isFor
  opening := h.opening
  backed hrequest := (h.backed hrequest).mono hgrows hsub
  truthful hphase := (h.truthful hphase).mono hgrows

/-- Every invocation begins an honest call, whatever the store. -/
theorem honest_start {source : Source} {store : MemoryStore} {versions : List Record}
    {invocation : Invocation}
    (hsupplied : ∀ {transmitter partialResult}, invocation = .send transmitter partialResult →
      source.Avoids 0 partialResult.versionToken) :
    invocation.call.Honest source store versions := by
  rcases invocation.call_cases with ⟨_, _, herror⟩ | ⟨transmitter, incoming, setting, hsend, hhas,
    hcall⟩ | ⟨transmitter, revision, label, hcall⟩
  · constructor
    · exact fun hno => absurd herror (hno _)
    · intro record hphase
      rw [herror] at hphase
      cases hphase
    · intro request hrequest
      rw [request?, herror] at hrequest
      cases hrequest
    · intro outcome hphase
      rw [herror] at hphase
      cases hphase
  · rw [hcall]
    constructor
    · exact fun _ => ⟨rfl, hhas⟩
    · intro record hphase
      cases hphase
      exact ⟨rfl, hsupplied hsend⟩
    · intro request hrequest
      cases hrequest
      rfl
    · intro outcome hphase
      cases hphase
  · rw [hcall]
    constructor
    · exact fun _ => trivial
    · intro record hphase
      cases hphase
    · intro request hrequest
      cases hrequest
      rfl
    · intro outcome hphase
      cases hphase

section Resume

variable {source : Source} {step : Nat} {store : MemoryStore} {versions : List Record}
  {call : Call} {request : Request} {answer : Answer}

/-- What a round has looked up is a copy. -/
theorem isCopy_of_reading (hrequest : call.request? = some request)
    (hanswer : answer.Honest store versions call.revision call.intent request) {later : Nat}
    {current : Record} (hphase : call.phase = .reading later) (hdone : answer = .done [current]) :
    IsCopy store versions call.revision current := by
  have hread : request.isWrite = false := by
    rw [request?, hphase] at hrequest
    cases hrequest
    rfl
  exact hanswer.copies hdone hread current (List.mem_singleton_self current)

/-- A call that ends at an honest answer tells the truth. -/
theorem Honest.truthful_resume (h : call.Honest source store versions)
    (hrequest : call.request? = some request)
    (hanswer : answer.Honest store versions call.revision call.intent request) {chance : Chance}
    {outcome : Outcome} (hphase : (call.resume answer chance).phase = .finished (.ok outcome)) :
    Truthful store call.revision call.intent outcome := by
  have hwaits : call.request?.isSome := by rw [hrequest]; rfl
  rcases phase_resume_eq_ok hwaits hphase with ⟨asked, records, created, hasked, hwrite, hdone,
    rfl⟩ | ⟨later, current, setting, hreading, hdone, hdelta, rfl⟩
  · obtain rfl : asked = request := Option.some.inj (hasked.symm.trans hrequest)
    exact ⟨rfl, hanswer.achieved hdone hwrite⟩
  · -- The copy had the setting, so the record that is stored now has it too.
    have hcurrent := isCopy_of_reading hrequest hanswer hreading hdone
    obtain ⟨found, hget, hext⟩ := hcurrent.extended
    obtain ⟨hsetting, hhas⟩ := Intent.delta_eq_error (h.isFor_of_waits hwaits) hdelta
    exact ⟨rfl, hsetting, _, found, hget, hext.hash.trans hcurrent.hash, hext.hasSetting hhas⟩

/-- A call that takes in an honest answer stays honest if its next request has good reasons. -/
theorem Honest.resume_of_backed (h : call.Honest source store versions)
    (hrequest : call.request? = some request)
    (hanswer : answer.Honest store versions call.revision call.intent request) {chance : Chance}
    {versions' : List Record}
    (hbacked : ∀ {asked}, (call.resume answer chance).request? = some asked →
      Backed source store versions' call.revision call.intent asked) :
    (call.resume answer chance).Honest source store versions' := by
  have hwaits : call.request?.isSome := by rw [hrequest]; rfl
  constructor
  · rw [intent_resume, revision_resume]
    exact fun _ => h.isFor_of_waits hwaits
  · exact fun hphase => absurd hphase (phase_resume_ne_opening hwaits answer _ _)
  · rw [intent_resume, revision_resume]
    exact hbacked
  · rw [intent_resume, revision_resume]
    exact h.truthful_resume hrequest hanswer

/-- A call that takes in an honest answer stays honest. The update that it may compute is a new
version. -/
theorem Honest.resume (hdistinct : source.Distinct) (hfenced : Fenced source step store versions)
    (h : call.Honest source store versions) (hrequest : call.request? = some request)
    (hanswer : answer.Honest store versions call.revision call.intent request) :
    ∃ versions', versions ⊆ versions' ∧ Fenced source (step + 1) store versions' ∧
      (call.resume answer (source step call)).Honest source store versions' := by
  -- Only a call that goes on to an update computes a version.
  by_cases hdraft : ∃ later current delta, call.phase = .reading later ∧
      answer = .done [current] ∧ call.intent.delta current (source step call).token = .ok delta
  · obtain ⟨later, current, delta, hreading, hdone, hdelta⟩ := hdraft
    have hcurrent := isCopy_of_reading hrequest hanswer hreading hdone
    refine ⟨delta.applyTo current :: versions, List.subset_cons_self _ _,
      hfenced.draft hdistinct hcurrent.version rfl (Intent.versionToken_delta hdelta),
      h.resume_of_backed hrequest hanswer fun {asked} hasked => ?_⟩
    have hresume : (call.resume answer (source step call)).request? =
        some (.update current.key delta current.versionToken) := by
      subst hdone
      unfold resume resumeReading
      simp [hreading, hdelta, request?]
    obtain rfl := Option.some.inj (hresume.symm.trans hasked)
    exact ⟨current, _, hcurrent.mono (.refl store) (List.subset_cons_self _ _), rfl, rfl, hdelta,
      List.mem_cons_self⟩
  · refine ⟨versions, List.Subset.refl versions, hfenced.mono (Nat.le_succ step),
      h.resume_of_backed hrequest hanswer fun {asked} hasked => ?_⟩
    cases asked with
    | query index hash => exact (query_revision hasked).trans (revision_resume ..)
    | pause delayMs => trivial
    | put record =>
      rcases request?_resume hasked rfl with ⟨record, hphase, -, heq⟩ | ⟨_, _, _, _, _, _, heq⟩
      · cases heq
        exact h.opening hphase
      · cases heq
    | update key delta expected =>
      rcases request?_resume hasked rfl with ⟨_, _, _, heq⟩ | ⟨later, current, delta, hreading,
        hdone, hdelta, -⟩
      · cases heq
      · exact absurd ⟨later, current, delta, hreading, hdone, hdelta⟩ hdraft

end Resume

end Call

/-! ## 5. One of many -/

theorem getElem?_set_cases {α : Type} {list : List α} {place index : Nat} {new found : α}
    (h : (list.set place new)[index]? = some found) :
    (place = index ∧ found = new) ∨ place ≠ index ∧ list[index]? = some found := by
  by_cases hsame : place = index
  · have hlt : place < list.length := by
      have hlt' := (List.getElem?_eq_some_iff.1 h).1
      rw [List.length_set, ← hsame] at hlt'
      exact hlt'
    rw [← hsame, List.getElem?_set_self hlt] at h
    exact Or.inl ⟨hsame, (Option.some.inj h).symm⟩
  · rw [List.getElem?_set_ne hsame] at h
    exact Or.inr ⟨hsame, h⟩

end RevisionLedger
