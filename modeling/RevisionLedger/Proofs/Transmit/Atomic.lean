import RevisionLedger.Proofs.Transmit.Fleet

/-!
# What a call does that has the store to itself

`perform` is the meaning of a call as one step: what becomes of the store and how the call ends.
Tokens and numbers of attempts are left out of both. The last turn of a call in a lawful fleet does
just that to the store it finds (`Turn.performs`), and no other turn changes the store
(`Turn.store_eq`). A call that runs alone does it from the store it starts with
(`Fleet.endsAlone_call`). What it does with tokens and attempts is its `Deed` (`Fleet.ends_call`).
-/

namespace RevisionLedger

/-! ## 1. Without tokens -/

/-- A record but for its token. -/
def Record.withoutToken (record : Record) : Record := { record with versionToken := default }

/-- A delta but for its token. -/
def Delta.withoutToken (delta : Delta) : Delta := { delta with versionToken := default }

@[simp] theorem Record.key_withoutToken (record : Record) : record.withoutToken.key = record.key :=
  rfl

theorem Delta.withoutToken_applyTo (delta : Delta) (current : Record) :
    (delta.applyTo current).withoutToken = delta.withoutToken.applyTo current.withoutToken := rfl

theorem Intent.delta_withoutToken (intent : Intent) (current : Record) (token : VersionToken) :
    intent.delta current.withoutToken default =
      (intent.delta current token).map Delta.withoutToken := by
  cases intent with
  | release label => rfl
  | merge incoming setting =>
    have hhas : current.withoutToken.hasSetting setting = current.hasSetting setting := rfl
    simp only [Intent.delta, Merge.of, hhas]
    cases current.hasSetting setting with
    | true => rfl
    | false => cases incoming.results.find? setting <;> rfl

namespace MemoryStore

/-- A store but for the tokens of its records. -/
def withoutTokens (store : MemoryStore) : MemoryStore :=
  ⟨store.records.mapValues Record.withoutToken, store.writes⟩

@[simp] theorem get?_withoutTokens (store : MemoryStore) (key : RecordKey) :
    store.withoutTokens.get? key = (store.get? key).map Record.withoutToken :=
  SortedMap.find?_mapValues _ _ _

theorem query_withoutTokens (store : MemoryStore) (hash : RevisionHash) :
    store.withoutTokens.query hash = (store.query hash).map Record.withoutToken := by
  -- The hash of a record is not touched, so the filter commutes with the map.
  show ((store.records.entries.map _).map Prod.snd).filter _ = _
  unfold query SortedMap.toList
  rw [List.map_map, List.filter_map, List.filter_map, List.map_map]
  rfl

theorem write_withoutTokens (store : MemoryStore) (key : RecordKey) (record : Record) :
    (store.write key record).withoutTokens = store.withoutTokens.write key record.withoutToken := by
  have hrecords : (store.records.insert key record).mapValues Record.withoutToken =
      (store.records.mapValues Record.withoutToken).insert key record.withoutToken := by
    apply SortedMap.ext_find?
    intro other
    rw [SortedMap.find?_mapValues, SortedMap.find?_insert, SortedMap.find?_insert,
      SortedMap.find?_mapValues]
    split <;> rfl
  simp only [withoutTokens, write, hrecords]

end MemoryStore

/-! ## 2. A call as one step -/

/-- How a call ended, but for the number of its attempts. -/
def verdict : Except TransmitError Outcome → Except TransmitError Outcome
  | .ok (.sent identifier created _) => .ok (.sent identifier created 0)
  | .ok (.skipped identifier setting _) => .ok (.skipped identifier setting 0)
  | .error error => .error error

/-- Whether a call ended for want of further attempts. -/
def isExceeded : Except TransmitError Outcome → Bool
  | .error (.maxAttemptsExceeded _ _ _) => true
  | _ => false

/-- The record that an intent may create. -/
def Intent.record? : Intent → Option Record
  | .merge incoming _ => some incoming.toRecord
  | .release _ => none

theorem Intent.record?_eq_some_iff {intent : Intent} {record : Record} :
    intent.record? = some record ↔ intent.Creates record := by
  cases intent with
  | merge incoming setting =>
    constructor
    · intro h
      exact (Option.some.inj h).symm
    · intro h
      exact congrArg some h.symm
  | release label =>
    constructor
    · intro h
      cases h
    · intro h
      exact h.elim

/-- What a call does to a store without tokens, and how it ends. -/
def perform (revision : RevisionHash) (intent : Intent) (store : MemoryStore) :
    MemoryStore × Except TransmitError Outcome :=
  match store.query revision with
  | [] =>
    match intent.record? with
    | none => (store, .error (.notFound revision))
    | some record =>
      if (store.get? record.key).isSome then (store, .error (.notFound revision))
      else (store.write record.key record.withoutToken, .ok (.sent revision true 0))
  | current :: _ =>
    match intent.delta current default with
    | .error setting => (store, .ok (.skipped revision setting 0))
    | .ok delta =>
      (store.write current.key (delta.applyTo current), .ok (.sent revision false 0))

section Perform

variable {revision : RevisionHash} {intent : Intent} {store : MemoryStore}

theorem perform_created {record : Record} (hquery : store.query revision = [])
    (hcreates : intent.Creates record) (hkey : store.get? record.key = none) :
    perform revision intent store.withoutTokens =
      ((store.write record.key record).withoutTokens, .ok (.sent revision true 0)) := by
  have hnone : store.withoutTokens.query revision = [] := by
    rw [MemoryStore.query_withoutTokens, hquery, List.map_nil]
  have hfree : (store.withoutTokens.get? record.key).isSome = false := by
    rw [MemoryStore.get?_withoutTokens, hkey]
    rfl
  simp only [perform, hnone, Intent.record?_eq_some_iff.2 hcreates, hfree,
    MemoryStore.write_withoutTokens]
  rfl

theorem perform_missing (hquery : store.query revision = [])
    (htaken : ∀ record, intent.Creates record → ∃ found, store.get? record.key = some found) :
    perform revision intent store.withoutTokens =
      (store.withoutTokens, .error (.notFound revision)) := by
  have hnone : store.withoutTokens.query revision = [] := by
    rw [MemoryStore.query_withoutTokens, hquery, List.map_nil]
  simp only [perform, hnone]
  cases hrecord : intent.record? with
  | none => rfl
  | some record =>
    obtain ⟨found, hfound⟩ := htaken record (Intent.record?_eq_some_iff.1 hrecord)
    have hsome : (store.withoutTokens.get? record.key).isSome := by
      rw [MemoryStore.get?_withoutTokens, hfound]
      rfl
    exact if_pos hsome

theorem perform_updated {current : Record} {token : VersionToken} {delta : Delta}
    (hquery : store.query revision = [current]) (hdelta : intent.delta current token = .ok delta) :
    perform revision intent store.withoutTokens =
      ((store.write current.key (delta.applyTo current)).withoutTokens,
        .ok (.sent revision false 0)) := by
  have hone : store.withoutTokens.query revision = [current.withoutToken] := by
    rw [MemoryStore.query_withoutTokens, hquery, List.map_singleton]
  have hbare : intent.delta current.withoutToken default = .ok delta.withoutToken := by
    rw [Intent.delta_withoutToken intent current token, hdelta]
    rfl
  simp only [perform, hone, hbare, MemoryStore.write_withoutTokens, Record.key_withoutToken,
    Delta.withoutToken_applyTo]

theorem perform_skipped {current : Record} {token : VersionToken} {setting : Setting}
    (hquery : store.query revision = [current])
    (hdelta : intent.delta current token = .error setting) :
    perform revision intent store.withoutTokens =
      (store.withoutTokens, .ok (.skipped revision setting 0)) := by
  have hone : store.withoutTokens.query revision = [current.withoutToken] := by
    rw [MemoryStore.query_withoutTokens, hquery, List.map_singleton]
  have hbare : intent.delta current.withoutToken default = .error setting := by
    rw [Intent.delta_withoutToken intent current token, hdelta]
    rfl
  simp only [perform, hone, hbare]

end Perform

/-! ## 3. The last turn of a call -/

section Turns

variable {store next : MemoryStore} {call : Call} {chance : Chance} {request : Request}
  {answer : Answer}

/-- A turn that does not end the call in success leaves the store as it is. -/
theorem Turn.store_eq {phase : Phase} (h : Turn store call chance request answer next phase)
    (hphase : ∀ outcome, phase ≠ .finished (.ok outcome)) : next = store := by
  cases h with
  | absent | found | beaten | missing | skipped | drafted | lost | exhausted | rested => rfl
  | created | updated => exact absurd rfl (hphase _)

/-- The turn that ends a call does what the call does alone, unless the call gives up. -/
theorem Turn.performs {result : Except TransmitError Outcome}
    (h : Turn store call chance request answer next (.finished result))
    (hready : call.Ready store) (hresult : isExceeded result = false) :
    perform call.revision call.intent store.withoutTokens =
      (next.withoutTokens, verdict result) := by
  cases h with
  | created hphase hcreates hrevision hquery hkey => exact perform_created hquery hcreates hkey
  | updated hphase hkey hquery hdelta hext => exact perform_updated hquery hdelta
  | skipped hphase hquery hdelta => exact perform_skipped hquery hdelta
  | exhausted => cases hresult
  | missing hphase hquery =>
    refine perform_missing hquery fun record hcreates => ?_
    -- A send that finds nothing has tried to create its record, so its key must be taken.
    obtain ⟨key, found, hget, hwhich⟩ := hready (by rw [hphase]; rfl) record hcreates
    rcases hwhich with rfl | hhash
    · exact ⟨found, hget⟩
    · exact absurd hhash (MemoryStore.query_eq_nil_iff.1 hquery key found hget)

end Turns

/-! ## 4. A call that runs alone -/

/-- What a call comes to that nobody gets in the way of: what it makes of the store, and how it
ends. The call has counted so many writes before, and draws its tokens from a step on. -/
inductive Deed (source : Source) (start : Nat) (revision : RevisionHash) (intent : Intent)
    (writes : Nat) (store : MemoryStore) : MemoryStore → Except TransmitError Outcome → Prop
  | created {record : Record} : store.query revision = [] → intent.Creates record →
    store.get? record.key = none →
    Deed source start revision intent writes store (store.write record.key record)
      (.ok (.sent revision true (writes + 1)))
  | missing : store.query revision = [] →
    (∀ record, intent.Creates record → ∃ found, store.get? record.key = some found) →
    Deed source start revision intent writes store store (.error (.notFound revision))
  | updated {current : Record} {token : VersionToken} {delta : Delta} :
    store.query revision = [current] → source.Draws start token →
    intent.delta current token = .ok delta →
    Deed source start revision intent writes store (store.write current.key (delta.applyTo current))
      (.ok (.sent revision false (writes + 1)))
  | skipped {current : Record} {token : VersionToken} {setting : Setting} :
    store.query revision = [current] → intent.delta current token = .error setting →
    Deed source start revision intent writes store store (.ok (.skipped revision setting writes))

namespace Deed

variable {source : Source} {start writes : Nat} {revision : RevisionHash} {intent : Intent}
  {store next : MemoryStore} {result : Except TransmitError Outcome}

theorem mono {later : Nat} (h : Deed source later revision intent writes store next result)
    (hle : start ≤ later) : Deed source start revision intent writes store next result := by
  cases h with
  | created hquery hcreates hkey => exact .created hquery hcreates hkey
  | missing hquery htaken => exact .missing hquery htaken
  | updated hquery hdraws hdelta => exact .updated hquery (hdraws.mono hle) hdelta
  | skipped hquery hdelta => exact .skipped hquery hdelta

theorem sound (h : Deed source start revision intent writes store next result)
    (hsound : store.Sound) (hfor : intent.IsFor revision) : next.Sound := by
  cases h with
  | created hquery hcreates hkey =>
    refine hsound.write_new ?_
    rw [hcreates.revisionHash_eq hfor]
    exact MemoryStore.query_eq_nil_iff.1 hquery
  | missing | skipped => exact hsound
  | @updated current token delta hquery hdraws hdelta =>
    obtain ⟨⟨key, hget⟩, hhash⟩ := MemoryStore.of_query_eq hquery
    rw [← hsound.keyed hget] at hget
    exact hsound.write_later hget
      (Delta.extends_applyTo (Intent.revisionHash_delta (hhash.symm ▸ hfor) hdelta) current)

theorem perform_eq (h : Deed source start revision intent writes store next result) :
    perform revision intent store.withoutTokens = (next.withoutTokens, verdict result) := by
  cases h with
  | created hquery hcreates hkey => exact perform_created hquery hcreates hkey
  | missing hquery htaken => exact perform_missing hquery htaken
  | updated hquery hdraws hdelta => exact perform_updated hquery hdelta
  | skipped hquery hdelta => exact perform_skipped hquery hdelta

end Deed

namespace Fleet

/-- So many turns of the call at an index end it, with a result and a store as they ought to be. -/
def Ends (source : Source) (turns index : Nat)
    (due : MemoryStore → Except TransmitError Outcome → Prop) (fleet : Fleet) : Prop :=
  ∃ (store : MemoryStore) (call : Call) (result : Except TransmitError Outcome),
    fleet.follow source (List.replicate turns index) =
      ⟨store, fleet.calls.set index call, fleet.steps + turns⟩ ∧
    call.phase = .finished result ∧ due store result

/-- So many turns of the call at an index end it, and do what a call does in one step. -/
def EndsAlone (source : Source) (turns index : Nat) (revision : RevisionHash) (intent : Intent)
    (fleet : Fleet) : Prop :=
  ∃ (store : MemoryStore) (call : Call) (result : Except TransmitError Outcome),
    fleet.follow source (List.replicate turns index) =
      ⟨store, fleet.calls.set index call, fleet.steps + turns⟩ ∧
    call.phase = .finished result ∧ store.Sound ∧
    perform revision intent fleet.store.withoutTokens = (store.withoutTokens, verdict result)

section Alone

variable {source : Source} {turns index : Nat} {fleet : Fleet} {call : Call} {request : Request}
  {due : MemoryStore → Except TransmitError Outcome → Prop}

theorem Ends.of_last (hcall : fleet.calls[index]? = some call)
    (hrequest : call.request? = some request) {store : MemoryStore} {answer : Answer}
    (hserve : serve fleet.store request = (store, answer)) {result : Except TransmitError Outcome}
    (hphase : (call.resume answer (source fleet.steps call)).phase = .finished result)
    (hdue : due store result) : Ends source (turns + 1) index due fleet := by
  refine ⟨store, _, result, ?_, hphase, hdue⟩
  rw [List.replicate_succ]
  show (fleet.step source index).follow source _ = _
  have hlt := (List.getElem?_eq_some_iff.1 hcall).1
  have hended : (call.resume answer (source fleet.steps call)).request? = none := by
    rw [Call.request?, hphase]
  rw [step_of_request hcall hrequest, hserve, follow_of_ended (List.getElem?_set_self hlt) hended,
    Nat.add_assoc, Nat.add_comm 1 turns]

theorem Ends.of_next (hcall : fleet.calls[index]? = some call)
    (hrequest : call.request? = some request) {answer : Answer}
    (hserve : serve fleet.store request = (fleet.store, answer))
    (h : Ends source turns index due ⟨fleet.store,
      fleet.calls.set index (call.resume answer (source fleet.steps call)), fleet.steps + 1⟩) :
    Ends source (turns + 1) index due fleet := by
  obtain ⟨store, last, result, hfollow, hphase, hdue⟩ := h
  refine ⟨store, last, result, ?_, hphase, hdue⟩
  rw [List.replicate_succ]
  show (fleet.step source index).follow source _ = _
  rw [step_of_request hcall hrequest, hserve, hfollow, List.set_set, Nat.add_assoc,
    Nat.add_comm 1 turns]

theorem Ends.imp {after : MemoryStore → Except TransmitError Outcome → Prop}
    (h : Ends source turns index due fleet) (himp : ∀ store result, due store result →
      after store result) : Ends source turns index after fleet := by
  obtain ⟨store, last, result, hfollow, hphase, hdue⟩ := h
  exact ⟨store, last, result, hfollow, hphase, himp store result hdue⟩

/-- A round that finds nothing ends the call. -/
theorem ends_missing {start writes : Nat} {revision : RevisionHash} {intent : Intent}
    (hcall : fleet.calls[index]? = some call) (hreading : ∃ later, call.phase = .reading later)
    (hrevision : call.revision = revision) (hquery : fleet.store.query revision = [])
    (htaken : ∀ record, intent.Creates record →
      ∃ found, fleet.store.get? record.key = some found) :
    Ends source (turns + 1) index (Deed source start revision intent writes fleet.store) fleet := by
  subst hrevision
  obtain ⟨later, hphase⟩ := hreading
  have hrequest : call.request? = some (.query call.transmitter.hashIndex call.revision) := by
    rw [Call.request?, hphase]
  have hserve : serve fleet.store (.query call.transmitter.hashIndex call.revision) =
      (fleet.store, .done []) := by
    simp only [serve, hquery]
  refine .of_last hcall hrequest hserve ?_ (.missing hquery htaken)
  simp only [Call.resume, hphase, Call.resumeReading]
  rfl

/-- From the look-up of a round it takes two turns at most: nobody else can get in between. -/
theorem ends_reading {later : Nat} (hcall : fleet.calls[index]? = some call)
    (hphase : call.phase = .reading later) (hsound : fleet.store.Sound)
    (hfor : call.intent.IsFor call.revision)
    (hready : fleet.store.query call.revision = [] → ∀ record, call.intent.Creates record →
      ∃ found, fleet.store.get? record.key = some found) :
    Ends source (turns + 2) index
      (Deed source fleet.steps call.revision call.intent call.writes fleet.store) fleet := by
  have hrequest : call.request? = some (.query call.transmitter.hashIndex call.revision) := by
    rw [Call.request?, hphase]
  have hserve : serve fleet.store (.query call.transmitter.hashIndex call.revision) =
      (fleet.store, .done (fleet.store.query call.revision)) := rfl
  have hlt := (List.getElem?_eq_some_iff.1 hcall).1
  rcases hsound.query_cases call.revision with ⟨hquery, -⟩ | ⟨current, hquery, hget, hhash⟩
  · exact ends_missing hcall ⟨later, hphase⟩ rfl hquery (hready hquery)
  · rw [hquery] at hserve
    cases hdelta : call.intent.delta current (source fleet.steps call).token with
    | error setting =>
      refine .of_last hcall hrequest hserve ?_ (.skipped hquery hdelta)
      simp only [Call.resume, hphase, Call.resumeReading, hdelta]
      rfl
    | ok delta =>
      -- The update meets the record that it was computed from.
      refine .of_next hcall hrequest hserve ?_
      have hnone : delta.revisionHash = none :=
        Intent.revisionHash_delta (hhash.symm ▸ hfor) hdelta
      have hwriting : call.resume (.done [current]) (source fleet.steps call) =
          { call with writes := call.writes + 1, phase := .writing later current delta } := by
        simp only [Call.resume, hphase, Call.resumeReading, hdelta]
      rw [hwriting]
      have hupdate : serve fleet.store (.update current.key delta current.versionToken) =
          (fleet.store.write current.key (delta.applyTo current), .done []) := by
        simp only [serve, MemoryStore.update_of_eq hget hnone rfl]
      exact .of_last (List.getElem?_set_self hlt) rfl hupdate rfl
        (.updated hquery ⟨fleet.steps, call, Nat.le_refl _, rfl⟩ hdelta)

/-- A send takes two turns more: it looks for the record, and tries to create it. -/
theorem ends_opening {record : Record} (hcall : fleet.calls[index]? = some call)
    (hphase : call.phase = .opening record) (hsound : fleet.store.Sound)
    (hfor : call.intent.IsFor call.revision) (hcreates : call.intent.Creates record) :
    Ends source (turns + 4) index
      (Deed source fleet.steps call.revision call.intent call.writes fleet.store) fleet := by
  have hrevision := hcreates.revisionHash_eq hfor
  have hrequest : call.request? = some (.query call.transmitter.hashIndex call.revision) := by
    rw [Call.request?, hphase]
  have hserve : serve fleet.store (.query call.transmitter.hashIndex call.revision) =
      (fleet.store, .done (fleet.store.query call.revision)) := rfl
  have hlt := (List.getElem?_eq_some_iff.1 hcall).1
  rcases hsound.query_cases call.revision with ⟨hquery, hfree⟩ | ⟨current, hquery, -, -⟩
  · rw [hquery] at hserve
    refine .of_next hcall hrequest hserve ?_
    have hcreating : call.resume (.done []) (source fleet.steps call) =
        { call with writes := call.writes + 1, phase := .creating record } := by
      simp only [Call.resume, hphase, Call.resumeOpening]
    rw [hcreating]
    rcases fleet.store.put_cases record with ⟨hput, hkey, -⟩ | ⟨error, hput, hkind, htaken⟩
    · have hdone : serve fleet.store (.put record) =
          (fleet.store.write record.key record, .done []) := by
        simp only [serve, hput]
      exact .of_last (List.getElem?_set_self hlt) rfl hdone rfl (.created hquery hcreates hkey)
    · have hrefused : serve fleet.store (.put record) = (fleet.store, .failed error) := by
        simp only [serve, hput]
      -- The hash is free, so it is the key that is taken, and stays so.
      have hkey : ∀ other, call.intent.Creates other →
          ∃ found, fleet.store.get? other.key = some found := by
        intro other hother
        rw [← hcreates.eq hother]
        rcases htaken with hkey | ⟨key, found, hget, hhash⟩
        · exact hkey
        · exact absurd (hhash.trans hrevision) (hfree key found hget)
      refine .of_next (List.getElem?_set_self hlt) rfl hrefused ?_
      refine ends_missing (List.getElem?_set_self (by rwa [List.length_set])) ?_ ?_ hquery hkey
      · simp only [Call.resume, Call.resumeCreating, hkind]
        exact ⟨call.rounds - 1, rfl⟩
      · simp only [Call.revision_resume]
  · rw [hquery] at hserve
    refine .of_next hcall hrequest hserve ?_
    have hreading : call.resume (.done [current]) (source fleet.steps call) =
        { call with phase := .reading (call.rounds - 1) } := by
      simp only [Call.resume, hphase, Call.resumeOpening]
    rw [hreading]
    refine .imp (ends_reading (List.getElem?_set_self hlt) rfl hsound hfor fun hnone =>
      absurd (hquery.symm.trans hnone) (List.cons_ne_nil _ _)) ?_
    exact fun _ _ hdeed => hdeed.mono (Nat.le_succ _)

/-- A call that has the store to itself comes to its end. -/
theorem ends_call {invocation : Invocation} (hsound : fleet.store.Sound)
    (hcall : fleet.calls[index]? = some invocation.call)
    (hwaits : invocation.call.request?.isSome) (hturns : invocation.call.rank ≤ turns) :
    Ends source turns index
      (Deed source fleet.steps invocation.call.revision invocation.call.intent 0 fleet.store)
      fleet := by
  rcases invocation.call_cases with ⟨_, _, herror⟩ | ⟨transmitter, incoming, setting, -, hhas,
    hstart⟩ | ⟨transmitter, revision, label, hstart⟩
  · exact absurd herror (Call.phase_ne_finished hwaits _)
  · rw [hstart] at hcall hturns ⊢
    have hpos : 1 ≤ transmitter.policy.rounds := Nat.le_max_left 1 _
    have hlong : 3 * transmitter.policy.rounds + 2 ≤ turns := hturns
    obtain ⟨more, rfl⟩ : ∃ more, turns = more + 4 := ⟨turns - 4, by omega⟩
    exact ends_opening hcall rfl hsound ⟨rfl, hhas⟩ rfl
  · rw [hstart] at hcall hturns ⊢
    have hlong : 3 * (transmitter.policy.rounds - 1) + 3 ≤ turns := hturns
    obtain ⟨more, rfl⟩ : ∃ more, turns = more + 2 := ⟨turns - 2, by omega⟩
    exact ends_reading hcall rfl hsound trivial fun _ record hcreates => hcreates.elim

/-- What it does then is what `perform` says. -/
theorem endsAlone_call {invocation : Invocation} (hsound : fleet.store.Sound)
    (hcall : fleet.calls[index]? = some invocation.call)
    (hwaits : invocation.call.request?.isSome) :
    EndsAlone source invocation.call.rank index invocation.call.revision invocation.call.intent
      fleet := by
  have hfor : invocation.call.intent.IsFor invocation.call.revision := by
    rcases invocation.call_cases with ⟨_, _, herror⟩ | ⟨_, _, _, -, hhas, hstart⟩ |
      ⟨_, _, _, hstart⟩
    · exact absurd herror (Call.phase_ne_finished hwaits _)
    · rw [hstart]
      exact ⟨rfl, hhas⟩
    · rw [hstart]
      trivial
  exact (ends_call hsound hcall hwaits (Nat.le_refl _)).imp fun _ _ hdeed =>
    ⟨hdeed.sound hsound hfor, hdeed.perform_eq⟩

end Alone

end Fleet

end RevisionLedger
