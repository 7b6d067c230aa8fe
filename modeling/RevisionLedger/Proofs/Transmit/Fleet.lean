import RevisionLedger.Proofs.Transmit.Honesty

/-!
# Fleets without faults

Over a store that always answers, a turn of a call does one of eleven things (`Turn`): a call that
loses a race reads again, and any other turn at which the store changes ends its call. In a lawful
fleet every turn is of this kind (`Lawful.turn`), and a lawful fleet stays lawful
(`Lawful.follow`).
-/

namespace RevisionLedger

/-! ## 1. Turns -/

/-- What one turn of a call does: the request, the answer, the store after it and the phase that
the call is in then. -/
inductive Turn (store : MemoryStore) (call : Call) (chance : Chance) :
    Request → Answer → MemoryStore → Phase → Prop
  | absent {index : String} {record : Record} : call.phase = .opening record →
    store.query call.revision = [] →
    Turn store call chance (.query index call.revision) (.done []) store (.creating record)
  | found {index : String} {record current : Record} : call.phase = .opening record →
    store.query call.revision = [current] →
    Turn store call chance (.query index call.revision) (.done [current]) store
      (.reading (call.rounds - 1))
  | created {record : Record} : call.phase = .creating record → call.intent.Creates record →
    record.revisionHash = call.revision → store.query call.revision = [] →
    store.get? record.key = none →
    Turn store call chance (.put record) (.done []) (store.write record.key record)
      (.finished (.ok (.sent call.revision true call.writes)))
  | beaten {record : Record} {error : StoreError} : call.phase = .creating record →
    call.intent.Creates record → (∃ key found, store.get? key = some found ∧
      (key = record.key ∨ found.revisionHash = call.revision)) →
    Turn store call chance (.put record) (.failed error) store (.reading (call.rounds - 1))
  | missing {index : String} {later : Nat} : call.phase = .reading later →
    store.query call.revision = [] →
    Turn store call chance (.query index call.revision) (.done []) store
      (.finished (.error (.notFound call.revision)))
  | skipped {index : String} {later : Nat} {current : Record} {setting : Setting} :
    call.phase = .reading later → store.query call.revision = [current] →
    call.intent.delta current chance.token = .error setting →
    Turn store call chance (.query index call.revision) (.done [current]) store
      (.finished (.ok (.skipped call.revision setting call.writes)))
  | drafted {index : String} {later : Nat} {current : Record} {delta : Delta} :
    call.phase = .reading later → store.query call.revision = [current] →
    call.intent.delta current chance.token = .ok delta →
    Turn store call chance (.query index call.revision) (.done [current]) store
      (.writing later current delta)
  | updated {later : Nat} {copy current : Record} {delta : Delta} {token : VersionToken} :
    call.phase = .writing later copy delta → copy.key = current.key →
    store.query call.revision = [current] → call.intent.delta current token = .ok delta →
    current.Extends (delta.applyTo current) →
    Turn store call chance (.update current.key delta current.versionToken) (.done [])
      (store.write current.key (delta.applyTo current))
      (.finished (.ok (.sent call.revision false call.writes)))
  | lost {later delayMs : Nat} {copy current : Record} {delta : Delta} {error : StoreError} :
    call.phase = .writing (later + 1) copy delta → store.get? copy.key = some current →
    current.revisionHash = call.revision → current.versionToken ≠ copy.versionToken →
    error.kind = .conflict →
    Turn store call chance (.update copy.key delta copy.versionToken) (.failed error) store
      (.pausing later delayMs)
  | exhausted {copy current : Record} {delta : Delta} {error : StoreError} :
    call.phase = .writing 0 copy delta → store.get? copy.key = some current →
    current.revisionHash = call.revision → current.versionToken ≠ copy.versionToken →
    error.kind = .conflict →
    Turn store call chance (.update copy.key delta copy.versionToken) (.failed error) store
      (.finished (.error (.maxAttemptsExceeded call.revision call.rounds (some error))))
  | rested {later delayMs : Nat} : call.phase = .pausing later delayMs →
    Turn store call chance (.pause delayMs) (.done []) store (.reading later)

/-- A request of an honest call over a sound store, and its answer, make a turn. -/
theorem Call.Honest.turn {source : Source} {step : Nat} {store : MemoryStore}
    {versions : List Record} {call : Call} {request : Request}
    (h : call.Honest source store versions) (hsound : store.Sound)
    (hfenced : Fenced source step store versions) (hrequest : call.request? = some request)
    (chance : Chance) :
    Turn store call chance request (Fleet.serve store request).2 (Fleet.serve store request).1
      (call.resume (Fleet.serve store request).2 chance).phase := by
  have hfor := h.isFor_of_waits (by rw [hrequest]; rfl)
  have hbacked := h.backed hrequest
  have heffect := serve_effect hfenced hfor hbacked
  cases hphase : call.phase with
  | finished result => simp [Call.request?, hphase] at hrequest
  | opening record =>
    obtain rfl : _ = request := by simpa [Call.request?, hphase] using hrequest
    rcases hsound.query_cases call.revision with ⟨hquery, -⟩ | ⟨current, hquery, -, -⟩
    · simp only [Fleet.serve, hquery, Call.resume, Call.resumeOpening, hphase]
      exact .absent hphase hquery
    · simp only [Fleet.serve, hquery, Call.resume, Call.resumeOpening, hphase]
      exact .found hphase hquery
  | creating record =>
    obtain rfl : _ = request := by simpa [Call.request?, hphase] using hrequest
    generalize Fleet.serve store (.put record) = result at heffect ⊢
    rw [show call.resume result.2 chance = call.resumeCreating result.2 by
      simp only [Call.resume, hphase]]
    cases heffect with
    | added hcreates hkey hhash =>
      have hrevision := hcreates.revisionHash_eq hfor
      rw [hrevision] at hhash
      exact .created hphase hcreates hrevision (MemoryStore.query_eq_nil_iff.2 hhash) hkey
    | taken hcreates hkind htaken =>
      simp only [Call.resumeCreating, hkind, if_true]
      refine .beaten hphase hcreates ?_
      rcases htaken with ⟨found, hget⟩ | ⟨key, found, hget, hhash⟩
      · exact ⟨record.key, found, hget, Or.inl rfl⟩
      · exact ⟨key, found, hget, Or.inr (hhash.trans (hcreates.revisionHash_eq hfor))⟩
  | reading later =>
    obtain rfl : _ = request := by simpa [Call.request?, hphase] using hrequest
    rcases hsound.query_cases call.revision with ⟨hquery, -⟩ | ⟨current, hquery, -, -⟩
    · simp only [Fleet.serve, hquery, Call.resume, Call.resumeReading, hphase]
      exact .missing hphase hquery
    · simp only [Fleet.serve, hquery, Call.resume, Call.resumeReading, hphase]
      cases hdelta : call.intent.delta current chance.token with
      | error setting => exact .skipped hphase hquery hdelta
      | ok delta => exact .drafted hphase hquery hdelta
  | writing later copy delta =>
    obtain rfl : _ = request := by simpa [Call.request?, hphase] using hrequest
    generalize Fleet.serve store (.update copy.key delta copy.versionToken) = result at heffect ⊢
    rw [show call.resume result.2 chance = call.resumeWriting later chance.draw result.2 by
      simp only [Call.resume, hphase]]
    -- The effect is stated of a key and a token that need not be those of the copy.
    generalize hkey : copy.key = key at heffect ⊢
    generalize htoken : copy.versionToken = token at heffect ⊢
    cases heffect with
    | changed hget hhash hdelta =>
      have hnone := Intent.revisionHash_delta (hhash.symm ▸ hfor) hdelta
      exact .updated hphase hkey (hhash ▸ hsound.query_of_get? hget) hdelta
        (Delta.extends_applyTo hnone _)
    | moved hget hhash hmoved hkind =>
      rw [← hkey] at hget ⊢
      rw [← htoken] at hmoved ⊢
      cases later with
      | zero =>
        simp only [Call.resumeWriting, hkind, Call.resumeConflict]
        exact .exhausted hphase hget hhash hmoved hkind
      | succ later =>
        simp only [Call.resumeWriting, hkind, Call.resumeConflict]
        exact .lost hphase hget hhash hmoved hkind
  | pausing later delayMs =>
    obtain rfl : _ = request := by simpa [Call.request?, hphase] using hrequest
    simp only [Fleet.serve, Call.resume, Call.resumePausing, hphase]
    exact .rested hphase

/-! ## 2. Steps -/

/-- Whether a phase is part of a round. -/
def Phase.isRound : Phase → Bool
  | .reading _ | .writing _ _ _ | .pausing _ _ => true
  | .opening _ | .creating _ | .finished _ => false

/-- A send that makes rounds has something to read, or cannot create its record. -/
def Call.Ready (store : MemoryStore) (call : Call) : Prop :=
  call.phase.isRound → ∀ record, call.intent.Creates record →
    ∃ key found, store.get? key = some found ∧
      (key = record.key ∨ found.revisionHash = call.revision)

theorem Call.Ready.mono {store later : MemoryStore} {call : Call} (h : call.Ready store)
    (hgrows : store.Grows later) : call.Ready later := by
  intro hround record hcreates
  obtain ⟨key, found, hget, hwhich⟩ := h hround record hcreates
  obtain ⟨next, hnext, hext⟩ := hgrows key found hget
  exact ⟨key, next, hnext, hwhich.imp_right hext.hash.trans⟩

/-- After a turn a send still has something to read, or cannot create its record. -/
theorem Turn.ready {store next : MemoryStore} {call : Call} {chance : Chance} {request : Request}
    {answer : Answer} (h : Turn store call chance request answer next
      (call.resume answer chance).phase) (hready : call.Ready store) :
    (call.resume answer chance).Ready next := by
  intro hround record hcreates
  rw [Call.intent_resume] at hcreates
  rw [Call.revision_resume]
  have hwas : call.phase.isRound → ∃ key found, store.get? key = some found ∧
      (key = record.key ∨ found.revisionHash = call.revision) :=
    fun hround => hready hround record hcreates
  generalize (call.resume answer chance).phase = phase at h hround
  cases h with
  | absent | created | missing | skipped | updated | exhausted => cases hround
  | found hphase hquery =>
    obtain ⟨⟨key, hget⟩, hhash⟩ := MemoryStore.of_query_eq hquery
    exact ⟨key, _, hget, Or.inr hhash⟩
  | beaten hphase hcreated htaken =>
    rw [hcreates.eq hcreated]
    exact htaken
  | drafted hphase | rested hphase | lost hphase =>
    -- The call was in a round before.
    exact hwas (by rw [hphase]; rfl)

namespace Fleet

section Steps

variable {source : Source} {fleet : Fleet} {index : Nat} {call : Call}

theorem step_of_none (h : fleet.calls[index]? = none) : fleet.step source index = fleet := by
  unfold step
  rw [h]

theorem step_of_request {request : Request} (hcall : fleet.calls[index]? = some call)
    (hrequest : call.request? = some request) :
    fleet.step source index = ⟨(serve fleet.store request).1,
      fleet.calls.set index (call.resume (serve fleet.store request).2 (source fleet.steps call)),
      fleet.steps + 1⟩ := by
  simp only [step, hcall, stepCall, hrequest]

/-- A turn of a call that has ended counts as a step, no more. -/
theorem step_of_ended (hcall : fleet.calls[index]? = some call) (hended : call.request? = none) :
    fleet.step source index = ⟨fleet.store, fleet.calls, fleet.steps + 1⟩ := by
  obtain ⟨hlt, rfl⟩ := List.getElem?_eq_some_iff.1 hcall
  simp only [step, hcall, stepCall, hended, List.set_getElem_self]

/-- So do any number of turns. -/
theorem follow_of_ended (hcall : fleet.calls[index]? = some call) (hended : call.request? = none)
    (turns : Nat) : fleet.follow source (List.replicate turns index) =
      ⟨fleet.store, fleet.calls, fleet.steps + turns⟩ := by
  induction turns generalizing fleet with
  | zero => rfl
  | succ turns ih =>
    have hnext : (Fleet.mk fleet.store fleet.calls (fleet.steps + 1)).calls[index]? = some call :=
      hcall
    rw [List.replicate_succ]
    show (fleet.step source index).follow source _ = _
    rw [step_of_ended hcall hended, ih hnext, Nat.add_assoc, Nat.add_comm 1 turns]

/-- A turn leaves the fleet as it is, or is a turn of a call that waits. -/
theorem step_cases (source : Source) (fleet : Fleet) (index : Nat) :
    ((fleet.step source index).store = fleet.store ∧
        (fleet.step source index).calls = fleet.calls ∧
        fleet.calls[index]?.bind Call.request? = none) ∨
      ∃ call request, fleet.calls[index]? = some call ∧ call.request? = some request ∧
        (fleet.step source index).calls = fleet.calls.set index
          (call.resume (serve fleet.store request).2 (source fleet.steps call)) ∧
        (fleet.step source index).store = (serve fleet.store request).1 := by
  cases hcall : fleet.calls[index]? with
  | none =>
    rw [step_of_none hcall]
    exact Or.inl ⟨rfl, rfl, rfl⟩
  | some call =>
    cases hrequest : call.request? with
    | none =>
      rw [step_of_ended hcall hrequest]
      exact Or.inl ⟨rfl, rfl, hrequest⟩
    | some request =>
      rw [step_of_request hcall hrequest]
      exact Or.inr ⟨call, request, rfl, hrequest, rfl, rfl⟩

theorem calls_step_of_ne {turn : Nat} (h : turn ≠ index) :
    (fleet.step source turn).calls[index]? = fleet.calls[index]? := by
  unfold step
  split
  · rfl
  · exact List.getElem?_set_ne h

theorem calls_follow_of_not_mem {turns : List Nat} (h : index ∉ turns) :
    (fleet.follow source turns).calls[index]? = fleet.calls[index]? := by
  induction turns generalizing fleet with
  | nil => rfl
  | cons turn turns ih =>
    rw [List.mem_cons, not_or] at h
    obtain ⟨hne, hnot⟩ := h
    exact (ih hnot).trans (calls_step_of_ne (Ne.symm hne))

end Steps

/-! ## 3. Lawful fleets -/

/-- What holds of a fleet of invocations at all times. -/
structure Lawful (source : Source) (invocations : List Invocation) (fleet : Fleet) : Prop where
  sound : fleet.store.Sound
  honest : ∃ versions, Fenced source fleet.steps fleet.store versions ∧
    ∀ call ∈ fleet.calls, call.Honest source fleet.store versions
  ready : ∀ call ∈ fleet.calls, call.Ready fleet.store
  own : ∀ {index : Nat} {call : Call}, fleet.calls[index]? = some call →
    ∃ invocation : Invocation, invocations[index]? = some invocation ∧
      invocation.call.SameTask call

theorem calls_start (store : MemoryStore) (invocations : List Invocation) (index : Nat) :
    (start store invocations).calls[index]? = invocations[index]?.map Invocation.call :=
  List.getElem?_map

/-- Every call of a fleet is that of an invocation. -/
theorem own_start {store : MemoryStore} {invocations : List Invocation} {index : Nat} {call : Call}
    (hcall : (start store invocations).calls[index]? = some call) :
    ∃ invocation : Invocation, invocations[index]? = some invocation ∧
      invocation.call.SameTask call := by
  rw [calls_start] at hcall
  obtain ⟨invocation, hinvocation, rfl⟩ := Option.map_eq_some_iff.1 hcall
  exact ⟨invocation, hinvocation, .refl _⟩

theorem lawful_start {source : Source} {store : MemoryStore} {invocations : List Invocation}
    (hsound : store.Sound) (hfresh : source.Fresh store invocations) :
    (start store invocations).Lawful source invocations where
  sound := hsound
  honest := by
    refine ⟨_, Fenced.of_store hsound hfresh.stored, fun call hcall => ?_⟩
    obtain ⟨invocation, hmem, rfl⟩ := List.mem_map.1 hcall
    exact Call.honest_start fun hsend => hfresh.supplied (hsend ▸ hmem)
  ready call hcall hround record hcreates := by
    obtain ⟨invocation, hmem, rfl⟩ := List.mem_map.1 hcall
    rcases invocation.call_cases with ⟨_, _, herror⟩ | ⟨_, _, _, -, -, hstart⟩ | ⟨_, _, _, hstart⟩
    · rw [herror] at hround
      cases hround
    · rw [hstart] at hround
      cases hround
    · rw [hstart] at hcreates
      cases hcreates
  own := own_start

section Runs

variable {source : Source} {invocations : List Invocation} {fleet : Fleet}

/-- In a lawful fleet the turn of a call that waits is one of the eleven. -/
theorem Lawful.turn (h : fleet.Lawful source invocations) {index : Nat} {call : Call}
    {request : Request} (hcall : fleet.calls[index]? = some call)
    (hrequest : call.request? = some request) (chance : Chance) :
    Turn fleet.store call chance request (serve fleet.store request).2
      (serve fleet.store request).1 (call.resume (serve fleet.store request).2 chance).phase := by
  obtain ⟨versions, hfenced, hhonest⟩ := h.honest
  exact (hhonest call (List.mem_of_getElem? hcall)).turn h.sound hfenced hrequest chance

theorem Lawful.step_cases (h : fleet.Lawful source invocations) (index : Nat) :
    ((fleet.step source index).store = fleet.store ∧
        (fleet.step source index).calls = fleet.calls ∧
        fleet.calls[index]?.bind Call.request? = none) ∨
      ∃ call request, fleet.calls[index]? = some call ∧ call.request? = some request ∧
        (fleet.step source index).calls = fleet.calls.set index
          (call.resume (serve fleet.store request).2 (source fleet.steps call)) ∧
        Turn fleet.store call (source fleet.steps call) request (serve fleet.store request).2
          (fleet.step source index).store
          (call.resume (serve fleet.store request).2 (source fleet.steps call)).phase := by
  rcases fleet.step_cases source index with hidle | ⟨call, request, hcall, hrequest, hcalls, hstore⟩
  · exact Or.inl hidle
  · refine Or.inr ⟨call, request, hcall, hrequest, hcalls, ?_⟩
    rw [hstore]
    exact h.turn hcall hrequest _

theorem Lawful.step (h : fleet.Lawful source invocations)
    (hdistinct : source.Distinct) (index : Nat) :
    (fleet.step source index).Lawful source invocations ∧
      fleet.store.Grows (fleet.step source index).store := by
  obtain ⟨versions, hfenced, hhonest⟩ := h.honest
  cases hcall : fleet.calls[index]? with
  | none =>
    rw [step_of_none hcall]
    exact ⟨h, .refl _⟩
  | some call =>
    have hmem := List.mem_of_getElem? hcall
    cases hrequest : call.request? with
    | none =>
      rw [step_of_ended hcall hrequest]
      exact ⟨⟨h.sound, ⟨versions, hfenced.mono (Nat.le_succ _), hhonest⟩, h.ready, h.own⟩,
        .refl _⟩
    | some request =>
      have hcallHonest := hhonest call hmem
      have hturn := h.turn hcall hrequest (source fleet.steps call)
      -- The store takes in the request, and then the call takes in the answer.
      obtain ⟨hsound, hgrows, grown, hsub, hfenced', hanswer⟩ := serve_spec h.sound hfenced
        (hcallHonest.isFor_of_waits (by rw [hrequest]; rfl)) (hcallHonest.backed hrequest)
      obtain ⟨versions', hsub', hfenced'', hnext⟩ :=
        (hcallHonest.mono hgrows hsub).resume hdistinct hfenced' hrequest hanswer
      rw [step_of_request hcall hrequest]
      refine ⟨⟨hsound, ⟨versions', hfenced'', fun other hother => ?_⟩, fun other hother => ?_,
        fun {place other} hother => ?_⟩, hgrows⟩
      · rcases List.mem_or_eq_of_mem_set hother with hold | rfl
        · exact (hhonest other hold).mono hgrows (List.Subset.trans hsub hsub')
        · exact hnext
      · rcases List.mem_or_eq_of_mem_set hother with hold | rfl
        · exact (h.ready other hold).mono hgrows
        · exact hturn.ready (h.ready call hmem)
      · rcases getElem?_set_cases hother with ⟨rfl, rfl⟩ | ⟨-, hother⟩
        · obtain ⟨invocation, hinvocation, htask⟩ := h.own hcall
          exact ⟨invocation, hinvocation, htask.trans (Call.sameTask_resume ..)⟩
        · exact h.own hother

theorem Lawful.follow (h : fleet.Lawful source invocations)
    (hdistinct : source.Distinct) (turns : List Nat) :
    (fleet.follow source turns).Lawful source invocations ∧
      fleet.store.Grows (fleet.follow source turns).store := by
  induction turns generalizing fleet with
  | nil => exact ⟨h, .refl _⟩
  | cons index turns ih =>
    obtain ⟨hstep, hgrows⟩ := h.step hdistinct index
    obtain ⟨hfollow, hgrows'⟩ := ih hstep
    exact ⟨hfollow, hgrows.trans hgrows'⟩

end Runs

end Fleet

end RevisionLedger
