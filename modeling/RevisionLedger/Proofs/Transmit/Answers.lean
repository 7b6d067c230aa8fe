import RevisionLedger.Transmit.Call

/-!
# What follows an answer

An answer changes the phase of a call and what it has noted, never what it is about. Of what can
follow an answer three things matter elsewhere: which write a call asks for next
(`request?_resume`), how it comes to end without an error (`phase_resume_eq_ok`), and that it does
not go back to its first look-up (`phase_resume_ne_opening`).
-/

namespace RevisionLedger

/-- Whether a request may change the store. -/
def Request.isWrite : Request → Bool
  | .put _ | .update _ _ _ => true
  | .query _ _ | .pause _ => false

def Request.isUpdate : Request → Bool
  | .update _ _ _ => true
  | .query _ _ | .put _ | .pause _ => false

/-- What a phase tells of the number of rounds that lost their race, if a call may make so many. -/
def Phase.Counts (rounds lost : Nat) : Phase → Prop
  | .opening _ | .creating _ => lost = 0
  | .reading later | .writing later _ _ | .pausing later _ => lost + later + 1 = rounds
  | .finished (.error (.maxAttemptsExceeded _ _ _)) => lost = rounds
  | .finished _ => True

namespace Call

/-! ## 1. What a call is about -/

/-- Whether two calls are about the same thing, wherever they stand. -/
def SameTask (call other : Call) : Prop :=
  other.transmitter = call.transmitter ∧ other.revision = call.revision ∧
    other.intent = call.intent

theorem SameTask.refl (call : Call) : call.SameTask call := ⟨rfl, rfl, rfl⟩

theorem SameTask.trans {a b c : Call} (hab : a.SameTask b) (hbc : b.SameTask c) : a.SameTask c :=
  ⟨hbc.1.trans hab.1, hbc.2.1.trans hab.2.1, hbc.2.2.trans hab.2.2⟩

theorem sameTask_resumeOpening (call : Call) (record : Record) (answer : Answer) :
    call.SameTask (call.resumeOpening record answer) := by
  unfold resumeOpening
  split <;> exact ⟨rfl, rfl, rfl⟩

theorem sameTask_resumeCreating (call : Call) (answer : Answer) :
    call.SameTask (call.resumeCreating answer) := by
  unfold resumeCreating
  split
  · exact ⟨rfl, rfl, rfl⟩
  · split <;> exact ⟨rfl, rfl, rfl⟩
  · exact ⟨rfl, rfl, rfl⟩

theorem sameTask_resumeReading (call : Call) (later : Nat) (token : VersionToken)
    (answer : Answer) : call.SameTask (call.resumeReading later token answer) := by
  unfold resumeReading
  split
  · exact ⟨rfl, rfl, rfl⟩
  · exact ⟨rfl, rfl, rfl⟩
  · exact ⟨rfl, rfl, rfl⟩
  · split <;> exact ⟨rfl, rfl, rfl⟩
  · exact ⟨rfl, rfl, rfl⟩

theorem sameTask_resumeConflict (call : Call) (later : Nat) (draw : UInt64) (error : StoreError) :
    call.SameTask (call.resumeConflict later draw error) := by
  cases later <;> exact ⟨rfl, rfl, rfl⟩

theorem sameTask_resumeWriting (call : Call) (later : Nat) (draw : UInt64) (answer : Answer) :
    call.SameTask (call.resumeWriting later draw answer) := by
  unfold resumeWriting
  split
  · exact ⟨rfl, rfl, rfl⟩
  · split
    · exact sameTask_resumeConflict ..
    · exact ⟨rfl, rfl, rfl⟩
    · exact ⟨rfl, rfl, rfl⟩
  · exact ⟨rfl, rfl, rfl⟩

theorem sameTask_resumePausing (call : Call) (later : Nat) (answer : Answer) :
    call.SameTask (call.resumePausing later answer) := by
  unfold resumePausing
  split <;> exact ⟨rfl, rfl, rfl⟩

theorem sameTask_resume (call : Call) (answer : Answer) (chance : Chance) :
    call.SameTask (call.resume answer chance) := by
  unfold resume
  split
  · exact sameTask_resumeOpening ..
  · exact sameTask_resumeCreating ..
  · exact sameTask_resumeReading ..
  · exact sameTask_resumeWriting ..
  · exact sameTask_resumePausing ..
  · exact ⟨rfl, rfl, rfl⟩

@[simp] theorem transmitter_resume (call : Call) (answer : Answer) (chance : Chance) :
    (call.resume answer chance).transmitter = call.transmitter :=
  (call.sameTask_resume answer chance).1

@[simp] theorem revision_resume (call : Call) (answer : Answer) (chance : Chance) :
    (call.resume answer chance).revision = call.revision :=
  (call.sameTask_resume answer chance).2.1

@[simp] theorem intent_resume (call : Call) (answer : Answer) (chance : Chance) :
    (call.resume answer chance).intent = call.intent :=
  (call.sameTask_resume answer chance).2.2

theorem rounds_resume (call : Call) (answer : Answer) (chance : Chance) :
    (call.resume answer chance).rounds = call.rounds := by
  rw [rounds, transmitter_resume, rounds]

theorem sameTask_send (transmitter : Transmitter) (incoming : PartialResult) :
    (start transmitter incoming.revisionHash
      (.merge incoming (incoming.singleSetting?.getD default)) (.opening incoming.toRecord)).SameTask
      (send transmitter incoming) := by
  dsimp only [send]
  split
  · exact ⟨rfl, rfl, rfl⟩
  · split <;> exact ⟨rfl, rfl, rfl⟩

theorem sameTask_tag (transmitter : Transmitter) (revision : RevisionHash) (label : String) :
    (start transmitter revision (.release (Text.trim label))
      (.reading (transmitter.policy.rounds - 1))).SameTask (tag transmitter revision label) := by
  dsimp only [tag]
  split
  · exact ⟨rfl, rfl, rfl⟩
  · split <;> exact ⟨rfl, rfl, rfl⟩

/-! ## 2. The phase that follows -/

theorem phase_of_put {call : Call} {record : Record} (h : call.request? = some (.put record)) :
    call.phase = .creating record := by
  unfold request? at h
  split at h <;> cases h
  assumption

theorem phase_of_update {call : Call} {key : RecordKey} {delta : Delta} {expected : VersionToken}
    (h : call.request? = some (.update key delta expected)) :
    ∃ later current, call.phase = .writing later current delta ∧ key = current.key ∧
      expected = current.versionToken := by
  unfold request? at h
  split at h <;> cases h
  exact ⟨_, _, ‹_›, rfl, rfl⟩

theorem phase_of_result? {call : Call} {result : Except TransmitError Outcome}
    (h : call.result? = some result) : call.phase = .finished result := by
  unfold result? at h
  split at h <;> cases h
  assumption

theorem request?_eq_none_iff {call : Call} : call.request? = none ↔ call.result?.isSome := by
  unfold request? result?
  cases call.phase <;> simp

theorem result?_of_waits {call : Call} (h : call.request?.isSome) : call.result? = none := by
  cases hresult : call.result? with
  | none => rfl
  | some result =>
    rw [request?_eq_none_iff.2 (by rw [hresult]; rfl)] at h
    cases h

theorem resume_finished {call : Call} {result : Except TransmitError Outcome}
    (h : call.phase = .finished result) (answer : Answer) (chance : Chance) :
    call.resume answer chance = call := by
  unfold resume
  rw [h]

theorem resume_of_request?_eq_none {call : Call} (h : call.request? = none) (answer : Answer)
    (chance : Chance) : call.resume answer chance = call := by
  unfold request? at h
  split at h <;> cases h
  rename_i hphase
  exact resume_finished hphase answer chance

/-- The phases that can follow an answer, each with the phase and the answer that it follows. -/
inductive Follows (call : Call) (chance : Chance) : Answer → Phase → Prop
  | ended : Follows call chance .ended
    (.finished (.error (.cancelled call.revision call.writes)))
  | refused {error : StoreError} : Follows call chance (.failed error)
    (.finished (.error (.store call.revision error)))
  | ambiguous {records : List Record} : 1 < records.length → Follows call chance (.done records)
    (.finished (.error (.store call.revision (call.ambiguous records))))
  | creating {record : Record} : call.phase = .opening record →
    Follows call chance (.done []) (.creating record)
  | found {record current : Record} : call.phase = .opening record →
    Follows call chance (.done [current]) (.reading (call.rounds - 1))
  | created {record : Record} {records : List Record} : call.phase = .creating record →
    Follows call chance (.done records) (.finished (.ok (.sent call.revision true call.writes)))
  | beaten {record : Record} {error : StoreError} : call.phase = .creating record →
    error.kind = .conflict → Follows call chance (.failed error) (.reading (call.rounds - 1))
  | missing {later : Nat} : call.phase = .reading later →
    Follows call chance (.done []) (.finished (.error (.notFound call.revision)))
  | skipped {later : Nat} {current : Record} {setting : Setting} : call.phase = .reading later →
    call.intent.delta current chance.token = .error setting →
    Follows call chance (.done [current])
      (.finished (.ok (.skipped call.revision setting call.writes)))
  | writing {later : Nat} {current : Record} {delta : Delta} : call.phase = .reading later →
    call.intent.delta current chance.token = .ok delta →
    Follows call chance (.done [current]) (.writing later current delta)
  | updated {later : Nat} {current : Record} {delta : Delta} {records : List Record} :
    call.phase = .writing later current delta →
    Follows call chance (.done records) (.finished (.ok (.sent call.revision false call.writes)))
  | vanished {later : Nat} {current : Record} {delta : Delta} {error : StoreError} :
    call.phase = .writing later current delta → error.kind = .notFound →
    Follows call chance (.failed error) (.finished (.error (.notFound call.revision)))
  | exhausted {current : Record} {delta : Delta} {error : StoreError} :
    call.phase = .writing 0 current delta → error.kind = .conflict →
    Follows call chance (.failed error)
      (.finished (.error (.maxAttemptsExceeded call.revision call.rounds (some error))))
  | lost {later : Nat} {current : Record} {delta : Delta} {error : StoreError} :
    call.phase = .writing (later + 1) current delta → error.kind = .conflict →
    Follows call chance (.failed error)
      (.pausing later (call.transmitter.policy.delayMs chance.draw))
  | rested {later delayMs : Nat} {answer : Answer} : call.phase = .pausing later delayMs →
    Follows call chance answer (.reading later)

theorem follows_resume {call : Call} (h : call.request?.isSome) (answer : Answer)
    (chance : Chance) : Follows call chance answer (call.resume answer chance).phase := by
  -- A list of records that is neither empty nor a singleton is a long one.
  have hlong : ∀ records : List Record, (records = [] → False) →
      (∀ record, records = [record] → False) → 1 < records.length := by
    intro records hnil hone
    match records with
    | [] => exact (hnil rfl).elim
    | [record] => exact (hone record rfl).elim
    | _ :: _ :: rest => exact Nat.lt_of_sub_pos (Nat.succ_pos rest.length)
  -- One case for each phase, and in it one for each answer.
  unfold resume
  split <;> rename_i hphase
  · unfold resumeOpening
    split
    · exact .ended
    · exact .refused
    · exact .creating hphase
    · exact .found hphase
    · rename_i hnil hone
      exact .ambiguous (hlong _ hnil hone)
  · unfold resumeCreating
    split
    · exact .ended
    · split
      · exact .beaten hphase ‹_›
      · exact .refused
    · exact .created hphase
  · unfold resumeReading
    split
    · exact .ended
    · exact .refused
    · exact .missing hphase
    · split <;> rename_i hdelta
      · exact .skipped hphase hdelta
      · exact .writing hphase hdelta
    · rename_i hnil hone
      exact .ambiguous (hlong _ hnil hone)
  · unfold resumeWriting
    split
    · exact .ended
    · split <;> rename_i hkind
      · unfold resumeConflict
        split
        · exact .exhausted hphase hkind
        · exact .lost hphase hkind
      · exact .vanished hphase hkind
      · exact .refused
    · exact .updated hphase
  · unfold resumePausing
    split
    · exact .ended
    all_goals exact .rested hphase
  · rw [request?, hphase] at h
    cases h

/-- A write is asked for after a look-up: a put if it found nothing, an update of what it found
otherwise. -/
theorem request?_resume {call : Call} {answer : Answer} {chance : Chance} {request : Request}
    (h : (call.resume answer chance).request? = some request) (hwrite : request.isWrite) :
    (∃ record, call.phase = .opening record ∧ answer = .done [] ∧ request = .put record) ∨
      ∃ later current delta, call.phase = .reading later ∧ answer = .done [current] ∧
        call.intent.delta current chance.token = .ok delta ∧
        request = .update current.key delta current.versionToken := by
  cases hrequest : call.request? with
  | none =>
    rw [resume_of_request?_eq_none hrequest, hrequest] at h
    cases h
  | some asked =>
    have hfollows := follows_resume (by rw [hrequest]; rfl) answer chance
    unfold request? at h
    generalize (call.resume answer chance).phase = phase at h hfollows
    -- Only two of the phases ask for a write, and each follows one phase only.
    cases hfollows with
    | creating hphase => exact Or.inl ⟨_, hphase, rfl, (Option.some.inj h).symm⟩
    | writing hphase hdelta =>
      exact Or.inr ⟨_, _, _, hphase, rfl, hdelta, (Option.some.inj h).symm⟩
    | found | beaten | rested | lost =>
      cases h
      cases hwrite
    | ended | refused | ambiguous | created | missing | skipped | updated | vanished | exhausted =>
      cases h

/-- A call that waits for an answer ends without an error when its write is done, or when it finds
the setting recorded. -/
theorem phase_resume_eq_ok {call : Call} (hwaits : call.request?.isSome) {answer : Answer}
    {chance : Chance} {outcome : Outcome}
    (h : (call.resume answer chance).phase = .finished (.ok outcome)) :
    (∃ request records created, call.request? = some request ∧ request.isWrite ∧
        answer = .done records ∧ outcome = .sent call.revision created call.writes) ∨
      ∃ later current setting, call.phase = .reading later ∧ answer = .done [current] ∧
        call.intent.delta current chance.token = .error setting ∧
        outcome = .skipped call.revision setting call.writes := by
  have hfollows := follows_resume hwaits answer chance
  generalize hnext : (call.resume answer chance).phase = phase at h hfollows
  cases hfollows with
  | created hphase =>
    cases h
    exact Or.inl ⟨_, _, _, by rw [request?, hphase], rfl, rfl, rfl⟩
  | updated hphase =>
    cases h
    exact Or.inl ⟨_, _, _, by rw [request?, hphase], rfl, rfl, rfl⟩
  | skipped hphase hdelta =>
    cases h
    exact Or.inr ⟨_, _, _, hphase, rfl, hdelta, rfl⟩
  | ended | refused | ambiguous | creating | found | beaten | missing | writing | vanished
  | exhausted | lost | rested => cases h

/-- An error names the revision of the call. -/
theorem revision_of_failed {call : Call} (hwaits : call.request?.isSome) {answer : Answer}
    {chance : Chance} {error : TransmitError}
    (h : (call.resume answer chance).phase = .finished (.error error)) :
    error.revision = call.revision := by
  have hfollows := follows_resume hwaits answer chance
  rw [h] at hfollows
  cases hfollows <;> rfl

theorem phase_resume_ne_opening {call : Call} (hwaits : call.request?.isSome) (answer : Answer)
    (chance : Chance) (record : Record) :
    (call.resume answer chance).phase ≠ .opening record := by
  intro h
  have hfollows := follows_resume hwaits answer chance
  rw [h] at hfollows
  cases hfollows

/-- An update is the end of a round. While a call goes on, every update that it made was lost. -/
theorem Follows.counts {call : Call} {chance : Chance} {answer : Answer} {phase : Phase}
    (h : Follows call chance answer phase) {request : Request}
    (hrequest : call.request? = some request) {lost : Nat}
    (hcounts : call.phase.Counts call.rounds lost) :
    phase.Counts call.rounds (lost + if request.isUpdate then 1 else 0) := by
  have hpos := call.rounds_pos
  unfold request? at hrequest
  cases h with
  | creating hphase | found hphase | beaten hphase | writing hphase | exhausted hphase
  | lost hphase | rested hphase =>
    rw [hphase] at hrequest hcounts
    cases hrequest
    simp only [Phase.Counts, Request.isUpdate, if_true, Bool.false_eq_true, if_false]
      at hcounts ⊢
    omega
  | ended | refused | ambiguous | created | missing | skipped | updated | vanished => trivial

end Call

end RevisionLedger
