import RevisionLedger.Proofs.Transmit.Timeline

/-!
# Attempts

The attempts that a call reports are the writes that it has counted. A write is counted when it
becomes due, which is before the call looks at its context. So the attempts of a call that does not
fail are the conditional writes that it started, while a cancelled call may report one more: the
write that was due when the context was found to have finished (`Timeline.attempts_counted`).

Each round has one write, and one may come before the first round. So the count is at most one more
than the attempts that the policy allows (`Invocation.writes_le`), and a word of 32 bits holds it
unless the policy allows 2 ^ 32 - 1 of them (`Timeline.attempts_lt_size`).
-/

namespace RevisionLedger

/-! ## 1. Counting -/

/-- The number of writes that are due. -/
def dueWrites (due : Option Request) : Nat := (due.any Request.isWrite).toNat

/-- How many writes a call can have counted in a phase, if it may make so many rounds. One of them
may be that of a put, and the rounds that may still follow have had none. -/
def Phase.Limits (rounds writes : Nat) : Phase → Prop
  | .opening _ => writes = 0
  | .creating _ => writes ≤ 1
  | .reading later | .pausing later _ => writes + later ≤ rounds
  | .writing later _ _ => writes + later ≤ rounds + 1
  | .finished _ => writes ≤ rounds + 1

theorem Phase.Limits.le {phase : Phase} {rounds writes : Nat} (h : phase.Limits rounds writes) :
    writes ≤ rounds + 1 := by
  cases phase <;> simp only [Limits] at h <;> omega

namespace Call

/-- The attempts that a call reports if it does not fail or is cancelled. -/
def reported? (call : Call) : Option Nat :=
  match call.result? with
  | some (.ok outcome) => some outcome.attempts
  | some (.error (.cancelled _ attempts)) => some attempts
  | some (.error _) | none => none

variable {call : Call}

/-- A write is counted when it becomes due. -/
theorem writes_resume (h : call.request?.isSome) (answer : Answer) (chance : Chance) :
    (call.resume answer chance).writes =
      call.writes + dueWrites (call.resume answer chance).request? := by
  unfold resume
  split
  · unfold resumeOpening
    split <;> rfl
  · unfold resumeCreating
    split
    · rfl
    · split <;> rfl
    · rfl
  · unfold resumeReading
    split
    · rfl
    · rfl
    · rfl
    · split <;> rfl
    · rfl
  · unfold resumeWriting
    split
    · rfl
    · split
      · unfold resumeConflict
        split <;> rfl
      · rfl
      · rfl
    · rfl
  · unfold resumePausing
    split <;> rfl
  · rename_i hphase
    exact absurd hphase (phase_ne_finished h _)

theorem reported?_resume (h : call.request?.isSome) {answer : Answer} {chance : Chance}
    {attempts : Nat} (hreported : (call.resume answer chance).reported? = some attempts) :
    attempts = (call.resume answer chance).writes := by
  have hfollows := follows_resume h answer chance
  rw [writes_resume h]
  unfold reported? result? at hreported
  unfold request?
  generalize (call.resume answer chance).phase = phase at hreported hfollows
  cases hfollows with
  | ended | created | skipped | updated =>
    cases hreported
    rfl
  | refused | ambiguous | creating | found | beaten | missing | writing | vanished | exhausted
  | lost | rested => cases hreported

theorem limits_resume (h : call.phase.Limits call.rounds call.writes)
    (hwaits : call.request?.isSome) (answer : Answer) (chance : Chance) :
    (call.resume answer chance).phase.Limits (call.resume answer chance).rounds
      (call.resume answer chance).writes := by
  have hfollows := follows_resume hwaits answer chance
  have hpos := call.rounds_pos
  rw [writes_resume hwaits, rounds_resume]
  unfold request?
  generalize (call.resume answer chance).phase = phase at hfollows ⊢
  cases hfollows with
  -- These ends can follow any phase, and then nothing is due.
  | ended | refused | ambiguous => exact h.le
  | creating hphase | found hphase | created hphase | beaten hphase | missing hphase
  | skipped hphase | writing hphase | updated hphase | vanished hphase | exhausted hphase
  | lost hphase | rested hphase =>
    rw [hphase] at h
    simp only [Phase.Limits, dueWrites, Option.any_some, Option.any_none, Request.isWrite,
      Bool.toNat_true, Bool.toNat_false] at h ⊢
    omega

end Call

theorem Invocation.counted_call (invocation : Invocation) : invocation.call.writes = 0 ∧
    dueWrites invocation.call.request? = 0 ∧ invocation.call.reported? = none := by
  cases invocation with
  | send transmitter partialResult =>
    dsimp only [call, Call.send]
    split
    · exact ⟨rfl, rfl, rfl⟩
    · split <;> exact ⟨rfl, rfl, rfl⟩
  | tag transmitter revision label =>
    dsimp only [call, Call.tag]
    split
    · exact ⟨rfl, rfl, rfl⟩
    · split <;> exact ⟨rfl, rfl, rfl⟩

theorem Invocation.limits_call (invocation : Invocation) :
    invocation.call.phase.Limits invocation.call.rounds invocation.call.writes := by
  rw [invocation.counted_call.1]
  rcases invocation.call_cases with ⟨_, _, herror⟩ | ⟨_, _, _, -, -, hstart⟩ |
    ⟨transmitter, _, _, hstart⟩
  · rw [herror]
    exact Nat.zero_le _
  · rw [hstart]
    rfl
  · rw [hstart]
    show 0 + (transmitter.policy.rounds - 1) ≤ transmitter.policy.rounds
    omega

/-- A call counts at most one write for each of its rounds, and one for a put. -/
theorem Invocation.writes_le (invocation : Invocation) (heard : List (Answer × Chance)) :
    (invocation.call.hear heard).writes ≤
      max 1 invocation.call.transmitter.policy.maxAttempts.toNat + 1 := by
  have hlimits : (invocation.call.hear heard).phase.Limits (invocation.call.hear heard).rounds
      (invocation.call.hear heard).writes :=
    @Call.hear_induction (fun call _ => call.phase.Limits call.rounds call.writes)
      (fun h hrequest => Call.limits_resume h (by rw [hrequest]; rfl)) _ [] invocation.limits_call
      heard
  have hrounds : (invocation.call.hear heard).rounds = invocation.call.rounds := by
    rw [Call.rounds, (invocation.call.sameTask_hear heard).1, Call.rounds]
  rw [hrounds] at hlimits
  exact hlimits.le

/-! ## 2. Timelines -/

/-- The number of conditional writes that were started. -/
def startedWrites {σ : Type} (errands : List (Errand σ)) : Nat :=
  errands.countP fun errand => errand.request.isWrite

theorem startedWrites_append {σ : Type} (errands : List (Errand σ)) (errand : Errand σ) :
    startedWrites (errands ++ [errand]) =
      startedWrites errands + dueWrites (some errand.request) := by
  rw [startedWrites, List.countP_append, List.countP_singleton]
  show _ + _ = _ + errand.request.isWrite.toNat
  cases errand.request.isWrite <;> rfl

namespace Timeline

variable {σ : Type}

/-- The request that is due, or that was due when the context had finished. -/
def due? (timeline : Timeline σ) : Option Request :=
  timeline.withheld.or timeline.call.request?

/-- A call has counted the writes that were started and the one that is due, and it reports what
it has counted. -/
structure Tallied (timeline : Timeline σ) : Prop where
  counted : timeline.call.writes = startedWrites timeline.errands + dueWrites timeline.due?
  reported : ∀ {attempts}, timeline.call.reported? = some attempts →
    attempts = timeline.call.writes
  withheld_eq : timeline.call.isCancelled = false → timeline.withheld = none

theorem Tallied.counted_of_request {timeline : Timeline σ} (h : timeline.Tallied)
    {request : Request} (hrequest : timeline.call.request? = some request) :
    timeline.withheld = none ∧
      timeline.call.writes = startedWrites timeline.errands + dueWrites (some request) := by
  have hwaits : timeline.call.request?.isSome := by rw [hrequest]; rfl
  have hwithheld := h.withheld_eq (by rw [Call.isCancelled, Call.result?_of_waits hwaits])
  have hcounted := h.counted
  rw [due?, hwithheld, hrequest] at hcounted
  exact ⟨hwithheld, hcounted⟩

theorem tallied_start (invocation : Invocation) (now : Situation σ) :
    (start invocation.call now).Tallied := by
  obtain ⟨hwrites, hdue, hreported⟩ := invocation.counted_call
  refine ⟨?_, fun h => absurd (hreported.symm.trans h) (Option.some_ne_none _).symm, fun _ => rfl⟩
  show invocation.call.writes = 0 + dueWrites invocation.call.request?
  rw [hwrites, hdue]

variable [RecordStore σ]

theorem Tallied.run {timeline : Timeline σ} (h : timeline.Tallied)
    (courses : List (Course × Chance)) : (timeline.run courses).Tallied := by
  refine run_induction ?_ ?_ h courses
  · intro timeline request htallied hrequest hdone
    obtain ⟨-, hcounted⟩ := htallied.counted_of_request hrequest
    refine ⟨hcounted, ?_, fun h => by cases h⟩
    rintro attempts ⟨⟩
    rfl
  · intro timeline errand chance htallied hrequest hstart hgoing
    obtain ⟨hwithheld, hcounted⟩ := htallied.counted_of_request hrequest
    have hwaits : timeline.call.request?.isSome := by rw [hrequest]; rfl
    refine ⟨?_, Call.reported?_resume hwaits, fun _ => hwithheld⟩
    simp only [due?, hwithheld, Option.none_or]
    rw [Call.writes_resume hwaits, hcounted, startedWrites_append]

/-- What a call counts and reports is less than 2 ^ 32, unless the policy allows 2 ^ 32 - 1
attempts. -/
theorem attempts_lt_size (invocation : Invocation)
    (h : invocation.call.transmitter.policy.maxAttempts.toNat + 1 < UInt32.size)
    (now : Situation σ) (courses : List (Course × Chance)) :
    let call := ((start invocation.call now).run courses).call
    call.writes < UInt32.size ∧
      ∀ attempts, call.reported? = some attempts → attempts < UInt32.size := by
  intro call
  have hwrites : call.writes < UInt32.size := by
    obtain ⟨heard, -, hcall⟩ := (start invocation.call now).exists_hear courses
    have hle : call.writes ≤ _ := hcall ▸ invocation.writes_le heard
    have hone : 1 + 1 < UInt32.size := by decide
    omega
  refine ⟨hwrites, fun attempts hreported => ?_⟩
  rw [((tallied_start invocation now).run courses).reported hreported]
  exact hwrites

/-- Whatever the store does and whenever the context finishes: a call that does not fail reports
the number of conditional writes that it started, and a cancelled call does so too unless a write
was due when the context was found to have finished, in which case it reports one more. -/
theorem attempts_counted (invocation : Invocation) (now : Situation σ)
    (courses : List (Course × Chance)) :
    let timeline := (start invocation.call now).run courses
    (∀ outcome, timeline.call.result? = some (.ok outcome) →
        outcome.attempts = startedWrites timeline.errands) ∧
      (∀ revision attempts, timeline.call.result? = some (.error (.cancelled revision attempts)) →
        attempts = startedWrites timeline.errands + dueWrites timeline.withheld) ∧
      (timeline.withheld.isSome → timeline.now.budget.isDone timeline.now.nowMs) ∧
      (invocation.call.rank ≤ courses.length → timeline.call.result?.isSome) := by
  intro timeline
  have htallied : timeline.Tallied := (tallied_start invocation now).run courses
  have hkept : timeline.Kept := (kept_start invocation now).run courses
  -- A call that has ended asks for nothing, so that all that is due was withheld.
  have hended {attempts} (hreported : timeline.call.reported? = some attempts)
      (hresult : timeline.call.result?.isSome) :
      attempts = startedWrites timeline.errands + dueWrites timeline.withheld := by
    rw [htallied.reported hreported, htallied.counted, due?, Call.request?_eq_none_iff.2 hresult,
      Option.or_none]
  have hlong (h : invocation.call.rank ≤ courses.length) : timeline.call.result?.isSome :=
    result?_run h
  clear_value timeline
  refine ⟨?_, ?_, ?_, hlong⟩
  · intro outcome hresult
    have hcancelled : timeline.call.isCancelled = false := by rw [Call.isCancelled, hresult]
    have hattempts := hended (by rw [Call.reported?, hresult]) (by rw [hresult]; rfl)
    rw [htallied.withheld_eq hcancelled] at hattempts
    exact hattempts
  · intro revision attempts hresult
    exact hended (by rw [Call.reported?, hresult]) (by rw [hresult]; rfl)
  · intro hwithheld
    cases hkept with
    | withheld _ hdone => exact hdone
    | going | cut => cases hwithheld

/-- A send that is beaten to the creation of the record, and then updates it. -/
theorem attempts_counted_beaten :
    let result (setting : Setting) : PartialResult :=
      .single ⟨"4f1c"⟩ ⟨2024, 17⟩ setting .empty ⟨""⟩
    let invocation : Invocation := .send ⟨{}, "Hash-index"⟩ (result ⟨"10-200"⟩)
    let now : Situation MemoryStore := ⟨.empty, 0, {}⟩
    let replies : List (Except StoreError (List Record)) :=
      [.ok [], .error (.conflict ""), .ok [(result ⟨"20-200"⟩).toRecord], .ok []]
    let courses := replies.map fun reply => (Course.mk [.effect] reply false, Chance.mk ⟨"x"⟩ 0)
    let timeline := (start invocation.call now).run courses
    ∃ outcome, timeline.call.result? = some (.ok outcome) ∧ outcome.attempts = 2 := by
  intro result invocation now replies courses timeline
  have hsent : timeline.call.result?.any Except.isOk := by decide +kernel
  have hwrites : startedWrites timeline.errands = 2 := by decide +kernel
  obtain ⟨ended, hresult, hok⟩ := (Option.any_eq_true _ _).1 hsent
  cases ended with
  | error error => cases hok
  | ok outcome =>
    have hattempts := (attempts_counted invocation now courses).1 outcome hresult
    exact ⟨outcome, hresult, hattempts.trans hwrites⟩

/-- The context of a send is cancelled during its look-up, which finds nothing. The send reports
an attempt, though it has started no write. -/
theorem attempts_overcounted :
    let invocation : Invocation := .send ⟨{}, "Hash-index"⟩
      (.single ⟨"4f1c"⟩ ⟨2024, 17⟩ ⟨"10-200"⟩ .empty ⟨""⟩)
    let lookUp : Course := ⟨[.cancel, .effect], .ok [], false⟩
    let now : Situation MemoryStore := ⟨.empty, 0, {}⟩
    let timeline := (start invocation.call now).run (List.replicate 2 (lookUp, ⟨⟨"x"⟩, 0⟩))
    timeline.call.result? = some (.error (.cancelled ⟨"4f1c"⟩ 1)) ∧
      startedWrites timeline.errands = 0 := by
  intro invocation lookUp now timeline
  exact ⟨rfl, rfl⟩

end Timeline

end RevisionLedger
