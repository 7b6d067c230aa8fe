import RevisionLedger.Proofs.Transmit.Attempts
import RevisionLedger.Proofs.Transmit.AuditTrail

/-!
# The attempts that events name

An event names an attempt, and a call has several counters to take it from. The event of a creation
takes the writes that the call has counted. An event of a round takes the number of the round, which
is that of the updates: the attempt to create the record before the first round does not count, and
a round that ends without an update does. A failure takes what its error reports, if it does.

`Effort.attempt` says which number this is, in terms of the writes that were started, and
`Timeline.attempts_named` that every event of a call names it. `Timeline.attempts_misnamed` is a
call none of whose events names the number of writes that it had started.
-/

namespace RevisionLedger

/-! ## 1. What a call has done -/

/-- How many writes and how many updates a call has started, and how many writes it withheld. -/
structure Effort where
  writes : Nat
  updates : Nat
  withheld : Nat

/-- The attempt that an event of a kind names, where the call has ended so, if it has. -/
def Effort.attempt (effort : Effort) (result? : Option (Except TransmitError Outcome)) :
    AuditKind → Nat
  | .recordCreated => effort.writes
  | .recordUpdated | .releaseTagged | .updateConflict => effort.updates
  | .recordSkipped => effort.updates + 1
  | .transmitFailed =>
    match result? with
    | some (.error (.cancelled _ _)) => effort.writes + effort.withheld
    | some (.error (.maxAttemptsExceeded _ _ _)) => effort.updates
    | _ => 0

/-- Whether events of a kind are about updates. A conflict may be about the creation instead. -/
def AuditKind.isOfUpdate : AuditKind → Bool
  | .recordUpdated | .releaseTagged | .updateConflict => true
  | .recordCreated | .recordSkipped | .transmitFailed => false

theorem Effort.attempt_eq_writes (effort : Effort)
    {result? : Option (Except TransmitError Outcome)} {kind : AuditKind}
    (h : kind = .recordCreated ∨ kind.isOfUpdate ∧ effort.updates = effort.writes) :
    effort.attempt result? kind = effort.writes := by
  rcases h with rfl | ⟨hkind, hupdates⟩
  · rfl
  · cases kind with
    | recordUpdated | releaseTagged | updateConflict => exact hupdates
    | recordCreated | recordSkipped | transmitFailed => cases hkind

/-! ## 2. The events of an answer -/

namespace Call

variable {call : Call} {request : Request} {answer : Answer} {chance : Chance} {lost : Nat}

/-- While updates are lost, the rounds are counted by them. -/
theorem attempt_eq {later : Nat} (hcounts : lost + later + 1 = call.rounds) :
    call.attempt later = lost + 1 := by
  rw [attempt]
  omega

/-- The put comes before all rounds, and an update ends the round that it is in. -/
theorem round_of_isWrite (hrequest : call.request? = some request) (hwrite : request.isWrite)
    (hcounts : call.phase.Counts call.rounds lost) :
    call.round = lost + if request.isUpdate then 1 else 0 := by
  unfold request? at hrequest
  unfold round
  split at hrequest <;> cases hrequest <;> rename_i hphase
  · cases hwrite
  · cases hwrite
  · rw [hphase] at hcounts ⊢
    exact hcounts.symm
  · rw [hphase] at hcounts ⊢
    exact attempt_eq hcounts
  · cases hwrite

theorem attempt_closingEvent (hrequest : call.request? = some request)
    (hcounts : call.phase.Counts call.rounds lost) {effort : Effort}
    (hwrites : call.writes = effort.writes + effort.withheld)
    (hgoing : answer ≠ .ended → effort.withheld = 0 ∧
      effort.updates = lost + if request.isUpdate then 1 else 0)
    {result : Except TransmitError Outcome}
    (hphase : (call.resume answer chance).phase = .finished result) :
    (call.closingEvent result).attempt =
      effort.attempt (some result) (call.closingEvent result).kind := by
  have hfollows := follows_resume (by rw [hrequest]; rfl) answer chance
  have hround := fun hwrite => round_of_isWrite hrequest hwrite hcounts
  rw [hphase] at hfollows
  cases hfollows with
  | ended => exact hwrites
  | refused | ambiguous | missing | vanished => rfl
  | created hcreating =>
    obtain ⟨hnone, -⟩ := hgoing (by simp)
    show call.writes = effort.writes
    rw [hwrites, hnone, Nat.add_zero]
  | skipped hreading =>
    obtain ⟨-, hupdates⟩ := hgoing (by simp)
    rw [request?, hreading] at hrequest
    cases hrequest
    rw [hreading] at hcounts
    show call.round = effort.updates + 1
    rw [hupdates, round, hreading]
    exact attempt_eq hcounts
  | updated hwriting =>
    obtain ⟨-, hupdates⟩ := hgoing (by simp)
    rw [request?, hwriting] at hrequest
    cases hrequest
    have hattempt : call.round = effort.updates := (hround rfl).trans hupdates.symm
    -- The event of an update has one of two kinds, by the intent.
    unfold closingEvent
    cases call.intent <;> exact hattempt
  | exhausted hwriting =>
    obtain ⟨-, hupdates⟩ := hgoing (by simp)
    rw [request?, hwriting] at hrequest
    cases hrequest
    rw [hwriting] at hcounts
    show call.rounds = effort.updates
    rw [hupdates]
    exact hcounts.symm

/-- Every event that an answer adds names its attempt. -/
theorem attempt_of_added (hrequest : call.request? = some request)
    (hcounts : call.phase.Counts call.rounds lost) {effort : Effort}
    (hwrites : call.writes = effort.writes + effort.withheld)
    (hgoing : answer ≠ .ended → effort.withheld = 0 ∧
      effort.updates = lost + if request.isUpdate then 1 else 0) :
    ∃ added, (call.resume answer chance).events = call.events ++ added ∧ ∀ event ∈ added,
      event.attempt = effort.attempt (call.resume answer chance).result? event.kind := by
  refine ⟨_, events_resume hrequest answer chance, fun event hevent => ?_⟩
  rcases List.mem_append.1 hevent with hrace | hclosing
  · obtain ⟨error, herror, rfl⟩ := List.mem_map.1 hrace
    have hconflict := Option.mem_toList.1 herror
    have hwrite : request.isWrite := by
      by_contra hread
      rw [Exchange.conflict?_of_read (Bool.eq_false_iff.2 hread)] at hconflict
      cases hconflict
    have hheard : answer ≠ .ended := by
      rintro rfl
      cases hconflict
    exact (round_of_isWrite hrequest hwrite hcounts).trans (hgoing hheard).2.symm
  · obtain ⟨result, hresult, rfl⟩ := List.mem_map.1 hclosing
    have hresult' := Option.mem_toList.1 hresult
    rw [hresult']
    exact attempt_closingEvent hrequest hcounts hwrites hgoing (phase_of_result? hresult')

end Call

/-! ## 3. Timelines -/

/-- The number of updates that were started. -/
def startedUpdates {σ : Type} (errands : List (Errand σ)) : Nat :=
  errands.countP fun errand => errand.request.isUpdate

theorem startedUpdates_append {σ : Type} (errands : List (Errand σ)) (errand : Errand σ) :
    startedUpdates (errands ++ [errand]) =
      startedUpdates errands + if errand.request.isUpdate then 1 else 0 := by
  rw [startedUpdates, List.countP_append, List.countP_singleton]
  rfl

/-- An event, and the timeline of its call at the moment of the event. -/
structure Notice (σ : Type) where
  event : AuditEvent
  moment : Timeline σ

namespace Timeline

variable {σ : Type}

def effort (timeline : Timeline σ) : Effort :=
  ⟨startedWrites timeline.errands, startedUpdates timeline.errands, dueWrites timeline.withheld⟩

/-- The attempt that an event names that comes now. -/
def attempt (timeline : Timeline σ) (kind : AuditKind) : Nat :=
  timeline.effort.attempt timeline.call.result? kind

/-- The writes of a call are tallied, and its rounds are counted by its updates. -/
structure Counted (timeline : Timeline σ) : Prop where
  tallied : timeline.Tallied
  counts : timeline.call.phase.Counts timeline.call.rounds (startedUpdates timeline.errands)

theorem counted_start (invocation : Invocation) (now : Situation σ) :
    (start invocation.call now).Counted :=
  ⟨tallied_start invocation now, invocation.counts_call⟩

/-- A call that ends before its first request has started no write. -/
theorem attempt_of_start {invocation : Invocation} {now : Situation σ} :
    ∀ event ∈ invocation.call.events,
      event.attempt = (start invocation.call now).attempt event.kind := by
  intro event hevent
  rcases invocation.events_call with ⟨hevents, -⟩ | ⟨reason, hevents, hresult⟩
  · rw [hevents] at hevent
    exact absurd hevent List.not_mem_nil
  · rw [hevents] at hevent
    rw [List.mem_singleton.1 hevent]
    show 0 = Effort.attempt _ invocation.call.result? .transmitFailed
    rw [hresult]
    rfl

variable [RecordStore σ] {timeline : Timeline σ}

theorem Counted.step (h : timeline.Counted) (next : Course × Chance) :
    (timeline.step next).Counted := by
  refine ⟨h.tallied.run [next], ?_⟩
  cases hrequest : timeline.call.request? with
  | none =>
    rw [step_of_ended hrequest]
    exact h.counts
  | some request =>
    have hwaits : timeline.call.request?.isSome := by rw [hrequest]; rfl
    cases hdone : timeline.now.budget.isDone timeline.now.nowMs with
    | true =>
      rw [step_of_done hrequest hdone, Call.resume_ended hwaits]
      trivial
    | false =>
      rw [step_of_going hrequest hdone]
      simp only [Call.rounds_resume, startedUpdates_append]
      exact (Call.follows_resume hwaits _ _).counts hrequest h.counts

/-- The events that a request adds name their attempts. -/
theorem Counted.exists_added (h : timeline.Counted) (next : Course × Chance) :
    ∃ added, (timeline.step next).call.events = timeline.call.events ++ added ∧
      ∀ event ∈ added, event.attempt = (timeline.step next).attempt event.kind := by
  cases hrequest : timeline.call.request? with
  | none =>
    rw [step_of_ended hrequest]
    exact ⟨[], (List.append_nil _).symm, fun _ hevent => absurd hevent List.not_mem_nil⟩
  | some request =>
    obtain ⟨hwithheld, hwrites⟩ := h.tallied.counted_of_request hrequest
    cases hdone : timeline.now.budget.isDone timeline.now.nowMs with
    | true =>
      -- The write that was due, if it is one, is now withheld.
      rw [step_of_done hrequest hdone]
      exact Call.attempt_of_added hrequest h.counts hwrites fun hanswer => absurd rfl hanswer
    | false =>
      rw [step_of_going hrequest hdone]
      refine Call.attempt_of_added hrequest h.counts ?_ fun _ => ⟨?_, startedUpdates_append _ _⟩
      · simp only [effort, hwithheld, startedWrites_append]
        exact hwrites
      · simp only [effort, hwithheld]
        rfl

/-- The events that a list of courses adds, each with its moment. -/
def notices (timeline : Timeline σ) : List (Course × Chance) → List (Notice σ)
  | [] => []
  | next :: courses =>
    let moment := timeline.step next
    (moment.call.events.drop timeline.call.events.length).map (⟨·, moment⟩) ++
      moment.notices courses

/-- All events of a call, those that it began with included. -/
def trail (timeline : Timeline σ) (courses : List (Course × Chance)) : List (Notice σ) :=
  timeline.call.events.map (⟨·, timeline⟩) ++ timeline.notices courses

theorem map_event_trail (timeline : Timeline σ) (courses : List (Course × Chance)) :
    (timeline.trail courses).map Notice.event =
      timeline.call.events ++ (timeline.notices courses).map Notice.event := by
  rw [trail, List.map_append, List.map_map]
  exact congrArg (· ++ _) (List.map_id _)

/-- The events of a run are those that it began with and those that it added. -/
theorem Counted.events_run (h : timeline.Counted) (courses : List (Course × Chance)) :
    (timeline.run courses).call.events =
      timeline.call.events ++ (timeline.notices courses).map Notice.event := by
  induction courses generalizing timeline with
  | nil => exact (List.append_nil _).symm
  | cons next courses ih =>
    obtain ⟨added, hevents, -⟩ := h.exists_added next
    show ((timeline.step next).run courses).call.events = _
    rw [ih (h.step next), notices, List.map_append, List.map_map, ← List.append_assoc, hevents,
      List.drop_left]
    exact congrArg (_ ++ · ++ _) (List.map_id _).symm

/-- Every event that a run adds names its attempt at some moment of the run. -/
theorem Counted.attempt_of_mem_notices (h : timeline.Counted) {courses : List (Course × Chance)}
    {notice : Notice σ} (hnotice : notice ∈ timeline.notices courses) :
    (∃ earlier, earlier <+: courses ∧ notice.moment = timeline.run earlier) ∧
      notice.event.attempt = notice.moment.attempt notice.event.kind := by
  induction courses generalizing timeline with
  | nil => cases hnotice
  | cons next courses ih =>
    rcases List.mem_append.1 hnotice with hnow | hlater
    · obtain ⟨added, hevents, hattempt⟩ := h.exists_added next
      rw [hevents, List.drop_left] at hnow
      obtain ⟨event, hevent, rfl⟩ := List.mem_map.1 hnow
      exact ⟨⟨[next], ⟨courses, rfl⟩, rfl⟩, hattempt event hevent⟩
    · obtain ⟨⟨earlier, hprefix, hmoment⟩, hattempt⟩ := ih (h.step next) hlater
      exact ⟨⟨next :: earlier, List.cons_prefix_cons.2 ⟨rfl, hprefix⟩, hmoment⟩, hattempt⟩

/-- Whatever the store does and whenever the context finishes: every event of a call names the
attempt of its kind at its moment. So the event of a creation names the number of writes that the
call had started, and the event of an update or a conflict does so too if they were all updates. -/
theorem attempts_named (invocation : Invocation) (now : Situation σ)
    (courses : List (Course × Chance)) :
    let timeline := start invocation.call now
    let trail := timeline.trail courses
    trail.map Notice.event = (timeline.run courses).call.events ∧
      ∀ notice ∈ trail,
        (∃ earlier, earlier <+: courses ∧ notice.moment = timeline.run earlier) ∧
          notice.event.attempt = notice.moment.attempt notice.event.kind ∧
          (notice.event.kind = .recordCreated ∨ notice.event.kind.isOfUpdate ∧
              startedUpdates notice.moment.errands = startedWrites notice.moment.errands →
            notice.event.attempt = startedWrites notice.moment.errands) := by
  intro timeline trail
  have hcounted : timeline.Counted := counted_start invocation now
  constructor
  · rw [map_event_trail, hcounted.events_run]
  · intro notice hnotice
    have hnamed : (∃ earlier, earlier <+: courses ∧ notice.moment = timeline.run earlier) ∧
        notice.event.attempt = notice.moment.attempt notice.event.kind := by
      rcases List.mem_append.1 hnotice with hfirst | hlater
      · obtain ⟨event, hevent, rfl⟩ := List.mem_map.1 hfirst
        exact ⟨⟨[], List.nil_prefix, rfl⟩, attempt_of_start event hevent⟩
      · exact hcounted.attempt_of_mem_notices hlater
    obtain ⟨hmoment, hattempt⟩ := hnamed
    refine ⟨hmoment, hattempt, fun hkind => hattempt.trans ?_⟩
    exact notice.moment.effort.attempt_eq_writes hkind

/-- A release that is tagged at the second attempt: its events name the first and the second of its
writes. -/
theorem attempts_named_retried :
    let stored : Record :=
      (PartialResult.single ⟨"4f1c"⟩ ⟨2024, 17⟩ ⟨"10-200"⟩ .empty ⟨""⟩).toRecord
    let invocation : Invocation := .tag ⟨{}, "Hash-index"⟩ ⟨"4f1c"⟩ "v1"
    let now : Situation MemoryStore := ⟨.empty, 0, {}⟩
    let replies : List (Except StoreError (List Record)) :=
      [.ok [stored], .error (.conflict ""), .ok [], .ok [stored], .ok []]
    let courses := replies.map fun reply => (Course.mk [.effect] reply false, Chance.mk ⟨"x"⟩ 0)
    let trail := (start invocation.call now).trail courses
    trail.map (·.event.kind) = [.updateConflict, .releaseTagged] ∧
      trail.map (·.event.attempt) = [1, 2] ∧
      ∀ notice ∈ trail, notice.event.attempt = startedWrites notice.moment.errands := by
  intro stored invocation now replies courses trail
  have hupdates : ∀ notice ∈ trail, notice.event.kind = .recordCreated ∨
      notice.event.kind.isOfUpdate ∧
        startedUpdates notice.moment.errands = startedWrites notice.moment.errands := by
    decide +kernel
  refine ⟨by decide +kernel, by decide +kernel, fun notice hnotice => ?_⟩
  obtain ⟨-, -, hwrites⟩ := (attempts_named invocation now courses).2 notice hnotice
  exact hwrites (hupdates notice hnotice)

/-- A send that is beaten to the creation of the record, and then updates it. It has started one
write when its first event names none, and two when the next one names the first. -/
theorem attempts_misnamed :
    let result (setting : Setting) : PartialResult :=
      .single ⟨"4f1c"⟩ ⟨2024, 17⟩ setting .empty ⟨""⟩
    let invocation : Invocation := .send ⟨{}, "Hash-index"⟩ (result ⟨"10-200"⟩)
    let now : Situation MemoryStore := ⟨.empty, 0, {}⟩
    let replies : List (Except StoreError (List Record)) :=
      [.ok [], .error (.conflict ""), .ok [(result ⟨"20-200"⟩).toRecord], .ok []]
    let courses := replies.map fun reply => (Course.mk [.effect] reply false, Chance.mk ⟨"x"⟩ 0)
    let trail := (start invocation.call now).trail courses
    trail.map (·.event.kind) = [.updateConflict, .recordUpdated] ∧
      trail.map (·.event.attempt) = [0, 1] ∧
      trail.map (startedWrites ·.moment.errands) = [1, 2] := by
  decide +kernel

end Timeline

end RevisionLedger
