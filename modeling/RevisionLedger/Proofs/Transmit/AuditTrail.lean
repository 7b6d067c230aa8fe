import Mathlib.Data.List.Forall2
import RevisionLedger.Proofs.Transmit.Conversation

/-!
# The audit trail

A call leaves one event for every conflict that it is told of, and one for its end, in that order.
There are many ways for a call to end, and `Call.events_resume` goes through all of them once: what
an answer adds to the events depends on the answer and on the phase that follows, not on the way
there. The rest is by induction on the conversation (`Invocation.audit_complete`).
-/

namespace RevisionLedger

/-! ## 1. What an event tells -/

/-- An exchange and what was said before it. -/
structure Moment where
  before : List Exchange
  exchange : Exchange

/-- The moments of a conversation that goes on from what was said before. -/
def moments (before : List Exchange) : List Exchange → List Moment
  | [] => []
  | exchange :: log => ⟨before, exchange⟩ :: moments (before ++ [exchange]) log

/-- The moments at which a write was refused with a conflict. -/
def races (log : List Exchange) : List Moment :=
  (moments [] log).filter fun moment => moment.exchange.conflict?.isSome

theorem moments_append (before log : List Exchange) (exchange : Exchange) :
    moments before (log ++ [exchange]) = moments before log ++ [⟨before ++ log, exchange⟩] := by
  induction log generalizing before with
  | nil =>
    rw [List.append_nil]
    rfl
  | cons first log ih =>
    show _ :: moments (before ++ [first]) (log ++ [exchange]) = _
    rw [ih, List.append_assoc]
    rfl

theorem races_append (log : List Exchange) (exchange : Exchange) :
    races (log ++ [exchange]) =
      races log ++ exchange.conflict?.toList.map fun _ => ⟨log, exchange⟩ := by
  unfold races
  rw [moments_append, List.filter_append]
  congr 1
  cases hconflict : exchange.conflict? <;> simp [hconflict]

/-- Whether a call is to tag a release. -/
def Intent.isTag : Intent → Bool
  | .merge _ _ => false
  | .release _ => true

namespace AuditEvent

/-- An event that tells of a conflict. A pause comes after an update that is not the last one that
the policy allows, of which there is at least one. -/
structure Reports (transmitter : Transmitter) (event : AuditEvent) (moment : Moment) : Prop where
  kind : event.kind = .updateConflict
  error : ∃ error, moment.exchange.conflict? = some error ∧
    event.errorKind = some error.kind.label ∧ event.message = some error.message
  delayed : event.delayMs.isSome ↔ moment.exchange.request.isUpdate ∧
    updates moment.before + 1 < max 1 transmitter.policy.maxAttempts.toNat
  bounded : ∀ delayMs, event.delayMs = some delayMs →
    delayMs ≤ transmitter.policy.thresholdMs.toNat

/-- An event that tells how a call ended. -/
structure Concludes (isTag : Bool) (event : AuditEvent) (result : Except TransmitError Outcome) :
    Prop where
  created : event.kind = .recordCreated ↔
    ∃ revision attempts, result = .ok (.sent revision true attempts)
  updated : event.kind = .recordUpdated ↔
    isTag = false ∧ ∃ revision attempts, result = .ok (.sent revision false attempts)
  tagged : event.kind = .releaseTagged ↔
    isTag = true ∧ ∃ revision created attempts, result = .ok (.sent revision created attempts)
  skipped : event.kind = .recordSkipped ↔
    ∃ revision setting attempts, result = .ok (.skipped revision setting attempts)
  failed : event.kind = .transmitFailed ↔ ∃ error, result = .error error
  error : ∀ error, result = .error error →
    event.errorKind = some error.label ∧ event.message = some error.message

theorem concludes_failure (isTag : Bool) (error : TransmitError) :
    (failure error).Concludes isTag (.error error) := by
  constructor <;> simp [failure]

end AuditEvent

/-! ## 2. What an answer adds -/

namespace Call

/-- The number of the round that a call is in; zero outside of rounds. -/
def round (call : Call) : Nat :=
  match call.phase with
  | .reading later | .writing later _ _ | .pausing later _ => call.attempt later
  | .opening _ | .creating _ | .finished _ => 0

/-- The pause after a race that is lost now. -/
def delay? (call : Call) (chance : Chance) : Option Nat :=
  match call.phase with
  | .writing (_ + 1) _ _ => some (call.transmitter.policy.delayMs chance.draw)
  | _ => none

/-- The event of a race that is lost now. -/
def raceEvent (call : Call) (chance : Chance) (error : StoreError) : AuditEvent :=
  .conflict call.revision call.intent.setting? call.round (call.delay? chance) error

/-- The event of an end that comes now. -/
def closingEvent (call : Call) : Except TransmitError Outcome → AuditEvent
  | .ok (.sent _ true _) =>
    .success .recordCreated call.revision call.intent.setting? call.writes
  | .ok (.sent _ false _) =>
    .success call.intent.updatedKind call.revision call.intent.setting? call.round
  | .ok (.skipped _ setting _) => .success .recordSkipped call.revision (some setting) call.round
  | .error error => .failure error

section Resume

variable {call : Call} {chance : Chance} {answer : Answer}

theorem events_resumeOpening (record : Record) : (call.resumeOpening record answer).events =
    call.events ++ (call.resumeOpening record answer).result?.toList.map call.closingEvent := by
  unfold resumeOpening
  split <;> simp [result?, fail, cancel, failStore, emit, closingEvent]

theorem events_resumeReading {later : Nat} (hphase : call.phase = .reading later)
    (token : VersionToken) : (call.resumeReading later token answer).events =
    call.events ++ (call.resumeReading later token answer).result?.toList.map call.closingEvent := by
  have hround : call.round = call.attempt later := by rw [round, hphase]
  unfold resumeReading
  split
  -- One record was found: it is updated, or has the setting already.
  case h_4 =>
    split <;> simp [result?, finish, emit, closingEvent, hround]
  all_goals simp [result?, fail, cancel, failStore, emit, closingEvent]

theorem events_resumePausing (later : Nat) : (call.resumePausing later answer).events =
    call.events ++ (call.resumePausing later answer).result?.toList.map call.closingEvent := by
  unfold resumePausing
  split <;> simp [result?, fail, cancel, emit, closingEvent]

theorem events_resumeCreating {record : Record} (hphase : call.phase = .creating record) :
    (call.resumeCreating answer).events = call.events ++
      ((Exchange.mk (.put record) answer chance).conflict?.toList.map (call.raceEvent chance) ++
        (call.resumeCreating answer).result?.toList.map call.closingEvent) := by
  have hround : call.round = 0 := by rw [round, hphase]
  have hdelay : call.delay? chance = none := by rw [delay?, hphase]
  unfold resumeCreating
  split
  · rfl
  · rw [Exchange.conflict?_of_write rfl]
    split <;>
      simp [result?, fail, failStore, emit, closingEvent, raceEvent, hround, hdelay]
  · rfl

theorem events_resumeWriting {later : Nat} {current : Record} {delta : Delta}
    (hphase : call.phase = .writing later current delta) {key : RecordKey}
    {expected : VersionToken} :
    (call.resumeWriting later chance.draw answer).events = call.events ++
      ((Exchange.mk (.update key delta expected) answer chance).conflict?.toList.map
          (call.raceEvent chance) ++
        (call.resumeWriting later chance.draw answer).result?.toList.map call.closingEvent) := by
  have hround : call.round = call.attempt later := by rw [round, hphase]
  unfold resumeWriting
  split
  · rfl
  · rw [Exchange.conflict?_of_write rfl]
    split <;> rename_i hkind
    · rw [if_pos hkind]
      -- The last race ends the call, every other is followed by a pause.
      cases later with
      | zero =>
        have hdelay : call.delay? chance = none := by rw [delay?, hphase]
        simp [resumeConflict, result?, fail, emit, closingEvent, raceEvent, hround, hdelay]
      | succ later =>
        have hdelay : call.delay? chance = some (call.transmitter.policy.delayMs chance.draw) := by
          rw [delay?, hphase]
        simp [resumeConflict, result?, emit, raceEvent, hround, hdelay]
    · simp [hkind, result?, fail, emit, closingEvent]
    · simp [hkind, result?, fail, failStore, emit, closingEvent]
  · simp [Exchange.conflict?, result?, finish, emit, closingEvent, hround]

/-- An answer adds an event if it is a conflict, and then an event if the call ends. -/
theorem events_resume {request : Request} (h : call.request? = some request) (answer : Answer)
    (chance : Chance) :
    (call.resume answer chance).events = call.events ++
      ((Exchange.mk request answer chance).conflict?.toList.map (call.raceEvent chance) ++
        (call.resume answer chance).result?.toList.map call.closingEvent) := by
  unfold request? at h
  unfold resume
  -- Only writes can be refused with a conflict.
  split at h <;> cases h <;> rename_i hphase <;> rw [hphase]
  · rw [Exchange.conflict?_of_read rfl]
    exact events_resumeOpening _
  · rw [Exchange.conflict?_of_read rfl]
    exact events_resumeReading hphase _
  · exact events_resumeCreating hphase
  · exact events_resumeWriting hphase
  · rw [Exchange.conflict?_of_read rfl]
    exact events_resumePausing _

theorem Sincere.isTag_of_created (h : call.Sincere) (hwaits : call.request?.isSome)
    {revision : RevisionHash} {attempts : Nat}
    (hphase : (call.resume answer chance).phase = .finished (.ok (.sent revision true attempts))) :
    call.intent.isTag = false := by
  have hfollows := follows_resume hwaits answer chance
  rw [hphase] at hfollows
  cases hfollows with
  | created hcreating =>
    have hcreates := h.creates (Or.inr hcreating)
    cases hintent : call.intent with
    | merge incoming setting => rfl
    | release label =>
      rw [hintent] at hcreates
      exact hcreates.elim

theorem concludes_closingEvent (hsincere : call.Sincere) (hwaits : call.request?.isSome)
    {result : Except TransmitError Outcome}
    (hphase : (call.resume answer chance).phase = .finished result) :
    (call.closingEvent result).Concludes call.intent.isTag result := by
  match result with
  | .error error => exact AuditEvent.concludes_failure _ error
  | .ok (.sent revision true attempts) =>
    have htag := hsincere.isTag_of_created hwaits hphase
    constructor <;> simp [closingEvent, AuditEvent.success, htag]
  | .ok (.sent revision false attempts) =>
    -- The intent tells an update from a tag.
    cases hintent : call.intent <;>
      constructor <;> simp [closingEvent, AuditEvent.success, hintent, Intent.updatedKind,
        Intent.isTag]
  | .ok (.skipped revision setting attempts) =>
    constructor <;> simp [closingEvent, AuditEvent.success]

theorem revision_closingEvent (hwaits : call.request?.isSome)
    {result : Except TransmitError Outcome}
    (hphase : (call.resume answer chance).phase = .finished result) :
    (call.closingEvent result).revision = call.revision := by
  match result with
  | .error error => exact revision_of_failed hwaits hphase
  | .ok (.sent _ true _) => rfl
  | .ok (.sent _ false _) => rfl
  | .ok (.skipped _ _ _) => rfl

theorem revision_events_resume (h : ∀ event ∈ call.events, event.revision = call.revision)
    {request : Request} (hrequest : call.request? = some request) :
    ∀ event ∈ (call.resume answer chance).events,
      event.revision = (call.resume answer chance).revision := by
  rw [revision_resume, events_resume hrequest]
  intro event hevent
  rcases List.mem_append.1 hevent with hold | hnew
  · exact h event hold
  · rcases List.mem_append.1 hnew with hrace | hclosing
    · obtain ⟨error, -, rfl⟩ := List.mem_map.1 hrace
      rfl
    · obtain ⟨result, hresult, rfl⟩ := List.mem_map.1 hclosing
      have hphase := phase_of_result? (Option.mem_toList.1 hresult)
      exact revision_closingEvent (by rw [hrequest]; rfl) hphase

theorem reports_raceEvent {log : List Exchange} {request : Request}
    (hrequest : call.request? = some request)
    (hcounts : call.phase.Counts call.rounds (updates log)) {error : StoreError}
    (hconflict : (Exchange.mk request answer chance).conflict? = some error) :
    (call.raceEvent chance error).Reports call.transmitter ⟨log, request, answer, chance⟩ := by
  constructor
  · rfl
  · exact ⟨error, hconflict, rfl, rfl⟩
  · -- The round is the last one exactly if no update may follow.
    show (call.delay? chance).isSome ↔ request.isUpdate ∧ updates log + 1 < call.rounds
    unfold request? at hrequest
    unfold delay?
    cases hphase : call.phase with
    | writing later current delta =>
      rw [hphase] at hrequest hcounts
      cases hrequest
      cases later <;> simp only [Phase.Counts] at hcounts <;> simp [Request.isUpdate] <;> omega
    | opening record | creating record | reading later | pausing later delayMs =>
      rw [hphase] at hrequest
      cases hrequest
      simp [Request.isUpdate]
    | finished result =>
      rw [hphase] at hrequest
      cases hrequest
  · intro delayMs hdelay
    have hsome : call.delay? chance = some delayMs := hdelay
    unfold delay? at hsome
    split at hsome <;> cases hsome
    exact call.transmitter.policy.delayMs_le chance.draw

end Resume

/-! ## 3. Whole conversations -/

/-- The events of a call, after a conversation, are those of its races and that of its end. -/
structure Audited (call : Call) (log : List Exchange) : Prop where
  sincere : call.Sincere
  counts : call.phase.Counts call.rounds (updates log)
  trail : ∃ lost closing, call.events = lost ++ closing ∧
    List.Forall₂ (AuditEvent.Reports call.transmitter) lost (races log) ∧
    List.Forall₂ (AuditEvent.Concludes call.intent.isTag) closing call.result?.toList
  revision : ∀ event ∈ call.events, event.revision = call.revision

theorem Audited.resume {call : Call} {log : List Exchange} {request : Request}
    (h : call.Audited log) (hrequest : call.request? = some request) (answer : Answer)
    (chance : Chance) :
    (call.resume answer chance).Audited (log ++ [⟨request, answer, chance⟩]) := by
  have hwaits : call.request?.isSome := by rw [hrequest]; rfl
  constructor
  · exact h.sincere.resume answer chance
  · exact counts_resume h.counts hrequest answer chance
  · obtain ⟨lost, closing, hbefore, hlost, hclosing⟩ := h.trail
    -- A call that waits has no closing event yet.
    rw [result?_of_waits hwaits, Option.toList_none, List.forall₂_nil_right_iff] at hclosing
    rw [hclosing, List.append_nil] at hbefore
    rw [transmitter_resume, intent_resume, races_append]
    refine ⟨_, _, by rw [events_resume hrequest, hbefore, ← List.append_assoc],
      List.rel_append hlost ?_, ?_⟩
    · rw [List.forall₂_map_left_iff, List.forall₂_map_right_iff, List.forall₂_same]
      intro error herror
      exact reports_raceEvent hrequest h.counts (Option.mem_toList.1 herror)
    · rw [List.forall₂_map_left_iff, List.forall₂_same]
      intro result hresult
      have hphase := phase_of_result? (Option.mem_toList.1 hresult)
      exact concludes_closingEvent h.sincere hwaits hphase
  · exact revision_events_resume h.revision hrequest

end Call

namespace Invocation

def isTag : Invocation → Bool
  | .send _ _ => false
  | .tag _ _ _ => true

def revision : Invocation → RevisionHash
  | .send _ partialResult => partialResult.revisionHash
  | .tag _ revision _ => revision

theorem isTag_call (invocation : Invocation) : invocation.call.intent.isTag = invocation.isTag := by
  cases invocation with
  | send transmitter partialResult =>
    exact congrArg Intent.isTag (Call.sameTask_send transmitter partialResult).2.2
  | tag transmitter revision label =>
    exact congrArg Intent.isTag (Call.sameTask_tag transmitter revision label).2.2

theorem revision_call (invocation : Invocation) :
    invocation.call.revision = invocation.revision := by
  cases invocation with
  | send transmitter partialResult => exact (Call.sameTask_send transmitter partialResult).2.1
  | tag transmitter revision label => exact (Call.sameTask_tag transmitter revision label).2.1

theorem events_call (invocation : Invocation) :
    (invocation.call.events = [] ∧ invocation.call.result? = none) ∨
      ∃ reason, invocation.call.events = [.failure (.invalid invocation.revision reason)] ∧
        invocation.call.result? = some (.error (.invalid invocation.revision reason)) := by
  cases invocation with
  | send transmitter partialResult =>
    dsimp only [call, Call.send]
    split
    · exact Or.inr ⟨_, rfl, rfl⟩
    · split
      · exact Or.inr ⟨_, rfl, rfl⟩
      · exact Or.inl ⟨rfl, rfl⟩
  | tag transmitter revision label =>
    dsimp only [call, Call.tag]
    split
    · exact Or.inr ⟨_, rfl, rfl⟩
    · split
      · exact Or.inr ⟨_, rfl, rfl⟩
      · exact Or.inl ⟨rfl, rfl⟩

theorem audited_call (invocation : Invocation) : invocation.call.Audited [] := by
  refine ⟨invocation.sincere_call, invocation.counts_call,
    ⟨[], invocation.call.events, rfl, .nil, ?_⟩, ?_⟩
  · rcases invocation.events_call with ⟨hevents, hresult⟩ | ⟨reason, hevents, hresult⟩
    · rw [hevents, hresult]
      exact .nil
    · rw [hevents, hresult]
      exact .cons (AuditEvent.concludes_failure _ _) .nil
  · rw [revision_call]
    rcases invocation.events_call with ⟨hevents, -⟩ | ⟨reason, hevents, -⟩
    · rw [hevents]
      exact fun event hevent => absurd hevent List.not_mem_nil
    · rw [hevents]
      intro event hevent
      rw [List.mem_singleton.1 hevent]
      rfl

/-- The audit trail is complete. Whatever the answers are, and whenever the context finishes, the
events of a call are one for each conflict, in order, and then one for the end of the call. -/
theorem audit_complete (invocation : Invocation) (heard : List (Answer × Chance)) :
    let call := invocation.call.hear heard
    (∃ lost closing, call.events = lost ++ closing ∧
      List.Forall₂ (AuditEvent.Reports invocation.call.transmitter) lost
        (races (invocation.call.exchanges heard)) ∧
      List.Forall₂ (AuditEvent.Concludes invocation.isTag) closing call.result?.toList) ∧
    (∀ event ∈ call.events, event.revision = invocation.revision) ∧
    (invocation.call.rank ≤ heard.length → call.result?.isSome) := by
  have htask := invocation.call.sameTask_hear heard
  have haudited : (invocation.call.hear heard).Audited ([] ++ invocation.call.exchanges heard) :=
    Call.hear_induction (fun h => h.resume) invocation.audited_call heard
  rw [List.nil_append] at haudited
  refine ⟨?_, ?_, Call.result?_hear⟩
  · rw [← htask.1, ← invocation.isTag_call, ← htask.2.2]
    exact haudited.trail
  · rw [← invocation.revision_call, ← htask.2.1]
    exact haudited.revision

/-- A send with two attempts that loses the race to create the record and, with a pause in between,
both races to update it. -/
theorem audit_complete_exhausted :
    let result (setting : Setting) : PartialResult :=
      .single ⟨"4f1c"⟩ ⟨2024, 17⟩ setting .empty ⟨""⟩
    let invocation : Invocation := .send ⟨{ maxAttempts := 2 }, "Hash-index"⟩ (result ⟨"10-200"⟩)
    let conflict : Answer := .failed (.conflict "")
    let found : Answer := .done [(result ⟨"20-200"⟩).toRecord]
    let answers := [.done [], conflict, found, conflict, .done [], found, conflict, conflict]
    let heard := answers.map fun answer => (answer, Chance.mk ⟨"x"⟩ 0)
    invocation.call.rank ≤ heard.length ∧ (invocation.call.hear heard).result?.isSome ∧
      ∃ lost closing, (invocation.call.hear heard).events = lost ++ closing ∧ lost.length = 3 ∧
        closing.length = 1 := by
  intro result invocation conflict found answers heard
  have hlong : invocation.call.rank ≤ heard.length := by decide
  obtain ⟨⟨lost, closing, hevents, hlost, hclosing⟩, -, hended⟩ := audit_complete invocation heard
  exact ⟨hlong, hended hlong, lost, closing, hevents, hlost.length_eq.trans (by decide),
    hclosing.length_eq.trans (by decide)⟩

end Invocation

end RevisionLedger
