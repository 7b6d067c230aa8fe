import RevisionLedger.Record.Merge
import RevisionLedger.Text.Blank
import RevisionLedger.Transmit.Audit
import RevisionLedger.Transmit.Policy

/-!
# Calls

A call records one partial result or tags one release. It is a state machine: in each phase but the
last it asks for one thing, and the answer takes it to the next phase.

A send first looks for the record of its revision and creates it if there is none. Where there is
one, or another writer was faster, it goes through rounds of reading the record and updating it
under the condition that its token has not moved. A conflict ends the round; after a pause the next
one starts from a fresh read. Tagging a release makes only the rounds.

The main statement is `rank_resume_lt`: every answer brings a call nearer to its end.
-/

namespace RevisionLedger

/-! ## 1. Requests and answers -/

/-- What a call asks of the world around it. -/
inductive Request
  /-- The records with a hash, by the index of that name. -/
  | query (index : String) (hash : RevisionHash)
  | put (record : Record)
  | update (key : RecordKey) (delta : Delta) (expected : VersionToken)
  | pause (durationMs : Nat)
deriving DecidableEq

/-- What comes back. -/
inductive Answer
  /-- The caller's context finished first. -/
  | ended
  /-- The store refused. -/
  | failed (error : StoreError)
  /-- The request was done; only a query brings records. -/
  | done (records : List Record)
deriving DecidableEq

/-- What a step may use of randomness: the token of a new version, and a word that sets a pause. -/
structure Chance where
  token : VersionToken
  draw : UInt64

/-! ## 2. The state of a call -/

/-- What a call is to write. -/
inductive Intent
  /-- One setting of a partial result. -/
  | merge (incoming : PartialResult) (setting : Setting)
  | release (label : String)
deriving DecidableEq

namespace Intent

/-- The setting that a call is about. -/
def setting? : Intent → Option Setting
  | .merge _ setting => some setting
  | .release _ => none

/-- What an update of a record would write, or the setting that leaves nothing to write. -/
def delta (intent : Intent) (current : Record) (token : VersionToken) : Except Setting Delta :=
  match intent with
  | .merge incoming setting =>
    match Merge.of incoming current setting with
    | .mergeable delta => .ok { delta with versionToken := token }
    | .alreadyRecorded | .nothingToMerge => .error setting
  | .release label =>
    .ok { Delta.ofToken token with isRelease := some true, releaseLabel := some label }

/-- The kind of event of an update that succeeds. -/
def updatedKind : Intent → AuditKind
  | .merge _ _ => .recordUpdated
  | .release _ => .releaseTagged

end Intent

/-- Where a call stands. A round knows how many rounds may still follow it. -/
inductive Phase
  /-- It looks for the record, and will create the one given if there is none. -/
  | opening (record : Record)
  | creating (record : Record)
  | reading (later : Nat)
  /-- It updates the record that it has read. -/
  | writing (later : Nat) (current : Record) (delta : Delta)
  /-- It pauses before a round. -/
  | pausing (later : Nat) (delayMs : Nat)
  | finished (result : Except TransmitError Outcome)

/-- What all calls of one transmitter share. -/
structure Transmitter where
  policy : RetryPolicy
  /-- The name of the index by which records are looked up. -/
  hashIndex : String := "Hash-index"
deriving DecidableEq

/-- A call and what it has done so far. -/
structure Call where
  transmitter : Transmitter
  revision : RevisionHash
  intent : Intent
  /-- The number of conditional writes counted so far. A word of 32 bits holds it unless the policy
  allows 2 ^ 32 - 1 attempts, with which a send could count one write too many for the word. -/
  writes : Nat
  /-- The last conflict of an update. -/
  lastError : Option StoreError
  /-- The events so far, the oldest first. -/
  events : List AuditEvent
  phase : Phase

namespace Call

def result? (call : Call) : Option (Except TransmitError Outcome) :=
  match call.phase with
  | .finished result => some result
  | _ => none

/-- What a call waits for; nothing once it has ended. -/
def request? (call : Call) : Option Request :=
  match call.phase with
  | .opening _ | .reading _ => some (.query call.transmitter.hashIndex call.revision)
  | .creating record => some (.put record)
  | .writing _ current delta => some (.update current.key delta current.versionToken)
  | .pausing _ delayMs => some (.pause delayMs)
  | .finished _ => none

/-- The number of rounds that a call may make. -/
def rounds (call : Call) : Nat := call.transmitter.policy.rounds

/-- The number of the round after which so many may follow; the first one is number one. -/
def attempt (call : Call) (later : Nat) : Nat := call.rounds - later

/-- The number of pauses that were drawn before the current round. -/
def drawn (call : Call) : Nat :=
  match call.phase with
  | .writing later _ _ => call.attempt later - 1
  | _ => 0

/-! ## 3. Steps -/

def emit (call : Call) (event : AuditEvent) : Call := { call with events := call.events ++ [event] }

/-- Ends a call without an error. -/
def finish (call : Call) (outcome : Outcome) : Call :=
  { call with phase := .finished (.ok outcome) }

/-- Ends a call with an error, of which it leaves an event. -/
def fail (call : Call) (error : TransmitError) : Call :=
  { call.emit (.failure error) with phase := .finished (.error error) }

/-- Ends a call whose context has finished. -/
def cancel (call : Call) : Call := call.fail (.cancelled call.revision call.writes)

/-- Ends a call whose store cannot be used. -/
def failStore (call : Call) (error : StoreError) : Call := call.fail (.store call.revision error)

/-- The error of a look-up that found several records. -/
def ambiguous (call : Call) (records : List Record) : StoreError :=
  .invalid s!"{records.length} records share hash {call.revision.text}"

/-- After the look-up that may lead to a new record. -/
def resumeOpening (call : Call) (record : Record) : Answer → Call
  | .ended => call.cancel
  | .failed error => call.failStore error
  | .done [] => { call with writes := call.writes + 1, phase := .creating record }
  | .done [_] => { call with phase := .reading (call.rounds - 1) }
  | .done records => call.failStore (call.ambiguous records)

/-- After the attempt to create the record. -/
def resumeCreating (call : Call) : Answer → Call
  | .ended => call.cancel
  | .failed error =>
    if error.kind = .conflict then
      { call.emit (.conflict call.revision call.intent.setting? 0 none error) with
        phase := .reading (call.rounds - 1) }
    else call.failStore error
  | .done _ =>
    (call.emit (.success .recordCreated call.revision call.intent.setting? call.writes)).finish
      (.sent call.revision true call.writes)

/-- After the look-up of a round. -/
def resumeReading (call : Call) (later : Nat) (token : VersionToken) : Answer → Call
  | .ended => call.cancel
  | .failed error => call.failStore error
  | .done [] => call.fail (.notFound call.revision)
  | .done [current] =>
    match call.intent.delta current token with
    | .error setting =>
      (call.emit (.success .recordSkipped call.revision (some setting) (call.attempt later))).finish
        (.skipped call.revision setting call.writes)
    | .ok delta => { call with writes := call.writes + 1, phase := .writing later current delta }
  | .done records => call.failStore (call.ambiguous records)

/-- After a conflict of an update. If it was the last one that the policy allows the call ends. -/
def resumeConflict (call : Call) (later : Nat) (draw : UInt64) (error : StoreError) : Call :=
  let lost (delayMs : Option Nat) : Call :=
    let event : AuditEvent :=
      .conflict call.revision call.intent.setting? (call.attempt later) delayMs error
    { call.emit event with lastError := some error }
  match later with
  | 0 => (lost none).fail (.maxAttemptsExceeded call.revision call.rounds (some error))
  | later + 1 =>
    let delayMs := call.transmitter.policy.delayMs draw
    { lost (some delayMs) with phase := .pausing later delayMs }

/-- After the update of a round. -/
def resumeWriting (call : Call) (later : Nat) (draw : UInt64) : Answer → Call
  | .ended => call.cancel
  | .failed error =>
    match error.kind with
    | .conflict => call.resumeConflict later draw error
    | .notFound => call.fail (.notFound call.revision)
    | .unavailable => call.failStore error
  | .done _ =>
    (call.emit (.success call.intent.updatedKind call.revision call.intent.setting?
      (call.attempt later))).finish (.sent call.revision false call.writes)

/-- After a pause. -/
def resumePausing (call : Call) (later : Nat) : Answer → Call
  | .ended => call.cancel
  | .failed _ | .done _ => { call with phase := .reading later }

/-- The call after an answer to its request. -/
def resume (call : Call) (answer : Answer) (chance : Chance) : Call :=
  match call.phase with
  | .opening record => call.resumeOpening record answer
  | .creating _ => call.resumeCreating answer
  | .reading later => call.resumeReading later chance.token answer
  | .writing later _ _ => call.resumeWriting later chance.draw answer
  | .pausing later _ => call.resumePausing later answer
  | .finished _ => call

/-! ## 4. Beginnings -/

/-- A call that has done nothing yet. -/
def start (transmitter : Transmitter) (revision : RevisionHash) (intent : Intent) (phase : Phase) :
    Call :=
  ⟨transmitter, revision, intent, 0, none, [], phase⟩

/-- The call that records a partial result, which must name a revision and hold one setting. -/
def send (transmitter : Transmitter) (partialResult : PartialResult) : Call :=
  let revision := partialResult.revisionHash
  let setting := partialResult.singleSetting?
  let call := start transmitter revision (.merge partialResult (setting.getD default))
    (.opening partialResult.toRecord)
  if Text.isBlankText revision.text then call.fail (.invalid revision .emptyHash)
  else if setting.isNone then
    call.fail (.invalid revision (.settingCount partialResult.results.size))
  else call

/-- The call that marks the record of a revision as a release, under the label without the blanks
around it. -/
def tag (transmitter : Transmitter) (revision : RevisionHash) (label : String) : Call :=
  let label := Text.trim label
  let call := start transmitter revision (.release label)
    (.reading (transmitter.policy.rounds - 1))
  if Text.isBlankText revision.text then call.fail (.invalid revision .emptyHash)
  else if label.isEmpty then call.fail (.invalid revision .emptyLabel)
  else call

/-! ## 5. Calls end -/

/-- An upper bound on the answers that a call still takes. -/
def rank (call : Call) : Nat :=
  match call.phase with
  | .opening _ => 3 * call.rounds + 2
  | .creating _ => 3 * call.rounds + 1
  | .reading later => 3 * later + 3
  | .writing later _ _ => 3 * later + 2
  | .pausing later _ => 3 * later + 4
  | .finished _ => 0

theorem rounds_pos (call : Call) : 0 < call.rounds := Nat.le_max_left 1 _

@[simp] theorem rank_fail (call : Call) (error : TransmitError) : (call.fail error).rank = 0 := rfl

@[simp] theorem rank_finish (call : Call) (outcome : Outcome) : (call.finish outcome).rank = 0 :=
  rfl

@[simp] theorem rank_cancel (call : Call) : call.cancel.rank = 0 := rfl

@[simp] theorem rank_failStore (call : Call) (error : StoreError) :
    (call.failStore error).rank = 0 :=
  rfl

theorem rank_resumeOpening_lt (call : Call) (record : Record) (answer : Answer) :
    (call.resumeOpening record answer).rank < 3 * call.rounds + 2 := by
  have := call.rounds_pos
  unfold resumeOpening
  split
  · simp
  · simp
  · simp [rank, rounds]
  · simp only [rank, rounds] at *
    omega
  · simp

theorem rank_resumeCreating_lt (call : Call) (answer : Answer) :
    (call.resumeCreating answer).rank < 3 * call.rounds + 1 := by
  have := call.rounds_pos
  unfold resumeCreating
  split
  · simp
  · split
    · simp only [rank, rounds] at *
      omega
    · simp
  · simp

theorem rank_resumeReading_lt (call : Call) (later : Nat) (token : VersionToken)
    (answer : Answer) : (call.resumeReading later token answer).rank < 3 * later + 3 := by
  unfold resumeReading
  split
  · simp
  · simp
  · simp
  · split
    · simp
    · simp [rank]
  · simp

theorem rank_resumeWriting_lt (call : Call) (later : Nat) (draw : UInt64) (answer : Answer) :
    (call.resumeWriting later draw answer).rank < 3 * later + 2 := by
  unfold resumeWriting
  split
  · simp
  · split
    · unfold resumeConflict
      split
      · simp
      · simp only [rank]
        omega
    · simp
    · simp
  · simp

theorem rank_resumePausing_lt (call : Call) (later : Nat) (answer : Answer) :
    (call.resumePausing later answer).rank < 3 * later + 4 := by
  unfold resumePausing
  split
  · simp
  all_goals simp [rank]

/-- Every answer brings a call that waits for one nearer to its end. -/
theorem rank_resume_lt (call : Call) (answer : Answer) (chance : Chance)
    (h : call.request?.isSome) : (call.resume answer chance).rank < call.rank := by
  unfold resume
  split <;> rename_i hphase
  · rw [show call.rank = _ by rw [rank, hphase]]
    exact rank_resumeOpening_lt ..
  · rw [show call.rank = _ by rw [rank, hphase]]
    exact rank_resumeCreating_lt ..
  · rw [show call.rank = _ by rw [rank, hphase]]
    exact rank_resumeReading_lt ..
  · rw [show call.rank = _ by rw [rank, hphase]]
    exact rank_resumeWriting_lt ..
  · rw [show call.rank = _ by rw [rank, hphase]]
    exact rank_resumePausing_lt ..
  · simp [request?, hphase] at h

end Call

end RevisionLedger
