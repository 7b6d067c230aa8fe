import RevisionLedger.Store.Basic
import RevisionLedger.Transmit.Budget
import RevisionLedger.Transmit.Call

/-!
# Rehearsals

A rehearsal plays a call against a store in virtual time. Only waits take time: pauses between
attempts, and what a script adds to the store calls. A script may delay a store call, let other
writers in before it, replace its answer, report an error for it whether or not it took effect, and
cancel the caller.

A wait that the caller's budget cuts short drops the store call where it stands. What the call has
done to the store by then stays done.
-/

namespace RevisionLedger

/-! ## 1. Scripts and logs -/

/-- What happens around one store call, in the order of the fields. -/
structure Incident where
  cancels : Bool := false
  delayMs : Nat := 0
  /-- Other writers come first; their failures do not matter. -/
  race : List DirectWrite := []
  /-- The error that the caller gets. -/
  error : Option StoreError := none
  /-- Whether the store is called although the caller gets an error. -/
  applied : Bool := false
  /-- What a query finds instead of what is stored. -/
  records : Option (List Record) := none
  /-- A delay of the answer. -/
  afterMs : Nat := 0

/-- The incidents of the coming calls of each kind. -/
structure Script where
  queries : List Incident := []
  puts : List Incident := []
  updates : List Incident := []

/-- The incident of the next call like a request, and the script after it. -/
def Script.take (script : Script) : Request → Incident × Script
  | .query _ _ => (script.queries.headD {}, { script with queries := script.queries.tail })
  | .put _ => (script.puts.headD {}, { script with puts := script.puts.tail })
  | .update _ _ _ => (script.updates.headD {}, { script with updates := script.updates.tail })
  | .pause _ => ({}, script)

/-- A store call as an observer sees it: what was asked, and the answer unless the call was
dropped. -/
structure LoggedCall where
  request : Request
  answer : Option Answer

/-! ## 2. The scene -/

/-- Everything around a call. -/
structure Scene (σ : Type) where
  store : σ
  nowMs : Nat := 0
  /-- The keys that a write has named so far. -/
  named : SortedMap RecordKey Unit := .empty
  /-- The number of tokens handed out so far. -/
  tokens : Nat := 0
  budget : Budget := {}
  script : Script := {}
  /-- The finished store calls of the current call, the last one first. -/
  log : List LoggedCall := []

/-- A part of a rehearsal. It has no value if it is cut short; the scene it leaves is kept. -/
abbrev Play (σ α : Type) := OptionT (StateM (Scene σ)) α

namespace Scene

variable {σ : Type}

/-- Notes that a write names a key. -/
def name (key : RecordKey) (scene : Scene σ) : Scene σ :=
  { scene with named := scene.named.insert key () }

/-- Makes a write straight on the store, and tells why it was refused. -/
def write [RecordStore σ] (write : DirectWrite) (scene : Scene σ) : Scene σ × Option StoreError :=
  let scene := scene.name write.key
  match write.perform scene.store with
  | .ok store => ({ scene with store }, none)
  | .error error => (scene, some error)

/-- Makes a request of the store, at once. -/
def perform [RecordStore σ] (request : Request) (scene : Scene σ) : Scene σ × Answer :=
  let written (result : Except StoreError σ) : Scene σ × Answer :=
    match result with
    | .ok store => ({ scene with store }, .done [])
    | .error error => (scene, .failed error)
  match request with
  | .query _ hash =>
    match RecordStore.query scene.store hash with
    | .ok records => (scene, .done records)
    | .error error => (scene, .failed error)
  | .put record => written (RecordStore.put scene.store record)
  | .update key delta expected => written (RecordStore.update scene.store key delta expected)
  | .pause _ => (scene, .done [])

end Scene

namespace Play

variable {σ : Type}

/-- Waits, even if for no time at all. -/
def wait (durationMs : Nat) : Play σ Unit := fun scene =>
  let wakeMs := scene.nowMs + durationMs
  match scene.budget.interruption? scene.nowMs wakeMs with
  | some timeMs => (none, { scene with nowMs := timeMs })
  | none => (some (), { scene with nowMs := wakeMs })

/-- Sleeps; a sleep of no time is none. -/
def sleep (durationMs : Nat) : Play σ Unit :=
  if durationMs = 0 then pure () else wait durationMs

variable [RecordStore σ]

/-- Waits for the answer of a store that hands control back. -/
def settle : Play σ Unit := if RecordStore.suspends σ then wait 0 else pure ()

/-- Lets other writers in. -/
def race : List DirectWrite → Play σ Unit
  | [] => pure ()
  | write :: writes => do
    modify fun scene => (scene.write write).1
    settle
    race writes

def call (request : Request) : Play σ Answer := do
  let answer ← modifyGet fun scene => (scene.perform request).swap
  settle
  return answer

/-- Serves a store request with what the script has for it. -/
def serve (request : Request) (incident : Incident) : Play σ Answer := do
  if incident.cancels then
    modify fun scene => { scene with budget := { scene.budget with cancelled := true } }
  sleep incident.delayMs
  race incident.race
  match incident.error, incident.applied, incident.records with
  | some error, false, _ => return .failed error
  | some error, true, _ =>
    discard (call request)
    sleep incident.afterMs
    return .failed error
  | none, _, some records =>
    sleep incident.afterMs
    return .done records
  | none, _, none =>
    let answer ← call request
    sleep incident.afterMs
    return answer

end Play

/-! ## 3. Playing a call -/

namespace Scene

variable {σ : Type} [RecordStore σ]

/-- The key that a request writes under. -/
def writtenKey? : Request → Option RecordKey
  | .put record => some record.key
  | .update key _ _ => some key
  | .query _ _ | .pause _ => none

/-- Serves a store request and logs it. -/
def serve (request : Request) (scene : Scene σ) : Option Answer × Scene σ :=
  let (incident, script) := scene.script.take request
  let scene := (writtenKey? request).elim scene scene.name
  let (answer, scene) := Play.serve request incident { scene with script }
  (answer, { scene with log := ⟨request, answer⟩ :: scene.log })

/-- The answer to a request; nothing is started once the budget is used up. -/
def answer (request : Request) (scene : Scene σ) : Answer × Scene σ :=
  if scene.budget.isDone scene.nowMs then (.ended, scene)
  else
    let (answer, scene) := match request with
      | .pause durationMs =>
        let (slept, scene) := Play.sleep durationMs scene
        (slept.map fun () => Answer.done [], scene)
      | request => serve request scene
    (answer.getD .ended, scene)

/-- The seed of the tokens that a rehearsal hands out. -/
def tokenSeed : UInt64 := 0x1edce7

/-- What the next step of a call has of randomness. -/
def chance (call : Call) (scene : Scene σ) : Chance :=
  ⟨Entropy.token tokenSeed scene.tokens, call.transmitter.policy.draw tokenSeed call.drawn⟩

def play (call : Call) (scene : Scene σ) : Call × Scene σ :=
  match h : call.request? with
  | none => (call, scene)
  | some request =>
    let (answer, next) := scene.answer request
    have : (call.resume answer (scene.chance call)).rank < call.rank :=
      call.rank_resume_lt _ _ (by simp [h])
    play (call.resume answer (scene.chance call)) { next with tokens := next.tokens + 1 }
termination_by call.rank

/-- Plays a call under a budget and a script, and gives the store calls in order. -/
def rehearse (call : Call) (budget : Budget) (script : Script) (scene : Scene σ) :
    Call × List LoggedCall × Scene σ :=
  let (call, scene) := play call { scene with budget, script, log := [] }
  (call, scene.log.reverse, scene)

end Scene

end RevisionLedger
