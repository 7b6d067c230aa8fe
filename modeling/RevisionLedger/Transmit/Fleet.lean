import RevisionLedger.Store.Memory
import RevisionLedger.Transmit.Call

/-!
# Calls that run side by side

A fleet is a number of calls over one store. One step lets one call make its request and takes in
the answer at once; the steps of different calls may come in any order. `Fleet.follow` makes the
steps in an order that is given, `Fleet.complete` takes the calls in turn until all of them have
ended.
-/

namespace RevisionLedger

/-- What a caller asks for: that a partial result be recorded, or a release be tagged. -/
inductive Invocation
  | send (transmitter : Transmitter) (partialResult : PartialResult)
  | tag (transmitter : Transmitter) (revision : RevisionHash) (label : String)

/-- The call that an invocation begins. -/
def Invocation.call : Invocation → Call
  | .send transmitter partialResult => Call.send transmitter partialResult
  | .tag transmitter revision label => Call.tag transmitter revision label

/-- Where steps take their randomness from: what a step has, by its number and its call. -/
abbrev Source := Nat → Call → Chance

/-- Calls over one in-memory store. -/
structure Fleet where
  store : MemoryStore
  calls : List Call
  /-- The number of steps made so far. -/
  steps : Nat

namespace Fleet

/-- Invocations over a store, before their first step. -/
def start (store : MemoryStore) (invocations : List Invocation) : Fleet :=
  ⟨store, invocations.map Invocation.call, 0⟩

/-- Makes a request of the store. A pause is over at once. -/
def serve (store : MemoryStore) : Request → MemoryStore × Answer
  | .query _ hash => (store, .done (store.query hash))
  | .put record =>
    match store.put record with
    | .ok store => (store, .done [])
    | .error error => (store, .failed error)
  | .update key delta expected =>
    match store.update key delta expected with
    | .ok store => (store, .done [])
    | .error error => (store, .failed error)
  | .pause _ => (store, .done [])

/-- One step of one call. A call that has ended stays as it is. -/
def stepCall (store : MemoryStore) (chance : Chance) (call : Call) : MemoryStore × Call :=
  match call.request? with
  | none => (store, call)
  | some request =>
    let (store, answer) := serve store request
    (store, call.resume answer chance)

/-- One step of the call at an index. -/
def step (source : Source) (fleet : Fleet) (index : Nat) : Fleet :=
  match fleet.calls[index]? with
  | none => fleet
  | some call =>
    let (store, call) := stepCall fleet.store (source fleet.steps call) call
    ⟨store, fleet.calls.set index call, fleet.steps + 1⟩

/-- The steps of the calls at a list of indices, in that order. -/
def follow (source : Source) (turns : List Nat) (fleet : Fleet) : Fleet :=
  turns.foldl (step source) fleet

def isDone (fleet : Fleet) : Bool := fleet.calls.all fun call => call.request?.isNone

/-- Lets every call make a step, in order, until all have ended or a number of rounds is used up. -/
def run (source : Source) : Nat → Fleet → Fleet
  | 0, fleet => fleet
  | rounds + 1, fleet =>
    if fleet.isDone then fleet
    else run source rounds (fleet.follow source (List.range fleet.calls.length))

/-- The source of a seed. -/
def seeded (seed : UInt64) : Source := fun step call =>
  ⟨Entropy.token seed step, call.transmitter.policy.draw seed call.drawn⟩

/-- Takes turns until all calls have ended. No call takes more steps than its rank. -/
def complete (seed : UInt64) (fleet : Fleet) : Fleet :=
  run (seeded seed) ((fleet.calls.map Call.rank).foldl max 0) fleet

def results (fleet : Fleet) : List (Option (Except TransmitError Outcome)) :=
  fleet.calls.map Call.result?

end Fleet

end RevisionLedger
