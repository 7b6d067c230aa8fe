import RevisionLedger.Store.Error

/-!
# Outcomes of a call

A call that records a result or tags a release ends in one of two outcomes or in one of five
errors.
-/

namespace RevisionLedger

/-- How a call ends that does not fail. -/
inductive Outcome
  /-- The call wrote a record, and created it if no one had. -/
  | sent (identifier : RevisionHash) (created : Bool) (attempts : Nat)
  /-- Another writer had recorded the setting. -/
  | skipped (identifier : RevisionHash) (setting : Setting) (attempts : Nat)
deriving DecidableEq, Repr

namespace Outcome

def identifier : Outcome → RevisionHash
  | .sent identifier _ _ | .skipped identifier _ _ => identifier

def isSent : Outcome → Bool
  | .sent _ _ _ => true
  | .skipped _ _ _ => false

def isSkipped (outcome : Outcome) : Bool := !outcome.isSent

/-- The number of conditional writes that the call counted, of the size that `Call.writes` has. -/
def attempts : Outcome → Nat
  | .sent _ _ attempts | .skipped _ _ attempts => attempts

end Outcome

/-- Why the input of a call is refused. -/
inductive Rejection
  | emptyHash
  | settingCount (found : Nat)
  | emptyLabel
deriving DecidableEq, Repr

def Rejection.message : Rejection → String
  | .emptyHash => "revision hash is empty"
  | .settingCount found => s!"expected exactly one test setting, found {found}"
  | .emptyLabel => "release label is empty"

/-- How a call fails. -/
inductive TransmitError
  /-- The input is refused before any store call. -/
  | invalid (revision : RevisionHash) (reason : Rejection)
  /-- There is no record to update. -/
  | notFound (revision : RevisionHash)
  /-- The store cannot be used. -/
  | store (revision : RevisionHash) (source : StoreError)
  /-- Every update lost its race; the last conflict is kept. -/
  | maxAttemptsExceeded (revision : RevisionHash) (attempts : Nat) (lastError : Option StoreError)
  /-- The caller's context finished first. -/
  | cancelled (revision : RevisionHash) (attempts : Nat)
deriving DecidableEq, Repr

namespace TransmitError

def label : TransmitError → String
  | .invalid _ _ => "invalid"
  | .notFound _ => "not_found"
  | .store _ _ => "store_unavailable"
  | .maxAttemptsExceeded _ _ _ => "max_attempts_exceeded"
  | .cancelled _ _ => "cancelled"

def revision : TransmitError → RevisionHash
  | .invalid revision _ | .notFound revision | .store revision _
  | .maxAttemptsExceeded revision _ _ | .cancelled revision _ => revision

/-- The number of attempts that an error reports; most report none. -/
def attempts : TransmitError → Nat
  | .invalid _ _ | .notFound _ | .store _ _ => 0
  | .maxAttemptsExceeded _ attempts _ | .cancelled _ attempts => attempts

def message : TransmitError → String
  | .invalid revision reason =>
    let reason := reason.message
    s!"invalid partial result for revision {revision.text}: {reason}"
  | .notFound revision => s!"no record found for revision {revision.text}"
  | .store revision source =>
    let source := source.message
    s!"record store unavailable for revision {revision.text}: {source}"
  | .maxAttemptsExceeded revision attempts _ =>
    s!"max attempts exceeded for revision {revision.text} after {attempts} attempts"
  | .cancelled revision attempts =>
    s!"transmit cancelled for revision {revision.text} after {attempts} attempts"

end TransmitError

end RevisionLedger
