import RevisionLedger.Json.Text
import RevisionLedger.Transmit.Outcome

/-!
# Audit events

A call leaves an event for every race it loses and one for the way it ends. An event is written as
one line of JSON.
-/

namespace RevisionLedger

/-- What an event reports. -/
inductive AuditKind
  | recordCreated
  | recordUpdated
  | releaseTagged
  | recordSkipped
  | updateConflict
  | transmitFailed
deriving DecidableEq, Repr

def AuditKind.label : AuditKind → String
  | .recordCreated => "record_created"
  | .recordUpdated => "record_updated"
  | .releaseTagged => "release_tagged"
  | .recordSkipped => "record_skipped"
  | .updateConflict => "update_conflict"
  | .transmitFailed => "transmit_failed"

structure AuditEvent where
  kind : AuditKind
  revision : RevisionHash
  setting : Option Setting
  /-- The attempt that the event is about. -/
  attempt : Nat
  /-- The pause before the next attempt, in milliseconds. -/
  delayMs : Option Nat
  errorKind : Option String
  message : Option String
deriving DecidableEq, Repr

namespace AuditEvent

/-- The line of an event that is written at a given time. -/
def json (timestampMs : Nat) (event : AuditEvent) : String :=
  Json.compact.object
    [("event", Json.quoted event.kind.label),
     ("timestamp_ms", toString timestampMs),
     ("revision_hash", Json.quoted event.revision.text),
     ("test_setting", Json.optional (Json.quoted ·.text) event.setting),
     ("attempt", toString event.attempt),
     ("delay_ms", Json.optional toString event.delayMs),
     ("error_kind", Json.optional Json.quoted event.errorKind),
     ("message", Json.optional Json.quoted event.message)]

/-- The event of a race that was lost to a conflict. -/
def conflict (revision : RevisionHash) (setting : Option Setting) (attempt : Nat)
    (delayMs : Option Nat) (error : StoreError) : AuditEvent where
  kind := .updateConflict
  revision
  setting
  attempt
  delayMs
  errorKind := some error.kind.label
  message := some error.message

/-- The event of a call that did not fail. -/
def success (kind : AuditKind) (revision : RevisionHash) (setting : Option Setting)
    (attempt : Nat) : AuditEvent :=
  ⟨kind, revision, setting, attempt, none, none, none⟩

/-- The event of a call that failed. -/
def failure (error : TransmitError) : AuditEvent where
  kind := .transmitFailed
  revision := error.revision
  setting := none
  attempt := error.attempts
  delayMs := none
  errorKind := some error.label
  message := some error.message

end AuditEvent

end RevisionLedger
