import RevisionLedger.Bounds
import RevisionLedger.Store.Options
import RevisionLedger.Transmit.Call

/-!
# Configurations

Everything about a runner that can be set: how it transmits, how it summarises samples, which store
it keeps records in, where its audit events go, and the bounds on its metrics.
-/

namespace RevisionLedger

inductive StoreKind
  | memory
  | durable
deriving DecidableEq, Repr

def StoreKind.name : StoreKind → String
  | .memory => "memory"
  | .durable => "sqlite"

def StoreKind.choices : List (String × StoreKind) := [("memory", .memory), ("sqlite", .durable)]

/-- Which record store to keep records in. -/
structure StoreChoice where
  kind : StoreKind := .memory
  path : Option String := none
  busyTimeoutMs : UInt64 := 5000
  journalMode : JournalMode := .wal
  syncMode : SyncMode := .full
deriving DecidableEq, Repr

/-- Where audit events can go. -/
inductive AuditTarget
  | stderr
  | file
  | nowhere
deriving DecidableEq, Repr

def AuditTarget.name : AuditTarget → String
  | .stderr => "stderr"
  | .file => "file"
  | .nowhere => "none"

def AuditTarget.choices : List (String × AuditTarget) :=
  [("stderr", .stderr), ("file", .file), ("none", .nowhere)]

/-- Where audit events go. -/
structure AuditChoice where
  target : AuditTarget := .stderr
  path : Option String := none
deriving DecidableEq, Repr

structure Config where
  transmitter : Transmitter := { policy := {} }
  summarizer : Summarizer := {}
  store : StoreChoice := {}
  audit : AuditChoice := {}
  bounds : Bounds := default

end RevisionLedger
