import RevisionLedger.Bounds.Wire
import RevisionLedger.Config.Load
import RevisionLedger.Store.Edit
import RevisionLedger.Text.Padding
import RevisionLedger.Transmit.Context
import RevisionLedger.Transmit.Fleet
import RevisionLedger.Transmit.Rehearsal
import RevisionLedger.Proofs.Record.Growth
import RevisionLedger.Proofs.Store.Memory
import RevisionLedger.Proofs.Transmit.Answers
import RevisionLedger.Proofs.Transmit.Fencing
import RevisionLedger.Proofs.Transmit.Honesty
import RevisionLedger.Proofs.Transmit.Faults
import RevisionLedger.Proofs.Transmit.Fleet
import RevisionLedger.Proofs.Transmit.Contention
import RevisionLedger.Proofs.Transmit.Atomic
import RevisionLedger.Proofs.Transmit.Linearization
import RevisionLedger.Proofs.Json.Reading
import RevisionLedger.Proofs.Json.Strings
import RevisionLedger.Proofs.Json.Numbers
import RevisionLedger.Proofs.Json.Objects
import RevisionLedger.Proofs.Record.RoundTrip
import RevisionLedger.Proofs.Record.Equality
import RevisionLedger.Proofs.Store.Refinement
import RevisionLedger.Proofs.Store.Runs
import RevisionLedger.Proofs.Store.Integrity
import RevisionLedger.Proofs.Store.Durability
import RevisionLedger.Proofs.Transmit.Labels
import RevisionLedger.Proofs.Transmit.AuditTrail
import RevisionLedger.Proofs.Transmit.MergeOrder
import RevisionLedger.Proofs.Transmit.Retries
import RevisionLedger.Proofs.Transmit.Timeline
import RevisionLedger.Proofs.Transmit.Rehearsal
import RevisionLedger.Proofs.Transmit.Attempts
import RevisionLedger.Proofs.Transmit.Deadlines
import RevisionLedger.Proofs.Transmit.InterruptedWrites
import RevisionLedger.Proofs.Transmit.Alone
import RevisionLedger.Proofs.Transmit.EventAttempts
import RevisionLedger.Proofs.Record.MergeAlgebra
import RevisionLedger.Proofs.Store.SnapshotCodec
import RevisionLedger.Proofs.Bounds
import RevisionLedger.Proofs.Statistics
import RevisionLedger.Proofs.Store.Opening
import RevisionLedger.Proofs.Config.Paths
import RevisionLedger.Proofs.Wire
import RevisionLedger.Proofs.Transmit.Families
import RevisionLedger.Proofs.Record.Deltas
import RevisionLedger.Proofs.Settings
