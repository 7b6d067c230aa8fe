import RevisionLedger.Json.Shape

/-!
# Options of a durable store
-/

namespace RevisionLedger

open Json (Reader Shape)

/-- How the database engine keeps its journal. -/
inductive JournalMode
  | wal
  | delete
deriving DecidableEq, Repr

/-- How often the database engine waits for the disk. -/
inductive SyncMode
  | full
  | normal
deriving DecidableEq, Repr

def JournalMode.name : JournalMode → String
  | .wal => "wal"
  | .delete => "delete"

def SyncMode.name : SyncMode → String
  | .full => "full"
  | .normal => "normal"

def JournalMode.choices : List (String × JournalMode) := [("wal", .wal), ("delete", .delete)]

def SyncMode.choices : List (String × SyncMode) := [("full", .full), ("normal", .normal)]

/-- Where a durable store is, and how its engine is set. -/
structure StoreOptions where
  path : String
  busyTimeoutMs : UInt64 := 5000
  journalMode : JournalMode := .wal
  syncMode : SyncMode := .full
deriving DecidableEq, Repr

/-- The shape of options in JSON; only the path is required. -/
def StoreOptions.shape : Shape StoreOptions where
  blank := { path := "" }
  fields :=
    [⟨"path", .required, do
       let path ← Reader.text; return ({ · with path := path })⟩,
     ⟨"busy_timeout_ms", .defaulted, do
       let n ← Reader.uint64; return ({ · with busyTimeoutMs := n })⟩,
     ⟨"journal_mode", .defaulted, do
       let mode ← Reader.choice JournalMode.choices; return ({ · with journalMode := mode })⟩,
     ⟨"sync_mode", .defaulted, do
       let mode ← Reader.choice SyncMode.choices; return ({ · with syncMode := mode })⟩]

end RevisionLedger
