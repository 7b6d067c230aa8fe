import RevisionLedger.Config.Document
import RevisionLedger.Store.Memory
import RevisionLedger.Store.Open

/-!
# Configurations in files

A configuration is read from the file at a given path, at the path that the environment gives, or
under a default name. The store and the audit log that it asks for are opened by it.
-/

namespace RevisionLedger

namespace Config

/-- The path of a configuration when none is given. -/
def defaultPath : String := "perf-ledger.toml"

/-- The greatest length of the file of a configuration, in bytes. -/
def maxFileSize : Nat := 1048576

/-- The path to read a configuration from, which has to keep to the limits on paths. -/
def resolvePath (given environment : Option String) : Except ConfigFlaw String :=
  let path := (given <|> environment).getD defaultPath
  if Path.isLong path then .error .ownPath
  else if Path.hasLongName path then .error .ownPathName
  else .ok path

/-- The valid configuration in a file. -/
def load (files : Files) (given environment : Option String) : Except ConfigError Config := do
  let path ← (resolvePath given environment).mapError .invalid
  let some bytes := files.read? path | throw .io
  if maxFileSize < bytes.size then throw (.invalid .fileSize)
  let some text := String.fromUTF8? bytes | throw (.invalid .encoding)
  ofText text

end Config

/-- A record store that a configuration asked for. -/
inductive OpenStore
  | memory (store : MemoryStore)
  | durable (database : OpenDatabase)

/-- The options of the durable store at a path. -/
def StoreChoice.options (choice : StoreChoice) (path : String) : StoreOptions :=
  ⟨path, choice.busyTimeoutMs, choice.journalMode, choice.syncMode⟩

def StoreChoice.openStore (choice : StoreChoice) : FileAction ConfigError OpenStore :=
  match choice.kind, choice.path with
  | .memory, _ => return .memory .empty
  | .durable, none => throw (.invalid .durableStoreWithoutPath)
  | .durable, some path => fun files =>
    let (result, files) := (choice.options path).openStore.run files
    ((result.map OpenStore.durable).mapError .store, files)

/-- Opens what audit events are written to; the place of the file, if there is one. -/
def AuditChoice.openLog (choice : AuditChoice) : FileAction ConfigError (Option Location) :=
  match choice.target, choice.path with
  | .file, none => throw (.invalid .fileAuditWithoutPath)
  | .file, some path => some <$> Files.openLog .io path
  | .stderr, _ | .nowhere, _ => return none

namespace Config

/-- Opens the store, and then the audit log. -/
def openAll (config : Config) : FileAction ConfigError (OpenStore × Option Location) := do
  return (← config.store.openStore, ← config.audit.openLog)

end Config

end RevisionLedger
