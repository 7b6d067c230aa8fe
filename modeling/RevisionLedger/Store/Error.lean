import RevisionLedger.Record.Basic

/-!
# Store errors

A store reports one of five errors. A caller tells three kinds apart: a conflict is worth another
attempt, a missing record has an answer of its own, and all else means that the store cannot be
used. A durable store has errors of its own, each of which becomes one of the five.
-/

namespace RevisionLedger

/-- Why a record store refuses a call. -/
inductive StoreError
  /-- The condition of a conditional write does not hold. -/
  | conflict (detail : String)
  /-- No record has the key. -/
  | notFound (detail : String)
  | io (detail : String)
  /-- What is stored fails its integrity checks. -/
  | corrupt (detail : String)
  | invalid (detail : String)
deriving DecidableEq, Repr

namespace StoreError

/-- What a caller does about an error depends on its kind. -/
inductive Kind
  | conflict
  | notFound
  | unavailable
deriving DecidableEq, Repr

def kind : StoreError → Kind
  | .conflict _ => .conflict
  | .notFound _ => .notFound
  | .io _ | .corrupt _ | .invalid _ => .unavailable

def Kind.label : Kind → String
  | .conflict => "conflict"
  | .notFound => "not_found"
  | .unavailable => "unavailable"

def message : StoreError → String
  | .conflict detail => s!"record store conflict: {detail}"
  | .notFound detail => s!"record store not found: {detail}"
  | .io detail => s!"record store io error: {detail}"
  | .corrupt detail => s!"record store corruption: {detail}"
  | .invalid detail => s!"record store invalid data: {detail}"

/-! ## Details -/

def keyTaken (key : RecordKey) : StoreError := .conflict s!"record exists for key {key.display}"

def hashTaken (hash : RevisionHash) : StoreError := .conflict s!"record exists for hash {hash.text}"

def noRecord (key : RecordKey) : StoreError := .notFound s!"no record for key {key.display}"

def tokenMismatch (key : RecordKey) : StoreError :=
  .conflict s!"version token mismatch for key {key.display}"

/-- The hash that an update brings belongs to another record. -/
def hashOwned (hash : RevisionHash) : StoreError :=
  .invalid s!"hash {hash.text} already owned by another record"

end StoreError

/-- Why a durable store refuses a call. -/
inductive DatabaseError
  | io (detail : String)
  /-- The database engine failed. -/
  | engine (detail : String)
  /-- What is stored fails its integrity checks. -/
  | corrupt (detail : String)
  /-- The file has another schema. -/
  | versionMismatch (detail : String)
  | invalid (detail : String)
  /-- A record is longer than the store takes. -/
  | tooLarge (actualBytes maxBytes : Nat)
  | conflict (detail : String)
  | notFound (detail : String)
deriving DecidableEq, Repr

namespace DatabaseError

/-- What stands for a detail that the engine or the operating system words. -/
def engineDetail : String := "<engine>"

def message : DatabaseError → String
  | .io detail => s!"sqlite store io error: {detail}"
  | .engine detail => s!"sqlite store db error: {detail}"
  | .corrupt detail => s!"sqlite store corruption: {detail}"
  | .versionMismatch detail => s!"sqlite store version mismatch: {detail}"
  | .invalid detail => s!"sqlite store invalid data: {detail}"
  | .tooLarge actual max => s!"sqlite store payload too large: {actual} bytes (max {max})"
  | .conflict detail => s!"sqlite store conflict: {detail}"
  | .notFound detail => s!"sqlite store not found: {detail}"

/-- The store error that a caller gets. -/
def toStoreError : DatabaseError → StoreError
  | .io detail | .engine detail => .io detail
  | .corrupt detail => .corrupt detail
  | .versionMismatch detail | .invalid detail => .invalid detail
  | .tooLarge actual max => .invalid s!"record_json exceeds size limit: {actual} bytes (max {max})"
  | .conflict detail => .conflict detail
  | .notFound detail => .notFound detail

end DatabaseError

end RevisionLedger
