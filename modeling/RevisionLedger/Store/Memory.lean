import RevisionLedger.Store.Basic

/-!
# The in-memory store

Records by key, beside the number of writes that were acknowledged. Each operation checks its
condition and takes effect in one step.
-/

namespace RevisionLedger

/-- A record store in memory. -/
structure MemoryStore where
  records : SortedMap RecordKey Record
  /-- The number of acknowledged writes. No run has more of them than operations, so that a word of
  64 bits holds the number in any run of fewer than 2 ^ 64 operations. -/
  writes : Nat
deriving DecidableEq

namespace MemoryStore

def empty : MemoryStore := ⟨.empty, 0⟩

def get? (store : MemoryStore) (key : RecordKey) : Option Record := store.records.find? key

/-- The records with a hash, in key order. -/
def query (store : MemoryStore) (hash : RevisionHash) : List Record :=
  (store.records.toList.map Prod.snd).filter (·.revisionHash = hash)

/-- Stores a record under its key and counts the write. -/
def write (store : MemoryStore) (key : RecordKey) (record : Record) : MemoryStore :=
  ⟨store.records.insert key record, store.writes + 1⟩

/-- Stores a record whose key and hash are both free. -/
def put (store : MemoryStore) (record : Record) : Except StoreError MemoryStore :=
  if store.records.contains record.key then .error (.keyTaken record.key)
  else if !(store.query record.revisionHash).isEmpty then .error (.hashTaken record.revisionHash)
  else .ok (store.write record.key record)

/-- Whether a record under another key has a hash. -/
def ownedElsewhere (store : MemoryStore) (key : RecordKey) (hash : RevisionHash) : Bool :=
  store.records.toList.any fun (other, record) => other ≠ key && record.revisionHash = hash

/-- Applies a delta to the record under a key, if that record bears the expected token and the hash
that the delta may bring is not another record's. -/
def update (store : MemoryStore) (key : RecordKey) (delta : Delta) (expected : VersionToken) :
    Except StoreError MemoryStore :=
  match store.get? key with
  | none => .error (.noRecord key)
  | some current =>
    if current.versionToken ≠ expected then .error (.tokenMismatch key)
    else
      match delta.revisionHash.filter (store.ownedElsewhere key) with
      | some hash => .error (.hashOwned hash)
      | none => .ok (store.write key (delta.applyTo current))

instance : RecordStore MemoryStore where
  query store hash := .ok (store.query hash)
  put := put
  update := update
  record? := get?
  suspends := false

end MemoryStore

end RevisionLedger
