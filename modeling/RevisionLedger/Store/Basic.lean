import RevisionLedger.Record.Delta
import RevisionLedger.Store.Error

/-!
# Record stores

A record store answers three calls: which records have a hash, add a record whose key and hash are
free, and change a record that still bears an expected token. Each of them takes effect in one
step. A write that is refused leaves the store as it was, because its answer holds no other.
-/

namespace RevisionLedger

/-- The calls of a record store with states of type `σ`. -/
class RecordStore (σ : Type) where
  /-- The records with a hash. -/
  query : σ → RevisionHash → Except StoreError (List Record)
  /-- Adds a record whose key and hash are free. -/
  put : σ → Record → Except StoreError σ
  /-- Applies a delta to the record under a key if it bears the expected token. -/
  update : σ → RecordKey → Delta → VersionToken → Except StoreError σ
  /-- The record under a key, if there is one that can be read. -/
  record? : σ → RecordKey → Option Record
  /-- Whether a call hands control back before its answer reaches the caller. -/
  suspends : Bool

/-- A write made straight on a store. -/
inductive DirectWrite
  | put (record : Record)
  /-- Without an expected token the one that is stored is expected. -/
  | update (key : RecordKey) (delta : Delta) (expected : Option VersionToken)

namespace DirectWrite

def key : DirectWrite → RecordKey
  | .put record => record.key
  | .update key _ _ => key

def perform {σ : Type} [RecordStore σ] (write : DirectWrite) (store : σ) : Except StoreError σ :=
  match write with
  | .put record => RecordStore.put store record
  | .update key delta expected =>
    let stored := (RecordStore.record? store key).map Record.versionToken
    RecordStore.update store key delta (expected.getD (stored.getD default))

end DirectWrite

end RevisionLedger
