import RevisionLedger.Digest.Sha256
import RevisionLedger.Record.Wire
import RevisionLedger.Store.Cell
import RevisionLedger.Store.Error

/-!
# Snapshots

A record is stored as its canonical JSON text beside the digest of the text and the name of the
digest. A stored text is believed only if it is within the size limit, its digest has the known
name and the right value, and it can be read as a record.
-/

namespace RevisionLedger

/-- The canonical text of a record and its digest. -/
structure Snapshot where
  json : ByteArray
  digest : String

namespace Snapshot

def digestLabel : String := "sha256"

/-- The greatest length of a text in bytes. -/
def maxBytes : Nat := 4 * 1024 * 1024

def checkSize (actual : Nat) : Except DatabaseError Unit :=
  if maxBytes < actual then .error (.tooLarge actual maxBytes) else .ok ()

/-- The snapshot of a record, if it is not too long. -/
def encode (record : Record) : Except DatabaseError Snapshot := do
  let json := (record.json Json.canonical).toUTF8
  checkSize json.size
  return ⟨json, Sha256.hex json⟩

/-- What stands for the reason that a text is no record. -/
def decodeDetail : String := "<json>"

/-- The record of a stored text. The hash names the record in the error texts. -/
def decode (json : ByteArray) (label digest revisionHash : String) : Except DatabaseError Record :=
  do
  checkSize json.size
  if label ≠ digestLabel then throw (.invalid s!"unsupported hash algorithm: {label}")
  if Sha256.hex json ≠ digest then throw (.corrupt s!"hash mismatch for record {revisionHash}")
  match Json.decode Record.shape.reader json.data.toList with
  | .ok record => return record
  | .error _ => throw (.corrupt s!"record decode failed: {decodeDetail}")

end Snapshot

end RevisionLedger
