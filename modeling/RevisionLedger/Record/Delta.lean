import RevisionLedger.Record.Basic

/-!
# Deltas

A delta is what one conditional update writes: settings to add, attributes to set, and the token of
the new version. Applying it never replaces the results of a setting that the record has.
-/

namespace RevisionLedger

/-- The changes of one update. -/
structure Delta where
  addedResults : Results
  isRelease : Option Bool
  releaseLabel : Option String
  revisionHash : Option RevisionHash
  /-- The token of the version that the update makes. -/
  versionToken : VersionToken
deriving DecidableEq

namespace Delta

/-- The delta that only changes the token. -/
def ofToken (versionToken : VersionToken) : Delta := ⟨.empty, none, none, none, versionToken⟩

/-- Whether a delta changes nothing but the token. -/
def isEmpty (delta : Delta) : Bool :=
  delta.addedResults.isEmpty && delta.isRelease.isNone && delta.releaseLabel.isNone &&
    delta.revisionHash.isNone

/-- Results with those settings of `added` that they lack. -/
def addMissing (results added : Results) : Results :=
  added.toList.foldl (fun results entry => results.insertIfAbsent entry.1 entry.2) results

/-- The record that a delta makes of a record. -/
def applyTo (delta : Delta) (current : Record) : Record where
  revisionHash := delta.revisionHash.getD current.revisionHash
  commitDate := current.commitDate
  yearPartition := current.yearPartition
  isRelease := delta.isRelease.getD current.isRelease
  releaseLabel := delta.releaseLabel.or current.releaseLabel
  versionToken := delta.versionToken
  results := addMissing current.results delta.addedResults

end Delta

end RevisionLedger
