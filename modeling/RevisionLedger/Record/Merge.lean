import RevisionLedger.Record.Delta

/-!
# Merging a partial result into a record

The first runner to record a setting wins: a result for a setting that the record has is not
merged. Otherwise the merge is the smallest delta that adds the setting.
-/

namespace RevisionLedger

/-- What becomes of a partial result. -/
inductive Merge
  /-- The delta adds the setting. -/
  | mergeable (delta : Delta)
  /-- The record has the setting. -/
  | alreadyRecorded
  /-- The partial result lacks the setting. -/
  | nothingToMerge
deriving DecidableEq

namespace Merge

def delta? : Merge → Option Delta
  | .mergeable delta => some delta
  | .alreadyRecorded | .nothingToMerge => none

def isMergeable (merge : Merge) : Bool := merge.delta?.isSome

/-- The delta that adds a setting of a partial result to a record.

The release flag goes along if the partial result sets it, the revision hash if it differs. -/
def adding (incoming : PartialResult) (current : Record) (setting : Setting) (metrics : Metrics) :
    Delta where
  addedResults := SortedMap.empty.insert setting metrics
  isRelease := incoming.isRelease
  releaseLabel := none
  revisionHash :=
    if incoming.revisionHash = current.revisionHash then none else some incoming.revisionHash
  versionToken := incoming.versionToken

/-- Merges one setting of a partial result into a record. -/
def of (incoming : PartialResult) (current : Record) (setting : Setting) : Merge :=
  if current.hasSetting setting then .alreadyRecorded
  else
    match incoming.results.find? setting with
    | none => .nothingToMerge
    | some metrics => .mergeable (adding incoming current setting metrics)

end Merge

end RevisionLedger
