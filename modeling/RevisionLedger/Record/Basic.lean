import RevisionLedger.Identifier
import RevisionLedger.Statistics

/-!
# Records

A record holds everything measured for one source revision, by test setting. A runner hands in a
partial result, which normally holds one setting.
-/

namespace RevisionLedger

/-- The metrics of a revision by test setting. -/
abbrev Results := SortedMap Setting Metrics

/-- The primary key of a record. -/
structure RecordKey where
  /-- The calendar year. -/
  yearPartition : Int32
  /-- The rank of the commit by date. -/
  commitDate : Int64
deriving DecidableEq, Inhabited, Repr

/-- Keys are ordered by year first. -/
def RecordKey.order : RecordKey → RecordKey → Ordering :=
  compareLex (compareOn RecordKey.yearPartition) (compareOn RecordKey.commitDate)

instance : Ord RecordKey where
  compare := RecordKey.order

instance : Std.TransOrd RecordKey :=
  inferInstanceAs (Std.TransCmp (compareLex (compareOn RecordKey.yearPartition)
    (compareOn RecordKey.commitDate)))

instance : Std.LawfulEqOrd RecordKey where
  compare_self :=
    (inferInstance : Std.ReflCmp (compare : RecordKey → RecordKey → Ordering)).compare_self
  eq_of_compare {a b} h := by
    obtain ⟨hyear, hdate⟩ : compare a.yearPartition b.yearPartition = .eq ∧
        compare a.commitDate b.commitDate = .eq := compareLex_eq_eq.1 h
    cases a
    cases b
    cases Std.LawfulEqOrd.eq_of_compare hyear
    cases Std.LawfulEqOrd.eq_of_compare hdate
    rfl

def RecordKey.display (key : RecordKey) : String := s!"{key.yearPartition}/{key.commitDate}"

/-- All that is recorded for one revision. -/
structure Record where
  revisionHash : RevisionHash
  commitDate : Int64
  yearPartition : Int32
  isRelease : Bool
  releaseLabel : Option String
  versionToken : VersionToken
  results : Results
deriving DecidableEq

namespace Record

def key (record : Record) : RecordKey := ⟨record.yearPartition, record.commitDate⟩

def hasSetting (record : Record) (setting : Setting) : Bool := record.results.contains setting

end Record

/-- What one runner hands in. -/
structure PartialResult where
  revisionHash : RevisionHash
  commitDate : Int64
  yearPartition : Int32
  /-- The release flag, if the runner sets it. -/
  isRelease : Option Bool
  /-- The token of the record, should the result become one. -/
  versionToken : VersionToken
  results : Results
deriving DecidableEq

namespace PartialResult

/-- A result for one setting, without a release flag. -/
def single (revisionHash : RevisionHash) (key : RecordKey) (setting : Setting) (metrics : Metrics)
    (versionToken : VersionToken) : PartialResult where
  revisionHash
  commitDate := key.commitDate
  yearPartition := key.yearPartition
  isRelease := none
  versionToken
  results := SortedMap.empty.insert setting metrics

def withRelease (partialResult : PartialResult) (isRelease : Bool) : PartialResult :=
  { partialResult with isRelease := some isRelease }

/-- The key of the record that the result is meant for. -/
def key (partialResult : PartialResult) : RecordKey :=
  ⟨partialResult.yearPartition, partialResult.commitDate⟩

/-- The setting of a result that has exactly one. -/
def singleSetting? (partialResult : PartialResult) : Option Setting :=
  match partialResult.results.keys with
  | [setting] => some setting
  | _ => none

/-- The record that starts with the result. -/
def toRecord (partialResult : PartialResult) : Record where
  revisionHash := partialResult.revisionHash
  commitDate := partialResult.commitDate
  yearPartition := partialResult.yearPartition
  isRelease := partialResult.isRelease.getD false
  releaseLabel := none
  versionToken := partialResult.versionToken
  results := partialResult.results

end PartialResult

end RevisionLedger
