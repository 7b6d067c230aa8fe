import RevisionLedger.Json.Shape
import RevisionLedger.Json.Text
import RevisionLedger.Record.Delta

/-!
# Records in JSON

The JSON texts of records, partial results, deltas and their parts, and the shapes by which they
are read back. A text lists the fields in the order of the shape unless its style sorts them.
-/

namespace RevisionLedger

open Json (Style Reader Shape)

/-! ## 1. Statistics and results -/

namespace Statistics

def json (style : Style) (statistics : Statistics) : String :=
  style.object
    [("average", style.real statistics.average),
     ("p99", style.real statistics.p99),
     ("max", style.real statistics.max),
     ("min", style.real statistics.min),
     ("std_dev", style.real statistics.stdDev),
     ("period_secs", toString statistics.periodSecs)]

def shape : Shape Statistics where
  blank := zero
  fields :=
    [⟨"average", .required, do let x ← Reader.real; return ({ · with average := x })⟩,
     ⟨"p99", .required, do let x ← Reader.real; return ({ · with p99 := x })⟩,
     ⟨"max", .required, do let x ← Reader.real; return ({ · with max := x })⟩,
     ⟨"min", .required, do let x ← Reader.real; return ({ · with min := x })⟩,
     ⟨"std_dev", .required, do let x ← Reader.real; return ({ · with stdDev := x })⟩,
     ⟨"period_secs", .required, do
       let n ← Reader.uint64; return ({ · with periodSecs := n })⟩]

end Statistics

namespace Metrics

def json (style : Style) (metrics : Metrics) : String :=
  style.object (metrics.toList.map fun (name, statistics) => (name, statistics.json style))

def reader : Reader Metrics := Reader.map id Statistics.shape.reader

end Metrics

namespace Results

def json (style : Style) (results : Results) : String :=
  style.object (results.toList.map fun (setting, metrics) =>
    (setting.text, Metrics.json style metrics))

def reader : Reader Results := Reader.map Setting.mk Metrics.reader

end Results

/-! ## 2. Identifiers and keys -/

namespace RecordKey

def json (style : Style) (key : RecordKey) : String :=
  style.object
    [("year_partition", toString key.yearPartition), ("commit_date", toString key.commitDate)]

def shape : Shape RecordKey where
  blank := default
  fields :=
    [⟨"year_partition", .required, do
       let n ← Reader.int32; return ({ · with yearPartition := n })⟩,
     ⟨"commit_date", .required, do
       let n ← Reader.int64; return ({ · with commitDate := n })⟩]

end RecordKey

def RevisionHash.reader : Reader RevisionHash := return ⟨← Reader.text⟩

def Setting.reader : Reader Setting := return ⟨← Reader.text⟩

def VersionToken.reader : Reader VersionToken := return ⟨← Reader.text⟩

/-! ## 3. Records, partial results and deltas -/

namespace Record

def blank : Record := ⟨default, 0, 0, false, none, default, .empty⟩

def json (style : Style) (record : Record) : String :=
  style.object
    [("revision_hash", Json.quoted record.revisionHash.text),
     ("commit_date", toString record.commitDate),
     ("year_partition", toString record.yearPartition),
     ("is_release", Json.bool record.isRelease),
     ("release_label", Json.optional Json.quoted record.releaseLabel),
     ("version_token", Json.quoted record.versionToken.text),
     ("results", Results.json style record.results)]

def shape : Shape Record where
  blank := blank
  fields :=
    [⟨"revision_hash", .required, do
       let hash ← RevisionHash.reader; return ({ · with revisionHash := hash })⟩,
     ⟨"commit_date", .required, do
       let n ← Reader.int64; return ({ · with commitDate := n })⟩,
     ⟨"year_partition", .required, do
       let n ← Reader.int32; return ({ · with yearPartition := n })⟩,
     ⟨"is_release", .required, do
       let b ← Reader.bool; return ({ · with isRelease := b })⟩,
     ⟨"release_label", .defaulted, do
       let label ← Reader.optional Reader.text; return ({ · with releaseLabel := label })⟩,
     ⟨"version_token", .required, do
       let token ← VersionToken.reader; return ({ · with versionToken := token })⟩,
     ⟨"results", .required, do
       let results ← Results.reader; return ({ · with results := results })⟩]

end Record

namespace PartialResult

def blank : PartialResult := ⟨default, 0, 0, none, default, .empty⟩

def json (style : Style) (partialResult : PartialResult) : String :=
  style.object
    [("revision_hash", Json.quoted partialResult.revisionHash.text),
     ("commit_date", toString partialResult.commitDate),
     ("year_partition", toString partialResult.yearPartition),
     ("is_release", Json.optional Json.bool partialResult.isRelease),
     ("version_token", Json.quoted partialResult.versionToken.text),
     ("results", Results.json style partialResult.results)]

def shape : Shape PartialResult where
  blank := blank
  fields :=
    [⟨"revision_hash", .required, do
       let hash ← RevisionHash.reader; return ({ · with revisionHash := hash })⟩,
     ⟨"commit_date", .required, do
       let n ← Reader.int64; return ({ · with commitDate := n })⟩,
     ⟨"year_partition", .required, do
       let n ← Reader.int32; return ({ · with yearPartition := n })⟩,
     ⟨"is_release", .defaulted, do
       let flag ← Reader.optional Reader.bool; return ({ · with isRelease := flag })⟩,
     ⟨"version_token", .required, do
       let token ← VersionToken.reader; return ({ · with versionToken := token })⟩,
     ⟨"results", .required, do
       let results ← Results.reader; return ({ · with results := results })⟩]

end PartialResult

namespace Delta

def json (style : Style) (delta : Delta) : String :=
  style.object
    [("added_results", Results.json style delta.addedResults),
     ("is_release", Json.optional Json.bool delta.isRelease),
     ("release_label", Json.optional Json.quoted delta.releaseLabel),
     ("revision_hash", Json.optional (Json.quoted ·.text) delta.revisionHash),
     ("version_token", Json.quoted delta.versionToken.text)]

def shape : Shape Delta where
  blank := ofToken default
  fields :=
    [⟨"added_results", .required, do
       let results ← Results.reader; return ({ · with addedResults := results })⟩,
     ⟨"is_release", .nullable, do
       let flag ← Reader.optional Reader.bool; return ({ · with isRelease := flag })⟩,
     ⟨"release_label", .nullable, do
       let label ← Reader.optional Reader.text; return ({ · with releaseLabel := label })⟩,
     ⟨"revision_hash", .nullable, do
       let hash ← Reader.optional RevisionHash.reader
       return ({ · with revisionHash := hash })⟩,
     ⟨"version_token", .required, do
       let token ← VersionToken.reader; return ({ · with versionToken := token })⟩]

end Delta

end RevisionLedger
