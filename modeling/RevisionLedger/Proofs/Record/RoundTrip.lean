import RevisionLedger.Proofs.Json.Numbers
import RevisionLedger.Proofs.Json.Objects
import RevisionLedger.Record.Wire

/-!
# Records are read back

Whatever the style, the text of a record is read as the record, but for its doubles: each of them is
read as what the reader makes of its text. `mapReals` applies a function to the doubles of a record,
so what is read is `record.mapReals style.reread`. Keys, partial results and deltas are read back in
the same way.
-/

namespace RevisionLedger

open Json (Style Reader Shape Reads)

/-! ## 1. The doubles of a record -/

/-- What the reader makes of the text of a double. -/
def Json.Style.reread (style : Style) (x : Binary64) : Binary64 :=
  match Json.decode Reader.real (Json.bytes (style.real x)) with
  | .ok y => y
  | .error _ => x

/-- Whether a double is finite and its text can be read. -/
def Json.Style.Rereads (style : Style) (x : Binary64) : Prop :=
  x.isFinite ∧ ∃ y, Json.decode Reader.real (Json.bytes (style.real x)) = .ok y

namespace Statistics

def reals (statistics : Statistics) : List Binary64 :=
  [statistics.average, statistics.p99, statistics.max, statistics.min, statistics.stdDev]

def mapReals (f : Binary64 → Binary64) (statistics : Statistics) : Statistics where
  average := f statistics.average
  p99 := f statistics.p99
  max := f statistics.max
  min := f statistics.min
  stdDev := f statistics.stdDev
  periodSecs := statistics.periodSecs

end Statistics

namespace Metrics

def reals (metrics : Metrics) : List Binary64 := metrics.toList.flatMap fun entry => entry.2.reals

def mapReals (f : Binary64 → Binary64) (metrics : Metrics) : Metrics :=
  metrics.mapValues (Statistics.mapReals f)

end Metrics

namespace Results

def reals (results : Results) : List Binary64 :=
  results.toList.flatMap fun entry => Metrics.reals entry.2

def mapReals (f : Binary64 → Binary64) (results : Results) : Results :=
  results.mapValues (Metrics.mapReals f)

end Results

namespace Record

/-- The doubles of a record. -/
def reals (record : Record) : List Binary64 := Results.reals record.results

/-- Applies a function to the doubles of a record. -/
def mapReals (f : Binary64 → Binary64) (record : Record) : Record :=
  { record with results := Results.mapReals f record.results }

end Record

namespace PartialResult

def reals (partialResult : PartialResult) : List Binary64 := Results.reals partialResult.results

def mapReals (f : Binary64 → Binary64) (partialResult : PartialResult) : PartialResult :=
  { partialResult with results := Results.mapReals f partialResult.results }

end PartialResult

namespace Delta

def reals (delta : Delta) : List Binary64 := Results.reals delta.addedResults

def mapReals (f : Binary64 → Binary64) (delta : Delta) : Delta :=
  { delta with addedResults := Results.mapReals f delta.addedResults }

end Delta

/-! ## 2. Reading -/

/-- A text starts with a quote, so it is not taken for the word that stands for none. -/
theorem Json.reads_optional_text (value : Option String) :
    Reads (Reader.optional Reader.text) (Json.optional Json.quoted value) value := by
  apply Json.reads_optional
  intro text _
  exact ⟨Json.reads_text text, _, Json.head?_quoted text, rfl, by decide⟩

theorem Json.reads_optional_hash (value : Option RevisionHash) :
    Reads (Reader.optional RevisionHash.reader) (Json.optional (Json.quoted ·.text) value)
      value := by
  apply Json.reads_optional
  intro hash _
  exact ⟨(Json.reads_text hash.text).map RevisionHash.mk, _, Json.head?_quoted hash.text, rfl,
    by decide⟩

theorem Json.reads_optional_bool (value : Option Bool) :
    Reads (Reader.optional Reader.bool) (Json.optional Json.bool value) value := by
  apply Json.reads_optional
  intro flag _
  cases flag with
  | true => exact ⟨Json.reads_bool true, byte 't', rfl, rfl, by decide⟩
  | false => exact ⟨Json.reads_bool false, byte 'f', rfl, rfl, by decide⟩

theorem RecordKey.reads (style : Style) (key : RecordKey) :
    Reads RecordKey.shape.reader (key.json style) key := by
  refine Shape.reads_written
    [⟨"year_partition", _, ({ · with yearPartition := key.yearPartition })⟩,
     ⟨"commit_date", _, ({ · with commitDate := key.commitDate })⟩]
    (by decide) ?_ ?_ rfl
  · exact .cons ⟨rfl, (Json.reads_int32 _).map _⟩ (.cons ⟨rfl, (Json.reads_int64 _).map _⟩ .nil)
  · intro a ha b hb value
    simp only [List.mem_cons, List.not_mem_nil, or_false] at ha hb
    rcases ha with rfl | rfl <;> rcases hb with rfl | rfl <;> rfl

section Reading

variable {style : Style} (hsuffix : style.number.wholeSuffix.toList.all Json.isVisible)

include hsuffix

theorem Json.Style.reads_real {x : Binary64} (h : style.Rereads x) :
    Reads Reader.real (style.real x) (style.reread x) := by
  obtain ⟨hfinite, y, hy⟩ := h
  rw [Json.Style.reread, hy]
  exact Json.reads_real hfinite hsuffix hy

theorem Statistics.reads {statistics : Statistics}
    (h : ∀ x ∈ statistics.reals, style.Rereads x) :
    Reads Statistics.shape.reader (statistics.json style) (statistics.mapReals style.reread) := by
  simp only [Statistics.reals, List.forall_mem_cons] at h
  obtain ⟨haverage, hp99, hmax, hmin, hstdDev, -⟩ := h
  have hreal {x : Binary64} (hx : style.Rereads x) := Json.Style.reads_real hsuffix hx
  refine Shape.reads_written
    [⟨"average", _, ({ · with average := style.reread statistics.average })⟩,
     ⟨"p99", _, ({ · with p99 := style.reread statistics.p99 })⟩,
     ⟨"max", _, ({ · with max := style.reread statistics.max })⟩,
     ⟨"min", _, ({ · with min := style.reread statistics.min })⟩,
     ⟨"std_dev", _, ({ · with stdDev := style.reread statistics.stdDev })⟩,
     ⟨"period_secs", _, ({ · with periodSecs := statistics.periodSecs })⟩]
    (by decide) ?_ ?_ rfl
  · refine .cons ⟨rfl, (hreal haverage).map _⟩ (.cons ⟨rfl, (hreal hp99).map _⟩ (.cons
      ⟨rfl, (hreal hmax).map _⟩ (.cons ⟨rfl, (hreal hmin).map _⟩ (.cons
        ⟨rfl, (hreal hstdDev).map _⟩ (.cons ⟨rfl, (Json.reads_uint64 _).map _⟩ .nil)))))
  · -- Setters of different fields commute, and each of them commutes with itself.
    intro a ha b hb value
    simp only [List.mem_cons, List.not_mem_nil, or_false] at ha hb
    rcases ha with rfl | rfl | rfl | rfl | rfl | rfl <;>
      rcases hb with rfl | rfl | rfl | rfl | rfl | rfl <;> rfl

theorem Metrics.reads {metrics : Metrics} (h : ∀ x ∈ Metrics.reals metrics, style.Rereads x) :
    Reads Metrics.reader (Metrics.json style metrics) (Metrics.mapReals style.reread metrics) := by
  have hname (name : String) : id (id name) = name := rfl
  have hread : ∀ entry ∈ metrics.toList, Reads Statistics.shape.reader (entry.2.json style)
      (entry.2.mapReals style.reread) := fun entry hentry =>
    Statistics.reads hsuffix fun x hx => h x (List.mem_flatMap.2 ⟨entry, hentry, hx⟩)
  exact Json.reads_map hname hread

theorem Results.reads {results : Results} (h : ∀ x ∈ Results.reals results, style.Rereads x) :
    Reads Results.reader (Results.json style results) (Results.mapReals style.reread results) := by
  have hname (setting : Setting) : Setting.mk (Setting.text setting) = setting := rfl
  have hread : ∀ entry ∈ results.toList, Reads Metrics.reader (Metrics.json style entry.2)
      (Metrics.mapReals style.reread entry.2) := fun entry hentry =>
    Metrics.reads hsuffix fun x hx => h x (List.mem_flatMap.2 ⟨entry, hentry, hx⟩)
  exact Json.reads_map hname hread

/-- The text of a record is read as the record, but for what becomes of its doubles. -/
theorem Record.reads {record : Record} (h : ∀ x ∈ record.reals, style.Rereads x) :
    Reads Record.shape.reader (record.json style) (record.mapReals style.reread) := by
  have hlabel := Json.reads_optional_text record.releaseLabel
  refine Shape.reads_written
    [⟨"revision_hash", _, ({ · with revisionHash := record.revisionHash })⟩,
     ⟨"commit_date", _, ({ · with commitDate := record.commitDate })⟩,
     ⟨"year_partition", _, ({ · with yearPartition := record.yearPartition })⟩,
     ⟨"is_release", _, ({ · with isRelease := record.isRelease })⟩,
     ⟨"release_label", _, ({ · with releaseLabel := record.releaseLabel })⟩,
     ⟨"version_token", _, ({ · with versionToken := record.versionToken })⟩,
     ⟨"results", _, ({ · with results := Results.mapReals style.reread record.results })⟩]
    (by decide) ?_ ?_ rfl
  · refine .cons ⟨rfl, ((Json.reads_text _).map RevisionHash.mk).map _⟩ (.cons
      ⟨rfl, (Json.reads_int64 _).map _⟩ (.cons ⟨rfl, (Json.reads_int32 _).map _⟩ (.cons
        ⟨rfl, (Json.reads_bool _).map _⟩ (.cons ⟨rfl, hlabel.map _⟩ (.cons
          ⟨rfl, ((Json.reads_text _).map VersionToken.mk).map _⟩ (.cons
            ⟨rfl, (Results.reads hsuffix h).map _⟩ .nil))))))
  · intro a ha b hb value
    simp only [List.mem_cons, List.not_mem_nil, or_false] at ha hb
    rcases ha with rfl | rfl | rfl | rfl | rfl | rfl | rfl <;>
      rcases hb with rfl | rfl | rfl | rfl | rfl | rfl | rfl <;> rfl

theorem PartialResult.reads {partialResult : PartialResult}
    (h : ∀ x ∈ partialResult.reals, style.Rereads x) :
    Reads PartialResult.shape.reader (partialResult.json style)
      (partialResult.mapReals style.reread) := by
  have hflag := Json.reads_optional_bool partialResult.isRelease
  refine Shape.reads_written
    [⟨"revision_hash", _, ({ · with revisionHash := partialResult.revisionHash })⟩,
     ⟨"commit_date", _, ({ · with commitDate := partialResult.commitDate })⟩,
     ⟨"year_partition", _, ({ · with yearPartition := partialResult.yearPartition })⟩,
     ⟨"is_release", _, ({ · with isRelease := partialResult.isRelease })⟩,
     ⟨"version_token", _, ({ · with versionToken := partialResult.versionToken })⟩,
     ⟨"results", _, ({ · with results := Results.mapReals style.reread partialResult.results })⟩]
    (by decide) ?_ ?_ rfl
  · refine .cons ⟨rfl, ((Json.reads_text _).map RevisionHash.mk).map _⟩ (.cons
      ⟨rfl, (Json.reads_int64 _).map _⟩ (.cons ⟨rfl, (Json.reads_int32 _).map _⟩ (.cons
        ⟨rfl, hflag.map _⟩ (.cons ⟨rfl, ((Json.reads_text _).map VersionToken.mk).map _⟩ (.cons
          ⟨rfl, (Results.reads hsuffix h).map _⟩ .nil)))))
  · intro a ha b hb value
    simp only [List.mem_cons, List.not_mem_nil, or_false] at ha hb
    rcases ha with rfl | rfl | rfl | rfl | rfl | rfl <;>
      rcases hb with rfl | rfl | rfl | rfl | rfl | rfl <;> rfl

theorem Delta.reads {delta : Delta} (h : ∀ x ∈ delta.reals, style.Rereads x) :
    Reads Delta.shape.reader (delta.json style) (delta.mapReals style.reread) := by
  have hflag := Json.reads_optional_bool delta.isRelease
  have hlabel := Json.reads_optional_text delta.releaseLabel
  have hhash := Json.reads_optional_hash delta.revisionHash
  refine Shape.reads_written
    [⟨"added_results", _,
       ({ · with addedResults := Results.mapReals style.reread delta.addedResults })⟩,
     ⟨"is_release", _, ({ · with isRelease := delta.isRelease })⟩,
     ⟨"release_label", _, ({ · with releaseLabel := delta.releaseLabel })⟩,
     ⟨"revision_hash", _, ({ · with revisionHash := delta.revisionHash })⟩,
     ⟨"version_token", _, ({ · with versionToken := delta.versionToken })⟩]
    (by decide) ?_ ?_ rfl
  · refine .cons ⟨rfl, (Results.reads hsuffix h).map _⟩ (.cons ⟨rfl, hflag.map _⟩ (.cons
      ⟨rfl, hlabel.map _⟩ (.cons ⟨rfl, hhash.map _⟩ (.cons
        ⟨rfl, ((Json.reads_text _).map VersionToken.mk).map _⟩ .nil))))
  · intro a ha b hb value
    simp only [List.mem_cons, List.not_mem_nil, or_false] at ha hb
    rcases ha with rfl | rfl | rfl | rfl | rfl <;>
      rcases hb with rfl | rfl | rfl | rfl | rfl <;> rfl

end Reading

end RevisionLedger
