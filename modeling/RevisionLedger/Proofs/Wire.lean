import RevisionLedger.Bounds.Wire
import RevisionLedger.Proofs.Store.Persistence

/-!
# Values are read back from their texts

A partial result, a delta, a key, a table of bounds or a record is written in the compact style and
read as an equal value: all that is no double is what it was, and the doubles are numerically equal
to those that were written. A record is read from its canonical text as well, and what is read from
the one text equals what is read from the other (`Json.read_back`). Of the doubles it is asked only
that a style keeps them, as both styles do with all that are finite (`Json.keeps_compact`,
`Json.keeps_canonical`).
-/

namespace RevisionLedger

open Json (Style Reader Shape Reads compact canonical)

/-! ## 1. Doubles -/

namespace Json

/-- A double is finite, and its text is read as a numerically equal one. -/
def Style.Keeps (style : Style) (x : Binary64) : Prop :=
  x.isFinite ∧ ∃ y, decode Reader.real (bytes (style.real x)) = .ok y ∧ y.numericEq x

namespace Style.Keeps

variable {style : Style} {x : Binary64}

theorem rereads (h : style.Keeps x) : style.Rereads x := by
  obtain ⟨hfinite, y, hread, -⟩ := h
  exact ⟨hfinite, y, hread⟩

theorem numericEq_reread (h : style.Keeps x) : (style.reread x).numericEq x := by
  obtain ⟨-, y, hread, heq⟩ := h
  rw [reread, hread]
  exact heq

end Style.Keeps

theorem keeps_compact {x : Binary64} (h : x.isFinite) : compact.Keeps x :=
  ⟨h, x, decode_real_compact h, Binary64.numericEq_of_unsignZero_eq rfl h⟩

theorem keeps_canonical {x : Binary64} (h : x.isFinite) : canonical.Keeps x := by
  refine ⟨h, x.unsignZero, decode_real_canonical h, ?_⟩
  rw [Binary64.numericEq_comm]
  exact Binary64.numericEq_unsignZero h

end Json

/-! ## 2. Bounds -/

theorem SortedMap.reads_json {β γ : Type} {style : Style} {value : Reader γ} {write : β → String}
    {f : β → γ} {map : SortedMap String β}
    (h : ∀ entry ∈ map.toList, Reads value (write entry.2) (f entry.2)) :
    Reads (Reader.map id value) (map.json style write) (map.mapValues f) := by
  have hname (name : String) : id (id name) = name := rfl
  exact Json.reads_map hname h

namespace Bounds

/-- The doubles of a table of bounds. -/
def reals (bounds : Bounds) : List Binary64 :=
  bounds.errorBound :: bounds.rates.toList.flatMap fun rate =>
    rate.2.toList.flatMap fun plugin => plugin.2.toList.map Prod.snd

/-- Applies a function to the doubles of a table of bounds. -/
def mapReals (f : Binary64 → Binary64) (bounds : Bounds) : Bounds where
  errorBound := f bounds.errorBound
  rates := bounds.rates.mapValues (·.mapValues (·.mapValues f))

/-- Bounds that are equal but for the signs of their zeros. -/
structure Same (a b : Bounds) : Prop where
  errorBound : a.errorBound.numericEq b.errorBound
  rates : SortedMap.Same (SortedMap.Same (SortedMap.Same fun x y => x.numericEq y)) a.rates b.rates

theorem mem_reals {bounds : Bounds} {rate : String × SortedMap String (SortedMap String Binary64)}
    (hrate : rate ∈ bounds.rates.toList) {plugin : String × SortedMap String Binary64}
    (hplugin : plugin ∈ rate.2.toList) {metric : String × Binary64}
    (hmetric : metric ∈ plugin.2.toList) : metric.2 ∈ bounds.reals :=
  List.mem_cons_of_mem _ (List.mem_flatMap.2 ⟨rate, hrate, List.mem_flatMap.2
    ⟨plugin, hplugin, List.mem_map_of_mem hmetric⟩⟩)

/-- The text of a table of bounds is read as the table, but for what becomes of its doubles. -/
theorem reads {style : Style} (hsuffix : style.number.wholeSuffix.toList.all Json.isVisible)
    {bounds : Bounds} (h : ∀ x ∈ bounds.reals, style.Rereads x) :
    Reads Bounds.shape.reader (bounds.json style) (bounds.mapReals style.reread) := by
  have herrorBound := Json.Style.reads_real hsuffix (h bounds.errorBound List.mem_cons_self)
  have hrates : Reads ratesReader (bounds.rates.json style (·.json style (·.json style style.real)))
      (bounds.mapReals style.reread).rates :=
    SortedMap.reads_json fun rate hrate => SortedMap.reads_json fun plugin hplugin =>
      SortedMap.reads_json fun metric hmetric =>
        Json.Style.reads_real hsuffix (h metric.2 (mem_reals hrate hplugin hmetric))
  refine Shape.reads_written
    [⟨"error_bound", _, ({ · with errorBound := style.reread bounds.errorBound })⟩,
     ⟨"rates", _, ({ · with rates := (bounds.mapReals style.reread).rates })⟩]
    (by decide) ?_ ?_ rfl
  · exact .cons ⟨rfl, herrorBound.map _⟩ (.cons ⟨rfl, hrates.map _⟩ .nil)
  · intro a ha b hb value
    simp only [List.mem_cons, List.not_mem_nil, or_false] at ha hb
    rcases ha with rfl | rfl <;> rcases hb with rfl | rfl <;> rfl

theorem same_mapReals {f : Binary64 → Binary64} {bounds : Bounds}
    (h : ∀ x ∈ bounds.reals, (f x).numericEq x) : (bounds.mapReals f).Same bounds := by
  have hid : bounds.mapReals id = bounds := by
    have hmetrics : (fun metrics : SortedMap String Binary64 => metrics.mapValues id) = id :=
      funext SortedMap.mapValues_id
    have hplugins : (fun plugins : SortedMap String (SortedMap String Binary64) =>
        plugins.mapValues id) = id := funext SortedMap.mapValues_id
    rw [mapReals, hmetrics, hplugins, SortedMap.mapValues_id]
    rfl
  have hrates : SortedMap.Same (SortedMap.Same (SortedMap.Same fun x y => x.numericEq y))
      (bounds.mapReals f).rates (bounds.mapReals id).rates :=
    SortedMap.same_mapValues fun rate hrate => SortedMap.same_mapValues fun plugin hplugin =>
      SortedMap.same_mapValues fun metric hmetric => h metric.2 (mem_reals hrate hplugin hmetric)
  rw [hid] at hrates
  exact ⟨h bounds.errorBound List.mem_cons_self, hrates⟩

end Bounds

/-! ## 3. Partial results, deltas and records -/

/-- Partial results that are equal but for the signs of their zeros. -/
structure PartialResult.Same (a b : PartialResult) : Prop where
  revisionHash : a.revisionHash = b.revisionHash
  commitDate : a.commitDate = b.commitDate
  yearPartition : a.yearPartition = b.yearPartition
  isRelease : a.isRelease = b.isRelease
  versionToken : a.versionToken = b.versionToken
  results : Results.Same a.results b.results

/-- Deltas that are equal but for the signs of their zeros. -/
structure Delta.Same (a b : Delta) : Prop where
  addedResults : Results.Same a.addedResults b.addedResults
  isRelease : a.isRelease = b.isRelease
  releaseLabel : a.releaseLabel = b.releaseLabel
  revisionHash : a.revisionHash = b.revisionHash
  versionToken : a.versionToken = b.versionToken

theorem Results.same_reread {style : Style} {results : Results}
    (h : ∀ x ∈ Results.reals results, style.Keeps x) :
    Results.Same (Results.mapReals style.reread results) results := by
  have hsame := Results.same_mapReals (f := style.reread) (g := id) fun x hx =>
    (h x hx).numericEq_reread
  rwa [Results.mapReals_id] at hsame

section ReadBack

variable {style : Style} (hsuffix : style.number.wholeSuffix.toList.all Json.isVisible)

include hsuffix

theorem PartialResult.exists_read {partialResult : PartialResult}
    (h : ∀ x ∈ partialResult.reals, style.Keeps x) :
    ∃ read, Json.decode PartialResult.shape.reader (Json.bytes (partialResult.json style)) =
      .ok read ∧ read.Same partialResult := by
  have hreads := PartialResult.reads hsuffix fun x hx => (h x hx).rereads
  exact ⟨_, hreads.decode, rfl, rfl, rfl, rfl, rfl, Results.same_reread h⟩

theorem Delta.exists_read {delta : Delta} (h : ∀ x ∈ delta.reals, style.Keeps x) :
    ∃ read, Json.decode Delta.shape.reader (Json.bytes (delta.json style)) = .ok read ∧
      read.Same delta := by
  have hreads := Delta.reads hsuffix fun x hx => (h x hx).rereads
  exact ⟨_, hreads.decode, Results.same_reread h, rfl, rfl, rfl, rfl⟩

theorem Bounds.exists_read {bounds : Bounds} (h : ∀ x ∈ bounds.reals, style.Keeps x) :
    ∃ read, Json.decode Bounds.shape.reader (Json.bytes (bounds.json style)) = .ok read ∧
      read.Same bounds := by
  have hreads := Bounds.reads hsuffix fun x hx => (h x hx).rereads
  exact ⟨_, hreads.decode, Bounds.same_mapReals fun x hx => (h x hx).numericEq_reread⟩

theorem Record.decode_json {record : Record} (h : ∀ x ∈ record.reals, style.Keeps x) :
    Json.decode Record.shape.reader (Json.bytes (record.json style)) =
      .ok (record.mapReals style.reread) :=
  (Record.reads hsuffix fun x hx => (h x hx).rereads).decode

end ReadBack

namespace Record

theorem same_mapReals {f g : Binary64 → Binary64} {record : Record}
    (h : ∀ x ∈ record.reals, (f x).numericEq (g x)) :
    (record.mapReals f).Same (record.mapReals g) :=
  ⟨rfl, rfl, rfl, rfl, rfl, rfl, Results.same_mapReals h⟩

theorem same_reread {style : Style} {record : Record} (h : ∀ x ∈ record.reals, style.Keeps x) :
    (record.mapReals style.reread).Same record :=
  ⟨rfl, rfl, rfl, rfl, rfl, rfl, Results.same_reread h⟩

/-- What is read from the text of a record is what its snapshot is decoded as. -/
theorem decode_of_encode {record read : Record} {snapshot : Snapshot}
    (hencode : Snapshot.encode record = .ok snapshot)
    (hread : Json.decode shape.reader (Json.bytes (record.json canonical)) = .ok read)
    (hash : String) :
    Snapshot.decode snapshot.json Snapshot.digestLabel snapshot.digest hash = .ok read := by
  obtain ⟨hfits, rfl⟩ := encode_eq_ok_iff.1 hencode
  exact Row.decode_snapshot_eq_ok_iff.2 ⟨hfits, rfl, rfl, hread⟩

end Record

/-! ## 4. Reading back -/

/-- Every value whose doubles are kept is read from its compact text as an equal value. A record is
read from its canonical text, and from its snapshot, as one that equals what is read from the
compact text. -/
theorem Json.read_back :
    (∀ partialResult : PartialResult, (∀ x ∈ partialResult.reals, compact.Keeps x) →
      ∃ read, decode PartialResult.shape.reader (bytes (partialResult.json compact)) = .ok read ∧
        read.Same partialResult) ∧
    (∀ delta : Delta, (∀ x ∈ delta.reals, compact.Keeps x) →
      ∃ read, decode Delta.shape.reader (bytes (delta.json compact)) = .ok read ∧
        read.Same delta) ∧
    (∀ key : RecordKey, decode RecordKey.shape.reader (bytes (key.json compact)) = .ok key) ∧
    (∀ bounds : Bounds, (∀ x ∈ bounds.reals, compact.Keeps x) →
      ∃ read, decode Bounds.shape.reader (bytes (bounds.json compact)) = .ok read ∧
        read.Same bounds) ∧
    ∀ record : Record, (∀ x ∈ record.reals, compact.Keeps x) →
      ∃ read, decode Record.shape.reader (bytes (record.json compact)) = .ok read ∧
        read.Same record ∧
        ((∀ x ∈ record.reals, canonical.Keeps x) →
          ∃ stored, decode Record.shape.reader (bytes (record.json canonical)) = .ok stored ∧
            stored.Same record ∧ read.Same stored ∧
            ∀ snapshot hash, Snapshot.encode record = .ok snapshot →
              Snapshot.decode snapshot.json Snapshot.digestLabel snapshot.digest hash =
                .ok stored) := by
  have hcompact : compact.number.wholeSuffix.toList.all isVisible := rfl
  refine ⟨fun _ h => PartialResult.exists_read hcompact h, fun _ h => Delta.exists_read hcompact h,
    fun key => (RecordKey.reads compact key).decode, fun _ h => Bounds.exists_read hcompact h,
    fun record h => ?_⟩
  refine ⟨_, Record.decode_json hcompact h, Record.same_reread h, fun hcanonical => ?_⟩
  have hstored := Record.decode_json visible_wholeSuffix hcanonical
  refine ⟨_, hstored, Record.same_reread hcanonical, Record.same_mapReals fun x hx => ?_,
    fun _ hash hencode => Record.decode_of_encode hencode hstored hash⟩
  -- Both doubles that are read are numerically equal to the one that was written.
  have hwritten := (hcanonical x hx).numericEq_reread
  rw [Binary64.numericEq_comm] at hwritten
  exact Binary64.numericEq_trans (h x hx).numericEq_reread hwritten

/-- Texts with escapes and beyond ASCII, fields with and without a value, and a negative zero. -/
theorem Json.read_back_measured :
    let record := Record.measured "c0ffée" "\"first\"\n"
    let delta : Delta := ⟨record.results, none, some "v1\\é", some ⟨"decade"⟩, ⟨"second"⟩⟩
    let bounds : Bounds := ⟨Bounds.defaultErrorBound, SortedMap.empty.insert "1000"
      (SortedMap.empty.insert "lögs" (SortedMap.empty.insert "cpu" Binary64.zero.neg))⟩
    (∀ x ∈ record.reals, compact.Keeps x ∧ canonical.Keeps x) ∧
      (∃ read, decode Delta.shape.reader (bytes (delta.json compact)) = .ok read ∧
        read.Same delta) ∧
      (∃ read, decode Bounds.shape.reader (bytes (bounds.json compact)) = .ok read ∧
        read.Same bounds) ∧
      ∃ read stored, decode Record.shape.reader (bytes (record.json compact)) = .ok read ∧
        decode Record.shape.reader (bytes (record.json canonical)) = .ok stored ∧
        read.Same stored := by
  intro record delta bounds
  have hfinite : ∀ x ∈ record.reals, x.isFinite := by decide
  have hcompact : ∀ x ∈ record.reals, compact.Keeps x := fun x hx => keeps_compact (hfinite x hx)
  have hcanonical : ∀ x ∈ record.reals, canonical.Keeps x := fun x hx =>
    keeps_canonical (hfinite x hx)
  have hbounds : ∀ x ∈ bounds.reals, x.isFinite := by decide
  obtain ⟨-, hdelta, -, htable, hrecord⟩ := read_back
  obtain ⟨read, hread, -, hstored⟩ := hrecord record hcompact
  obtain ⟨stored, hcanonicalRead, -, hsame, -⟩ := hstored hcanonical
  exact ⟨fun x hx => ⟨hcompact x hx, hcanonical x hx⟩, hdelta delta hcompact,
    htable bounds fun x hx => keeps_compact (hbounds x hx), read, stored, hread, hcanonicalRead,
    hsame⟩

end RevisionLedger
