import Mathlib.Data.List.Forall2
import RevisionLedger.Proofs.Binary64.Order
import RevisionLedger.Proofs.Record.RoundTrip

/-!
# Equality of records

Two records are the same if their doubles are numerically equal and all else is equal. Of finite
doubles only the two zeros are numerically equal without being one, and the canonical text of a zero
does not show its sign. So a record without signs on its zeros stands for all that are the same
(`Record.same_of_unsignZeros_eq`), and the canonical text of a record does not depend on which of
them it is (`Record.json_canonical_congr`).
-/

namespace RevisionLedger

/-! ## 1. Doubles -/

namespace Binary64

/-- The double, but a zero loses its sign. -/
def unsignZero (x : Binary64) : Binary64 := if x.isZero then zero else x

theorem unsignZero_eq_of_numericEq {x y : Binary64} (h : x.numericEq y) :
    x.unsignZero = y.unsignZero := by
  simp only [numericEq, Bool.and_eq_true, beq_iff_eq] at h
  have hsigned := h.2
  have hmagnitude : x.magnitudeBits = y.magnitudeBits := by
    apply UInt64.toNat_inj.1
    unfold signedMagnitude at hsigned
    split at hsigned <;> split at hsigned <;> omega
  have hzero : x.isZero = y.isZero := by rw [isZero, isZero, hmagnitude]
  unfold unsignZero
  rw [hzero]
  split
  · rfl
  · rename_i hnot
    refine eq_of_negative_eq ?_ hmagnitude
    -- Past zero a magnitude and its opposite differ, so the signs are the same.
    have hpos : y.magnitudeBits.toNat ≠ 0 := fun heq =>
      hnot (beq_iff_eq.2 (UInt64.toNat_inj.1 heq))
    unfold signedMagnitude at hsigned
    rw [hmagnitude] at hsigned
    cases hx : x.negative <;> cases hy : y.negative <;> rw [hx, hy] at hsigned <;>
      simp only [Bool.false_eq_true, if_true, if_false] at hsigned <;> omega

theorem numericEq_comm (x y : Binary64) : x.numericEq y = y.numericEq x := by
  rw [numericEq, numericEq, Bool.and_comm (!x.isNaN), Bool.beq_comm]

theorem numericEq_trans {x y z : Binary64} (h : x.numericEq y) (h' : y.numericEq z) :
    x.numericEq z := by
  simp only [numericEq, Bool.and_eq_true, beq_iff_eq] at h h' ⊢
  exact ⟨⟨h.1.1, h'.1.2⟩, h.2.trans h'.2⟩

theorem isNaN_of_isFinite {x : Binary64} (h : x.isFinite) : x.isNaN = false :=
  decide_eq_false (UInt64.not_lt.2 (UInt64.le_of_lt (of_decide_eq_true h)))

theorem numericEq_of_unsignZero_eq {x y : Binary64} (h : x.unsignZero = y.unsignZero)
    (hfinite : x.isFinite) : x.numericEq y := by
  have hnan := isNaN_of_isFinite hfinite
  have hself (z : Binary64) (hz : z.isNaN = false) : z.numericEq z := by
    rw [numericEq, hz, beq_self_eq_true]
    rfl
  have hofZero {z : Binary64} (hz : z.isZero) : z.isNaN = false ∧ z.signedMagnitude = 0 := by
    have hbits : z.magnitudeBits = 0 := beq_iff_eq.1 hz
    rw [isNaN, signedMagnitude, hbits]
    exact ⟨rfl, by split <;> rfl⟩
  unfold unsignZero at h
  split at h
  · rename_i hx
    have hy : y.isZero := by
      split at h
      · assumption
      · rw [← h]; rfl
    rw [numericEq, (hofZero hx).1, (hofZero hx).2, (hofZero hy).1, (hofZero hy).2]
    rfl
  · rename_i hx
    split at h
    · exact absurd (by rw [h]; rfl) hx
    · rw [← h]
      exact hself x hnan

end Binary64

/-- The canonical text of a zero does not show its sign. -/
theorem Json.real_canonical_unsignZero (x : Binary64) :
    Json.canonical.real x.unsignZero = Json.canonical.real x := by
  unfold Binary64.unsignZero
  split
  · rename_i hzero
    have hbits : x.magnitudeBits = 0 := beq_iff_eq.1 hzero
    have hnan : x.isNaN = false := by rw [Binary64.isNaN, hbits]; rfl
    have hinfinite : x.isInfinite = false := by rw [Binary64.isInfinite, hbits]; rfl
    have hmagnitude : Json.canonical.number.writeMagnitude x =
        Json.canonical.number.writeMagnitude Binary64.zero := by
      rw [Decimal.Layout.writeMagnitude, Decimal.Layout.writeMagnitude, Decimal.shortest,
        if_pos hzero]
      rfl
    rw [Json.Style.real, Json.Style.real, Decimal.Layout.write, Decimal.Layout.write, hnan,
      hinfinite, hzero, hmagnitude]
    -- The digits are those of zero, and no sign is written before them.
    have hsign : Json.canonical.number.zeroSign = false := rfl
    simp only [hsign, Bool.not_true, Bool.or_self, Bool.and_false, Bool.false_eq_true, if_false]
    rfl
  · rfl

/-! ## 2. Maps -/

namespace SortedMap

variable {α β γ δ : Type} [Ord α]

/-- Maps with the same keys and related values. -/
def Same (R : β → β → Prop) (a b : SortedMap α β) : Prop :=
  List.Forall₂ (fun x y => x.1 = y.1 ∧ R x.2 y.2) a.toList b.toList

theorem same_of_mapValues_eq {R : β → β → Prop} {f : β → γ} {a b : SortedMap α β}
    (hR : ∀ x ∈ a.toList, ∀ value, f x.2 = f value → R x.2 value)
    (h : a.mapValues f = b.mapValues f) : Same R a b := by
  have hentries : a.toList.map (fun entry => (entry.1, f entry.2)) =
      b.toList.map fun entry => (entry.1, f entry.2) := congrArg toList h
  unfold Same
  generalize a.toList = list at hR hentries
  generalize b.toList = other at hentries
  -- Entry by entry: the function is applied to the values and keeps the keys.
  induction list generalizing other with
  | nil =>
    rw [List.map_nil, List.nil_eq, List.map_eq_nil_iff] at hentries
    rw [hentries]
    exact .nil
  | cons x list ih =>
    obtain ⟨y, rest, rfl, hhead, htail⟩ := List.map_eq_cons_iff.1 hentries.symm
    obtain ⟨hkey, hvalue⟩ := Prod.mk.inj hhead
    exact .cons ⟨hkey.symm, hR x List.mem_cons_self _ hvalue.symm⟩
      (ih (fun z hz => hR z (List.mem_cons_of_mem _ hz)) _ htail.symm)

theorem mapValues_eq_of_same {R : β → β → Prop} {f : β → γ}
    (hR : ∀ {x y}, R x y → f x = f y) {a b : SortedMap α β} (h : Same R a b) :
    a.mapValues f = b.mapValues f := by
  have hentries : a.toList.map (fun entry => (entry.1, f entry.2)) =
      b.toList.map fun entry => (entry.1, f entry.2) := by
    rw [← List.forall₂_eq_eq_eq, List.forall₂_map_left_iff, List.forall₂_map_right_iff]
    exact h.imp fun x y hxy => Prod.ext hxy.1 (hR hxy.2)
  unfold mapValues
  congr 1

theorem same_mapValues {R : γ → γ → Prop} {f g : β → γ} {map : SortedMap α β}
    (h : ∀ entry ∈ map.toList, R (f entry.2) (g entry.2)) :
    Same R (map.mapValues f) (map.mapValues g) := by
  show List.Forall₂ _ (map.toList.map fun entry => (entry.1, f entry.2))
    (map.toList.map fun entry => (entry.1, g entry.2))
  rw [List.forall₂_map_left_iff, List.forall₂_map_right_iff, List.forall₂_same]
  exact fun entry hentry => ⟨rfl, h entry hentry⟩

theorem mapValues_id (map : SortedMap α β) : map.mapValues id = map := by
  unfold mapValues
  congr 1
  exact List.map_id _

theorem mapValues_mapValues (f : β → γ) (g : γ → δ) (map : SortedMap α β) :
    (map.mapValues f).mapValues g = map.mapValues fun value => g (f value) := by
  unfold mapValues
  congr 1
  exact List.map_map

theorem mapValues_congr {f g : β → γ} {map : SortedMap α β}
    (h : ∀ entry ∈ map.toList, f entry.2 = g entry.2) : map.mapValues f = map.mapValues g := by
  unfold mapValues
  congr 1
  exact List.map_congr_left fun entry hentry => by rw [h entry hentry]

end SortedMap

/-! ## 3. Records -/

/-- Numerically equal statistics. -/
def Statistics.Same (a b : Statistics) : Prop :=
  a.average.numericEq b.average ∧ a.p99.numericEq b.p99 ∧ a.max.numericEq b.max ∧
    a.min.numericEq b.min ∧ a.stdDev.numericEq b.stdDev ∧ a.periodSecs = b.periodSecs

def Metrics.Same (a b : Metrics) : Prop := SortedMap.Same Statistics.Same a b

def Results.Same (a b : Results) : Prop := SortedMap.Same Metrics.Same a b

/-- Records that are equal but for the signs of their zeros. -/
structure Record.Same (a b : Record) : Prop where
  revisionHash : a.revisionHash = b.revisionHash
  commitDate : a.commitDate = b.commitDate
  yearPartition : a.yearPartition = b.yearPartition
  isRelease : a.isRelease = b.isRelease
  releaseLabel : a.releaseLabel = b.releaseLabel
  versionToken : a.versionToken = b.versionToken
  results : Results.Same a.results b.results

theorem Statistics.same_of_mapReals_eq {a b : Statistics}
    (h : a.mapReals Binary64.unsignZero = b.mapReals Binary64.unsignZero)
    (hfinite : ∀ x ∈ a.reals, x.isFinite) : a.Same b := by
  simp only [reals, List.forall_mem_cons] at hfinite
  obtain ⟨haverage, hp99, hmax, hmin, hstdDev, -⟩ := hfinite
  rw [mapReals, mapReals, Statistics.mk.injEq] at h
  obtain ⟨heqAverage, heqP99, heqMax, heqMin, heqStdDev, hperiod⟩ := h
  exact ⟨Binary64.numericEq_of_unsignZero_eq heqAverage haverage,
    Binary64.numericEq_of_unsignZero_eq heqP99 hp99,
    Binary64.numericEq_of_unsignZero_eq heqMax hmax,
    Binary64.numericEq_of_unsignZero_eq heqMin hmin,
    Binary64.numericEq_of_unsignZero_eq heqStdDev hstdDev, hperiod⟩

theorem Statistics.mapReals_eq_of_same {a b : Statistics} (h : a.Same b) :
    a.mapReals Binary64.unsignZero = b.mapReals Binary64.unsignZero := by
  obtain ⟨haverage, hp99, hmax, hmin, hstdDev, hperiod⟩ := h
  rw [mapReals, mapReals, Statistics.mk.injEq]
  exact ⟨Binary64.unsignZero_eq_of_numericEq haverage, Binary64.unsignZero_eq_of_numericEq hp99,
    Binary64.unsignZero_eq_of_numericEq hmax, Binary64.unsignZero_eq_of_numericEq hmin,
    Binary64.unsignZero_eq_of_numericEq hstdDev, hperiod⟩

theorem Metrics.mapReals_eq_of_same {a b : Metrics} (h : Metrics.Same a b) :
    Metrics.mapReals Binary64.unsignZero a = Metrics.mapReals Binary64.unsignZero b :=
  SortedMap.mapValues_eq_of_same (R := Statistics.Same) Statistics.mapReals_eq_of_same h

theorem Results.mapReals_eq_of_same {a b : Results} (h : Results.Same a b) :
    Results.mapReals Binary64.unsignZero a = Results.mapReals Binary64.unsignZero b :=
  SortedMap.mapValues_eq_of_same (R := Metrics.Same) Metrics.mapReals_eq_of_same h

theorem Results.same_of_mapReals_eq {a b : Results}
    (h : Results.mapReals Binary64.unsignZero a = Results.mapReals Binary64.unsignZero b)
    (hfinite : ∀ x ∈ Results.reals a, x.isFinite) : Results.Same a b := by
  refine SortedMap.same_of_mapValues_eq (fun entry hentry metrics hmetrics => ?_) h
  refine SortedMap.same_of_mapValues_eq (fun other hother statistics hstatistics => ?_) hmetrics
  refine Statistics.same_of_mapReals_eq hstatistics fun x hx => hfinite x ?_
  exact List.mem_flatMap.2 ⟨entry, hentry, List.mem_flatMap.2 ⟨other, hother, hx⟩⟩

section MapReals

variable {f g : Binary64 → Binary64}

/-- Functions that are numerically equal at the doubles of some statistics make the same of them. -/
theorem Statistics.same_mapReals {statistics : Statistics}
    (h : ∀ x ∈ statistics.reals, (f x).numericEq (g x)) :
    (statistics.mapReals f).Same (statistics.mapReals g) := by
  simp only [reals, List.forall_mem_cons] at h
  obtain ⟨haverage, hp99, hmax, hmin, hstdDev, -⟩ := h
  exact ⟨haverage, hp99, hmax, hmin, hstdDev, rfl⟩

theorem Metrics.same_mapReals {metrics : Metrics}
    (h : ∀ x ∈ Metrics.reals metrics, (f x).numericEq (g x)) :
    Metrics.Same (Metrics.mapReals f metrics) (Metrics.mapReals g metrics) :=
  SortedMap.same_mapValues fun entry hentry => Statistics.same_mapReals fun x hx =>
    h x (List.mem_flatMap.2 ⟨entry, hentry, hx⟩)

theorem Results.same_mapReals {results : Results}
    (h : ∀ x ∈ Results.reals results, (f x).numericEq (g x)) :
    Results.Same (Results.mapReals f results) (Results.mapReals g results) :=
  SortedMap.same_mapValues fun entry hentry => Metrics.same_mapReals fun x hx =>
    h x (List.mem_flatMap.2 ⟨entry, hentry, hx⟩)

theorem Results.mapReals_id (results : Results) : Results.mapReals id results = results := by
  have hmetrics : Metrics.mapReals id = id := funext SortedMap.mapValues_id
  rw [mapReals, hmetrics, SortedMap.mapValues_id]

end MapReals

namespace Record

/-- The record without signs on its zeros. -/
def unsignZeros (record : Record) : Record := record.mapReals Binary64.unsignZero

theorem unsignZeros_eq_iff {a b : Record} :
    a.unsignZeros = b.unsignZeros ↔ a.revisionHash = b.revisionHash ∧
      a.commitDate = b.commitDate ∧ a.yearPartition = b.yearPartition ∧
      a.isRelease = b.isRelease ∧ a.releaseLabel = b.releaseLabel ∧
      a.versionToken = b.versionToken ∧
      Results.mapReals Binary64.unsignZero a.results =
        Results.mapReals Binary64.unsignZero b.results := by
  rw [unsignZeros, unsignZeros, mapReals, mapReals, Record.mk.injEq]

theorem same_of_unsignZeros_eq {a b : Record} (h : a.unsignZeros = b.unsignZeros)
    (hfinite : ∀ x ∈ a.reals, x.isFinite) : a.Same b := by
  obtain ⟨hhash, hdate, hyear, hrelease, hlabel, htoken, hresults⟩ := unsignZeros_eq_iff.1 h
  exact ⟨hhash, hdate, hyear, hrelease, hlabel, htoken,
    Results.same_of_mapReals_eq hresults hfinite⟩

theorem unsignZeros_eq_of_same {a b : Record} (h : a.Same b) : a.unsignZeros = b.unsignZeros :=
  unsignZeros_eq_iff.2 ⟨h.revisionHash, h.commitDate, h.yearPartition, h.isRelease, h.releaseLabel,
    h.versionToken, Results.mapReals_eq_of_same h.results⟩

/-- Doubles that differ from those of a record only in the signs of zeros leave its class. -/
theorem unsignZeros_mapReals {record : Record} {f : Binary64 → Binary64}
    (h : ∀ x ∈ record.reals, (f x).unsignZero = x.unsignZero) :
    (record.mapReals f).unsignZeros = record.unsignZeros := by
  refine unsignZeros_eq_iff.2 ⟨rfl, rfl, rfl, rfl, rfl, rfl, ?_⟩
  show Results.mapReals _ (Results.mapReals f record.results) = _
  rw [Results.mapReals, Results.mapReals, SortedMap.mapValues_mapValues]
  refine SortedMap.mapValues_congr fun entry hentry => ?_
  rw [Metrics.mapReals, Metrics.mapReals, SortedMap.mapValues_mapValues]
  refine SortedMap.mapValues_congr fun other hother => ?_
  -- The doubles of one metric of one setting are among those of the record.
  have hreal (x : Binary64) (hx : x ∈ other.2.reals) : (f x).unsignZero = x.unsignZero :=
    h x (List.mem_flatMap.2 ⟨entry, hentry, List.mem_flatMap.2 ⟨other, hother, hx⟩⟩)
  simp only [Statistics.reals, List.forall_mem_cons] at hreal
  obtain ⟨haverage, hp99, hmax, hmin, hstdDev, -⟩ := hreal
  simp only [Statistics.mapReals, haverage, hp99, hmax, hmin, hstdDev]

theorem json_canonical_unsignZeros (record : Record) :
    record.unsignZeros.json Json.canonical = record.json Json.canonical := by
  have hstatistics (statistics : Statistics) :
      (statistics.mapReals Binary64.unsignZero).json Json.canonical =
        statistics.json Json.canonical := by
    simp only [Statistics.json, Statistics.mapReals, Json.real_canonical_unsignZero]
  have hmetrics (metrics : Metrics) :
      Metrics.json Json.canonical (Metrics.mapReals Binary64.unsignZero metrics) =
        Metrics.json Json.canonical metrics := by
    simp only [Metrics.json, Metrics.mapReals, SortedMap.mapValues, SortedMap.toList, List.map_map,
      Function.comp_def, hstatistics]
  have hresults (results : Results) :
      Results.json Json.canonical (Results.mapReals Binary64.unsignZero results) =
        Results.json Json.canonical results := by
    simp only [Results.json, Results.mapReals, SortedMap.mapValues, SortedMap.toList, List.map_map,
      Function.comp_def, hmetrics]
  rw [json, json, unsignZeros, mapReals, hresults]

/-- The canonical texts of records that are the same but for the signs of zeros are one. -/
theorem json_canonical_congr {a b : Record} (h : a.unsignZeros = b.unsignZeros) :
    a.json Json.canonical = b.json Json.canonical := by
  rw [← json_canonical_unsignZeros a, h, json_canonical_unsignZeros]

end Record

/-! ## 4. Deltas -/

theorem SortedMap.mapValues_insertIfAbsent {α β γ : Type} [Ord α] [Std.TransOrd α]
    [Std.LawfulEqOrd α] (f : β → γ) (map : SortedMap α β) (key : α) (value : β) :
    (map.insertIfAbsent key value).mapValues f =
      (map.mapValues f).insertIfAbsent key (f value) := by
  apply ext_find?
  intro other
  rw [find?_mapValues, find?_insertIfAbsent, find?_insertIfAbsent, find?_mapValues, find?_mapValues]
  split
  · rw [Option.map_some, Option.getD_map]
  · rfl

theorem Delta.mapReals_addMissing (f : Binary64 → Binary64) (results added : Results) :
    Results.mapReals f (addMissing results added) =
      addMissing (Results.mapReals f results) (Results.mapReals f added) := by
  -- Adding the entries one by one, with the function before or after each.
  have hadd (entries : List (Setting × Metrics)) (results : Results) :
      Results.mapReals f (entries.foldl (fun results entry =>
          results.insertIfAbsent entry.1 entry.2) results) =
        (entries.map fun entry => (entry.1, Metrics.mapReals f entry.2)).foldl
          (fun results entry => results.insertIfAbsent entry.1 entry.2)
          (Results.mapReals f results) := by
    induction entries generalizing results with
    | nil => rfl
    | cons entry entries ih =>
      have hstep : Results.mapReals f (results.insertIfAbsent entry.1 entry.2) =
          (Results.mapReals f results).insertIfAbsent entry.1 (Metrics.mapReals f entry.2) :=
        SortedMap.mapValues_insertIfAbsent (Metrics.mapReals f) results entry.1 entry.2
      rw [List.foldl_cons, ih, List.map_cons, List.foldl_cons, hstep]
  exact hadd added.toList results

/-- A delta makes of records that are the same but for the signs of zeros such records again. -/
theorem Delta.unsignZeros_applyTo_congr (delta : Delta) {a b : Record}
    (h : a.unsignZeros = b.unsignZeros) :
    (delta.applyTo a).unsignZeros = (delta.applyTo b).unsignZeros := by
  obtain ⟨hhash, hdate, hyear, hrelease, hlabel, -, hresults⟩ := Record.unsignZeros_eq_iff.1 h
  refine Record.unsignZeros_eq_iff.2 ⟨?_, hdate, hyear, ?_, ?_, rfl, ?_⟩
  · rw [applyTo, applyTo, hhash]
  · rw [applyTo, applyTo, hrelease]
  · rw [applyTo, applyTo, hlabel]
  · rw [applyTo, applyTo, mapReals_addMissing, mapReals_addMissing, hresults]

end RevisionLedger
