import RevisionLedger.Proofs.Json.Doubles
import RevisionLedger.Proofs.Json.Refusals

/-!
# Which records can be read back

The canonical text of a double is read back as a numerically equal one if the double is finite, and
is refused if it is not. So the text of a record can be read exactly if all its doubles are finite:
a single one that is not makes the text of the whole record one that no reader takes.
-/

namespace RevisionLedger

open Json (Reader Reads Refuses canonical)

/-! ## 1. Doubles -/

theorem Binary64.unsignZero_unsignZero (x : Binary64) : x.unsignZero.unsignZero = x.unsignZero := by
  by_cases h : x.isZero
  · have hzero : x.unsignZero = zero := if_pos h
    rw [hzero]
    rfl
  · have hsame : x.unsignZero = x := if_neg h
    rw [hsame, hsame]

theorem Binary64.numericEq_unsignZero {x : Binary64} (h : x.isFinite) :
    x.numericEq x.unsignZero :=
  numericEq_of_unsignZero_eq x.unsignZero_unsignZero.symm h

theorem Json.rereads_canonical {x : Binary64} (h : x.isFinite) : canonical.Rereads x :=
  ⟨h, _, Json.decode_real_canonical h⟩

theorem Json.refuses_real_canonical {x : Binary64} (h : ¬x.isFinite) :
    Refuses Reader.real (canonical.real x) := by
  have hnull : canonical.real x = "null" := by
    have hle : Binary64.infinityBits ≤ x.magnitudeBits :=
      UInt64.not_lt.1 fun hlt => h (decide_eq_true hlt)
    rw [Json.Style.real, Decimal.Layout.write]
    by_cases hnan : x.isNaN
    · rw [if_pos hnan]
      rfl
    · have hinfinite : x.isInfinite := by
        apply beq_iff_eq.2
        exact UInt64.le_antisymm (UInt64.not_lt.1 fun hlt => hnan (decide_eq_true hlt)) hle
      rw [if_neg hnan, if_pos hinfinite]
      split <;> rfl
  rw [hnull]
  exact Json.refuses_null

/-! ## 2. Records -/

/-- All doubles of a record are finite. -/
def Record.Finite (record : Record) : Prop := ∀ x ∈ record.reals, x.isFinite

instance (record : Record) : Decidable record.Finite :=
  inferInstanceAs (Decidable (∀ x ∈ record.reals, x.isFinite))

theorem visible_wholeSuffix : canonical.number.wholeSuffix.toList.all Json.isVisible := rfl

theorem Json.reads_or_refuses_real {α : Type} (x : Binary64) (f : Binary64 → α) :
    Reads (do let x ← Reader.real; return f x) (canonical.real x) (f (canonical.reread x)) ∨
      Refuses (do let x ← Reader.real; return f x) (canonical.real x) := by
  by_cases h : x.isFinite
  · exact Or.inl ((Json.Style.reads_real visible_wholeSuffix (Json.rereads_canonical h)).map f)
  · exact Or.inr ((Json.refuses_real_canonical h).bind _)

theorem Statistics.refuses {statistics : Statistics} (h : ∃ x ∈ statistics.reals, ¬x.isFinite) :
    Refuses Statistics.shape.reader (statistics.json canonical) := by
  have hreal (x : Binary64) := Json.reads_or_refuses_real (α := Statistics → Statistics) x
  refine Json.Shape.refuses_written
    [⟨"average", _, ({ · with average := canonical.reread statistics.average })⟩,
     ⟨"p99", _, ({ · with p99 := canonical.reread statistics.p99 })⟩,
     ⟨"max", _, ({ · with max := canonical.reread statistics.max })⟩,
     ⟨"min", _, ({ · with min := canonical.reread statistics.min })⟩,
     ⟨"std_dev", _, ({ · with stdDev := canonical.reread statistics.stdDev })⟩,
     ⟨"period_secs", _, ({ · with periodSecs := statistics.periodSecs })⟩]
    (by decide) ?_ ?_
  · refine .cons ⟨rfl, hreal statistics.average _⟩ (.cons ⟨rfl, hreal statistics.p99 _⟩ (.cons
      ⟨rfl, hreal statistics.max _⟩ (.cons ⟨rfl, hreal statistics.min _⟩ (.cons
        ⟨rfl, hreal statistics.stdDev _⟩ (.cons
          ⟨rfl, Or.inl ((Json.reads_uint64 _).map _)⟩ .nil)))))
  · obtain ⟨x, hx, hnot⟩ := h
    have hrefuses := Json.refuses_real_canonical hnot
    simp only [reals, List.mem_cons, List.not_mem_nil, or_false] at hx
    -- The field of the double in question refuses its text.
    have hmem {α : Type} {a : α} (b : α) {list : List α} (h : a ∈ list) := List.mem_cons_of_mem b h
    rcases hx with rfl | rfl | rfl | rfl | rfl
    · exact ⟨_, List.mem_cons_self, _, rfl, hrefuses.bind _⟩
    · exact ⟨_, hmem _ List.mem_cons_self, _, rfl, hrefuses.bind _⟩
    · exact ⟨_, hmem _ (hmem _ List.mem_cons_self), _, rfl, hrefuses.bind _⟩
    · exact ⟨_, hmem _ (hmem _ (hmem _ List.mem_cons_self)), _, rfl, hrefuses.bind _⟩
    · exact ⟨_, hmem _ (hmem _ (hmem _ (hmem _ List.mem_cons_self))), _, rfl, hrefuses.bind _⟩

theorem forall_finite_or (xs : List Binary64) :
    (∀ x ∈ xs, x.isFinite) ∨ ∃ x ∈ xs, ¬x.isFinite := by
  by_cases h : ∀ x ∈ xs, x.isFinite
  · exact Or.inl h
  · right
    simpa only [not_forall, exists_prop] using h

theorem Metrics.refuses {metrics : Metrics} (h : ∃ x ∈ Metrics.reals metrics, ¬x.isFinite) :
    Refuses Metrics.reader (Metrics.json canonical metrics) := by
  have hname (name : String) : id (id name) = name := rfl
  apply Json.refuses_map hname (f := Statistics.mapReals canonical.reread)
  · intro entry _
    rcases forall_finite_or entry.2.reals with hfinite | hnot
    · exact Or.inl (Statistics.reads visible_wholeSuffix fun x hx =>
        Json.rereads_canonical (hfinite x hx))
    · exact Or.inr (Statistics.refuses hnot)
  · obtain ⟨x, hx, hnot⟩ := h
    obtain ⟨entry, hentry, hx⟩ := List.mem_flatMap.1 hx
    exact ⟨entry, hentry, Statistics.refuses ⟨x, hx, hnot⟩⟩

theorem Results.refuses {results : Results} (h : ∃ x ∈ Results.reals results, ¬x.isFinite) :
    Refuses Results.reader (Results.json canonical results) := by
  have hname (setting : Setting) : Setting.mk (Setting.text setting) = setting := rfl
  apply Json.refuses_map hname (f := Metrics.mapReals canonical.reread)
  · intro entry _
    rcases forall_finite_or (Metrics.reals entry.2) with hfinite | hnot
    · exact Or.inl (Metrics.reads visible_wholeSuffix fun x hx =>
        Json.rereads_canonical (hfinite x hx))
    · exact Or.inr (Metrics.refuses hnot)
  · obtain ⟨x, hx, hnot⟩ := h
    obtain ⟨entry, hentry, hx⟩ := List.mem_flatMap.1 hx
    exact ⟨entry, hentry, Metrics.refuses ⟨x, hx, hnot⟩⟩

theorem Record.refuses {record : Record} (h : ¬record.Finite) :
    Refuses Record.shape.reader (record.json canonical) := by
  have hresults : Refuses Results.reader (Results.json canonical record.results) :=
    Results.refuses ((forall_finite_or _).resolve_left h)
  have hlabel := Json.reads_optional_text record.releaseLabel
  refine Json.Shape.refuses_written
    [⟨"revision_hash", _, ({ · with revisionHash := record.revisionHash })⟩,
     ⟨"commit_date", _, ({ · with commitDate := record.commitDate })⟩,
     ⟨"year_partition", _, ({ · with yearPartition := record.yearPartition })⟩,
     ⟨"is_release", _, ({ · with isRelease := record.isRelease })⟩,
     ⟨"release_label", _, ({ · with releaseLabel := record.releaseLabel })⟩,
     ⟨"version_token", _, ({ · with versionToken := record.versionToken })⟩,
     ⟨"results", _, id⟩]
    (by decide) ?_ ?_
  · refine .cons ⟨rfl, .inl (((Json.reads_text _).map RevisionHash.mk).map _)⟩ (.cons
      ⟨rfl, .inl ((Json.reads_int64 _).map _)⟩ (.cons ⟨rfl, .inl ((Json.reads_int32 _).map _)⟩
        (.cons ⟨rfl, .inl ((Json.reads_bool _).map _)⟩ (.cons ⟨rfl, .inl (hlabel.map _)⟩ (.cons
          ⟨rfl, .inl (((Json.reads_text _).map VersionToken.mk).map _)⟩ (.cons
            ⟨rfl, .inr (hresults.bind _)⟩ .nil))))))
  · -- All doubles are in the results, which come last.
    have hmem {α : Type} {a : α} (b : α) {list : List α} (h : a ∈ list) := List.mem_cons_of_mem b h
    exact ⟨_, hmem _ (hmem _ (hmem _ (hmem _ (hmem _ (hmem _ List.mem_cons_self))))), _, rfl,
      hresults.bind _⟩

end RevisionLedger
