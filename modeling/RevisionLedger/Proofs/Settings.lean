import Mathlib
import RevisionLedger.Proofs.Record.MergeAlgebra

/-!
# Composite settings

The setting of an experiment is named by a log volume and a throughput with a hyphen between them.
A hyphen is a minus sign too, but in a number it is the first character if it is there at all. So
the hyphen that parts two whole numbers is the first one behind the first character, and the one
that parts two texts is the first one, if there is none in the first text.

Hence pairs of either kind are told apart by their settings (`Setting.injOn_wholePairs`,
`Setting.injOn_textPairs`), and whatever has been recorded for other pairs, the result of a pair is
never taken for one that is recorded (`Setting.pairs_distinct`).
-/

namespace RevisionLedger

namespace Setting

/-! ## 1. Where the halves of a name part -/

/-- Names agree on what is before and behind their first hyphens. -/
theorem halves_eq {a b c d : List Char} (ha : '-' ∉ a) (hc : '-' ∉ c)
    (h : a ++ '-' :: b = c ++ '-' :: d) : a = c ∧ b = d := by
  induction a generalizing c with
  | nil =>
    cases c with
    | nil => exact ⟨rfl, (List.cons_eq_cons.1 h).2⟩
    | cons first c => exact absurd ((List.cons_eq_cons.1 h).1 ▸ List.mem_cons_self) hc
  | cons first a ih =>
    obtain ⟨hfirst, ha⟩ := List.ne_and_not_mem_of_not_mem_cons ha
    cases c with
    | nil => exact absurd (List.cons_eq_cons.1 h).1.symm hfirst
    | cons other c =>
      obtain ⟨rfl, hrest⟩ := List.cons_eq_cons.1 h
      obtain ⟨rfl, rfl⟩ := ih ha (List.not_mem_of_not_mem_cons hc) hrest
      exact ⟨rfl, rfl⟩

theorem hyphen_not_mem_toDigits (n : Nat) : '-' ∉ Nat.toDigits 10 n := fun h =>
  absurd (Nat.isDigit_of_mem_toDigits (by decide) (by decide) h) (by decide)

/-- A number has a hyphen at most as its first character. -/
theorem exists_cons_toString (value : Int) :
    ∃ first rest, (toString value).toList = first :: rest ∧ '-' ∉ rest := by
  rw [Int.toString_eq_repr, Int.repr_eq_if]
  split
  · obtain ⟨first, rest, hdigits⟩ := List.exists_cons_of_ne_nil
      (Nat.toDigits_ne_nil (n := value.toNat) (b := 10))
    refine ⟨first, rest, by rw [Nat.toList_repr, hdigits], fun hmem => ?_⟩
    exact hyphen_not_mem_toDigits value.toNat (hdigits ▸ List.mem_cons_of_mem first hmem)
  · exact ⟨'-', _, by rw [String.toList_append, Nat.toList_repr]; rfl, hyphen_not_mem_toDigits _⟩

theorem toList_ofParts (logVolume throughput : Part) :
    (ofParts logVolume throughput).text.toList =
      logVolume.display.toList ++ '-' :: throughput.display.toList := by
  simp [ofParts]

/-! ## 2. Pairs of one kind -/

def ofPair (pair : Part × Part) : Setting := ofParts pair.1 pair.2

/-- Pairs of whole numbers. -/
def wholePairs : Set (Part × Part) :=
  Set.range fun pair : Int × Int => (.whole pair.1, .whole pair.2)

/-- Pairs of texts without a hyphen in the first one. -/
def textPairs : Set (Part × Part) :=
  (fun pair : String × String => (.text pair.1, .text pair.2)) '' {pair | '-' ∉ pair.1.toList}

theorem injOn_wholePairs : Set.InjOn ofPair wholePairs := by
  rintro _ ⟨⟨a, b⟩, rfl⟩ _ ⟨⟨c, d⟩, rfl⟩ h
  have hname := congrArg (·.text.toList) h
  simp only [ofPair, toList_ofParts, Part.display] at hname
  obtain ⟨first, rest, ha, hrest⟩ := exists_cons_toString a
  obtain ⟨other, rest', hc, hrest'⟩ := exists_cons_toString c
  -- A leading hyphen is a sign, so the names are compared from the second character on.
  rw [ha, hc] at hname
  obtain ⟨rfl, htail⟩ := List.cons_eq_cons.1 hname
  obtain ⟨rfl, hsecond⟩ := halves_eq hrest hrest' htail
  obtain rfl := Int.repr_injective (String.toList_inj.1 (ha.trans hc.symm))
  obtain rfl := Int.repr_injective (String.toList_inj.1 hsecond)
  rfl

theorem injOn_textPairs : Set.InjOn ofPair textPairs := by
  rintro _ ⟨⟨a, b⟩, ha, rfl⟩ _ ⟨⟨c, d⟩, hc, rfl⟩ h
  have hname := congrArg (·.text.toList) h
  simp only [ofPair, toList_ofParts, Part.display] at hname
  obtain ⟨hfirst, hsecond⟩ := halves_eq ha hc hname
  obtain rfl := String.toList_inj.1 hfirst
  obtain rfl := String.toList_inj.1 hsecond
  rfl

-- A hyphen in the first text can be taken for the one between the texts.
example : ofPair (.text "5", .text "50-warm") = ofPair (.text "5-50", .text "warm") := by decide

end Setting

/-! ## 3. Recording experiments -/

/-- The record after the results of experiments have been merged into it, each of them under the
setting of its pair. -/
def Record.mergeAll (record : Record)
    (experiments : List (PartialResult × Setting.Part × Setting.Part)) : Record :=
  experiments.foldl (fun record experiment =>
    Merge.into experiment.1 (Setting.ofPair experiment.2) record) record

theorem Record.hasSetting_mergeAll
    {experiments : List (PartialResult × Setting.Part × Setting.Part)} {setting : Setting}
    (h : ∀ experiment ∈ experiments, Setting.ofPair experiment.2 ≠ setting)
    (record : Record) :
    (record.mergeAll experiments).hasSetting setting = record.hasSetting setting := by
  induction experiments generalizing record with
  | nil => rfl
  | cons experiment experiments ih =>
    obtain ⟨hfirst, hrest⟩ := List.forall_mem_cons.1 h
    exact (ih hrest _).trans (Merge.hasSetting_into_of_ne experiment.1 record hfirst.symm)

theorem Merge.of_eq_alreadyRecorded_iff {incoming : PartialResult} {current : Record}
    {setting : Setting} :
    of incoming current setting = .alreadyRecorded ↔ current.hasSetting setting := by
  refine ⟨fun h => ?_, of_eq_alreadyRecorded⟩
  unfold of at h
  split at h
  · assumption
  · split at h <;> cases h

/-- Different pairs of one kind have different settings. So the result of a pair is found recorded
after the results of other pairs exactly if it was before. -/
theorem Setting.pairs_distinct {kind : Set (Part × Part)}
    (hkind : kind = wholePairs ∨ kind = textPairs) :
    Set.InjOn ofPair kind ∧
      ∀ pair ∈ kind, ∀ experiments : List (PartialResult × Part × Part),
        (∀ experiment ∈ experiments, experiment.2 ∈ kind ∧ experiment.2 ≠ pair) →
          ∀ incoming record,
            Merge.of incoming (record.mergeAll experiments) (ofPair pair) = .alreadyRecorded ↔
              Merge.of incoming record (ofPair pair) = .alreadyRecorded := by
  have hinj : Set.InjOn ofPair kind := by
    rcases hkind with rfl | rfl
    · exact injOn_wholePairs
    · exact injOn_textPairs
  refine ⟨hinj, fun pair hpair experiments hothers incoming record => ?_⟩
  have hsettings (experiment) (hmem : experiment ∈ experiments) :
      ofPair experiment.2 ≠ ofPair pair := fun heq =>
    (hothers experiment hmem).2 (hinj (hothers experiment hmem).1 hpair heq)
  rw [Merge.of_eq_alreadyRecorded_iff, Merge.of_eq_alreadyRecorded_iff,
    Record.hasSetting_mergeAll hsettings]

/-- The same digits with the sign on the one number and on the other. -/
theorem Setting.pairs_distinct_signs :
    let pair : Part × Part := (.whole (-1), .whole 1)
    let other : Part × Part := (.whole 1, .whole (-1))
    let result (pair : Part × Part) : PartialResult :=
      .single ⟨"4f1c"⟩ ⟨2024, 17⟩ (ofPair pair) .empty ⟨""⟩
    let record := (result (.whole 5, .whole 50)).toRecord
    ofPair pair ≠ ofPair other ∧
      Merge.of (result pair) (record.mergeAll [(result other, other)]) (ofPair pair) ≠
        .alreadyRecorded := by
  intro pair other result record
  have hpair : pair ∈ wholePairs := ⟨(-1, 1), rfl⟩
  have hother : other ∈ wholePairs := ⟨(1, -1), rfl⟩
  have hne : other ≠ pair := by simp [pair, other]
  obtain ⟨hinj, hkept⟩ := pairs_distinct (Or.inl rfl : wholePairs = wholePairs ∨ _)
  refine ⟨fun heq => hne (hinj hother hpair heq.symm), fun hrecorded => ?_⟩
  have hbefore := (hkept pair hpair [(result other, other)] (by simpa using ⟨hother, hne⟩)
    (result pair) record).1 hrecorded
  exact absurd hbefore (by decide)

end RevisionLedger
