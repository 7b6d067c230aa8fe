import RevisionLedger.Proofs.Record.MergeAlgebra

/-!
# Deltas in sequence

After a list of deltas every field of a record comes from one delta, or from the record if no delta
has a say. For the results of a setting it is the first delta that adds the setting, since those
that follow find it taken; for an attribute it is the last delta that sets it
(`Record.find?_applyAll`, `Record.field_applyAll`). The key is never touched.

A delta counts as empty exactly if no record shows it but by its token
(`Delta.isEmpty_iff`). `Record.applyAll_fields` puts both together.
-/

namespace RevisionLedger

/-! ## 1. What is left after a list of deltas -/

namespace Record

theorem applyAll_cons (record : Record) (delta : Delta) (deltas : List Delta) :
    record.applyAll (delta :: deltas) = (delta.applyTo record).applyAll deltas :=
  rfl

/-- The first delta that adds a setting decides, unless the record has it. -/
theorem find?_applyAll (record : Record) (deltas : List Delta) (setting : Setting) :
    (record.applyAll deltas).results.find? setting =
      (record.results.find? setting).or (deltas.findSome? (·.addedResults.find? setting)) := by
  induction deltas generalizing record with
  | nil => rw [List.findSome?_nil, Option.or_none]; rfl
  | cons delta deltas ih =>
    rw [applyAll_cons, ih, Delta.find?_applyTo, Option.or_assoc, List.findSome?_cons]
    cases delta.addedResults.find? setting <;> rfl

/-- The last delta that sets an attribute decides. -/
theorem field_applyAll {α : Type} {field : Record → α} {set? : Delta → Option α}
    (h : ∀ delta record, field (delta.applyTo record) = (set? delta).getD (field record))
    (record : Record) (deltas : List Delta) :
    field (record.applyAll deltas) =
      (deltas.reverse.findSome? set?).getD (field record) := by
  induction deltas generalizing record with
  | nil => rfl
  | cons delta deltas ih =>
    -- The first delta is the last one that is asked, and then the record.
    rw [applyAll_cons, ih, h, List.reverse_cons, List.findSome?_append, Option.getD_or,
      List.findSome?_singleton]

theorem releaseLabel_applyAll (record : Record) (deltas : List Delta) :
    (record.applyAll deltas).releaseLabel =
      (deltas.reverse.findSome? (·.releaseLabel)).or record.releaseLabel := by
  have hlabel (delta : Delta) (record : Record) : (delta.applyTo record).releaseLabel =
      (delta.releaseLabel.map some).getD record.releaseLabel := by
    cases h : delta.releaseLabel <;> simp [Delta.applyTo, h]
  have hlast : deltas.reverse.findSome? (fun delta => delta.releaseLabel.map some) =
      (deltas.reverse.findSome? (·.releaseLabel)).map some := by
    rw [List.map_findSome?]
    rfl
  rw [field_applyAll hlabel, hlast]
  cases deltas.reverse.findSome? (·.releaseLabel) <;> rfl

theorem versionToken_applyAll (record : Record) (deltas : List Delta) :
    (record.applyAll deltas).versionToken =
      (deltas.getLast?.map Delta.versionToken).getD record.versionToken := by
  have htoken (delta : Delta) (record : Record) : (delta.applyTo record).versionToken =
      (some delta.versionToken).getD record.versionToken := rfl
  rw [field_applyAll htoken, List.getLast?_eq_head?_reverse]
  cases deltas.reverse <;> rfl

theorem key_applyAll (record : Record) (deltas : List Delta) :
    (record.applyAll deltas).key = record.key := by
  induction deltas generalizing record with
  | nil => rfl
  | cons delta deltas ih => exact ih (delta.applyTo record)

end Record

/-! ## 2. Empty deltas -/

namespace SortedMap

theorem isEmpty_iff {α β : Type} [Ord α] [Std.TransOrd α] [Std.LawfulEqOrd α]
    {map : SortedMap α β} : map.isEmpty ↔ map = empty := by
  rw [isEmpty, List.isEmpty_iff]
  cases map
  simp [empty]

end SortedMap

namespace Delta

/-- A record on which every change of the delta shows. -/
def contrast (delta : Delta) : Record where
  revisionHash := ⟨(delta.revisionHash.getD default).text.push '+'⟩
  commitDate := 0
  yearPartition := 0
  isRelease := !delta.isRelease.getD false
  releaseLabel := none
  versionToken := delta.versionToken
  results := .empty

theorem applyTo_of_isEmpty {delta : Delta} (h : delta.isEmpty) (record : Record) :
    delta.applyTo record = { record with versionToken := delta.versionToken } := by
  obtain ⟨added, flag, label, hash, token⟩ := delta
  simp only [isEmpty, Bool.and_eq_true, SortedMap.isEmpty_iff, Option.isNone_iff_eq_none] at h
  obtain ⟨⟨⟨rfl, rfl⟩, rfl⟩, rfl⟩ := h
  rfl

theorem isEmpty_of_contrast {delta : Delta}
    (h : delta.applyTo delta.contrast = delta.contrast) : delta.isEmpty := by
  have hresults : delta.addedResults = .empty := SortedMap.ext_find? fun setting => by
    have hfind := find?_applyTo delta delta.contrast setting
    rw [h] at hfind
    exact hfind.symm
  have hflag : delta.isRelease = none := by
    have hflag : delta.isRelease.getD _ = delta.contrast.isRelease := congrArg Record.isRelease h
    cases hset : delta.isRelease <;> simp_all [contrast]
  have hlabel : delta.releaseLabel = none := by
    have hlabel : delta.releaseLabel.or none = none := congrArg Record.releaseLabel h
    rwa [Option.or_none] at hlabel
  have hhash : delta.revisionHash = none := by
    have hhash : delta.revisionHash.getD _ = delta.contrast.revisionHash :=
      congrArg Record.revisionHash h
    cases hset : delta.revisionHash with
    | none => rfl
    | some hash =>
      -- The hash would be itself with one more character.
      have hlength := congrArg (·.text.length) hhash
      simp [contrast, hset] at hlength
  simp [isEmpty, hresults, hflag, hlabel, hhash, SortedMap.isEmpty_iff]

theorem isEmpty_iff {delta : Delta} : delta.isEmpty ↔ ∀ record : Record,
    delta.applyTo record = { record with versionToken := delta.versionToken } :=
  ⟨applyTo_of_isEmpty, fun h => isEmpty_of_contrast (h delta.contrast)⟩

end Delta

/-! ## 3. The law of a sequence -/

/-- A setting has the metrics of the record, or of the first delta that adds it, and no other
setting is there. The release flag, the label and the hash are those of the last delta that sets
them, the token is that of the last delta, and the key stays the same all the time. A delta is empty
exactly if it changes nothing but the token of any record. -/
theorem Record.applyAll_fields (record : Record) (deltas : List Delta) :
    (∀ setting, (record.applyAll deltas).results.find? setting =
        (record.results.find? setting).or
          (deltas.findSome? (·.addedResults.find? setting))) ∧
      (record.applyAll deltas).isRelease =
        (deltas.reverse.findSome? (·.isRelease)).getD record.isRelease ∧
      (record.applyAll deltas).releaseLabel =
        (deltas.reverse.findSome? (·.releaseLabel)).or record.releaseLabel ∧
      (record.applyAll deltas).revisionHash =
        (deltas.reverse.findSome? (·.revisionHash)).getD record.revisionHash ∧
      (record.applyAll deltas).versionToken =
        (deltas.getLast?.map Delta.versionToken).getD record.versionToken ∧
      (∀ count, (record.applyAll (deltas.take count)).key = record.key) ∧
      ∀ delta : Delta, delta.isEmpty ↔ ∀ other : Record,
        delta.applyTo other = { other with versionToken := delta.versionToken } := by
  refine ⟨record.find?_applyAll deltas, ?_, record.releaseLabel_applyAll deltas, ?_,
    record.versionToken_applyAll deltas, fun count => record.key_applyAll _,
    fun delta => Delta.isEmpty_iff⟩
  · exact field_applyAll (fun _ _ => rfl) record deltas
  · exact field_applyAll (fun _ _ => rfl) record deltas

end RevisionLedger
