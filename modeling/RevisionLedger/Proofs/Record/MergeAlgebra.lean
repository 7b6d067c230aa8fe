import RevisionLedger.Proofs.Record.Growth

/-!
# The algebra of merging

A merge finds something to write exactly if the record lacks the setting and the partial result has
it. What is written is the setting and what belongs to the version, so the record takes nothing else
from the partial result (`Record.Takes`). From then on the setting is taken: no delta gives it up.

Two partial results for different settings can be merged in either order. The one attribute on which
the order can tell is the release flag, if both set it (`Merge.merge_algebra`).
-/

namespace RevisionLedger

/-! ## 1. What a record takes -/

/-- The record that follows when a record takes a setting from a partial result. -/
structure Record.Takes (incoming : PartialResult) (setting : Setting) (current next : Record) :
    Prop where
  taken : next.results.find? setting = incoming.results.find? setting
  others : ∀ other, other ≠ setting → next.results.find? other = current.results.find? other
  isRelease : next.isRelease = incoming.isRelease.getD current.isRelease
  revisionHash : next.revisionHash = incoming.revisionHash
  versionToken : next.versionToken = incoming.versionToken
  releaseLabel : next.releaseLabel = current.releaseLabel
  key : next.key = current.key

/-- The record after deltas that are applied one after another. -/
def Record.applyAll (record : Record) (deltas : List Delta) : Record :=
  deltas.foldl (fun record delta => delta.applyTo record) record

theorem Delta.hasSetting_applyTo (delta : Delta) {current : Record} {setting : Setting}
    (h : current.hasSetting setting) : (delta.applyTo current).hasSetting setting := by
  obtain ⟨metrics, hmetrics⟩ := Option.isSome_iff_exists.1 h
  rw [Record.hasSetting, SortedMap.contains, find?_applyTo, hmetrics]
  rfl

theorem Record.hasSetting_applyAll (deltas : List Delta) {record : Record} {setting : Setting}
    (h : record.hasSetting setting) : (record.applyAll deltas).hasSetting setting := by
  induction deltas generalizing record with
  | nil => exact h
  | cons delta deltas ih => exact ih (delta.hasSetting_applyTo h)

namespace Merge

/-! ## 2. One merge -/

variable {incoming : PartialResult} {current : Record} {setting : Setting}

theorem isSome_delta?_of : (of incoming current setting).delta?.isSome ↔
    current.hasSetting setting = false ∧ incoming.results.contains setting := by
  rw [Option.isSome_iff_exists, Record.hasSetting_eq_false_iff, SortedMap.contains,
    Option.isSome_iff_exists]
  simp only [delta?_of_eq_some_iff]
  constructor
  · rintro ⟨delta, hlacks, metrics, hmetrics, -⟩
    exact ⟨hlacks, metrics, hmetrics⟩
  · rintro ⟨hlacks, metrics, hmetrics⟩
    exact ⟨_, hlacks, metrics, hmetrics, rfl⟩

/-- Applying the delta of a merge is taking the setting. -/
theorem takes_applyTo {delta : Delta} (h : (of incoming current setting).delta? = some delta) :
    current.Takes incoming setting (delta.applyTo current) := by
  obtain ⟨hlacks, metrics, hmetrics, rfl⟩ := delta?_of_eq_some_iff.1 h
  have hadded : (adding incoming current setting metrics).addedResults =
      SortedMap.empty.insert setting metrics := rfl
  constructor
  · rw [Delta.find?_applyTo, hlacks, Option.none_or, hadded, SortedMap.find?_insert_self, hmetrics]
  · intro other hother
    rw [Delta.find?_applyTo, hadded, SortedMap.find?_insert_of_ne _ _ hother,
      SortedMap.find?_empty, Option.or_none]
  · rfl
  · -- The hash is left out of the delta only if it is the one that the record has.
    show (if incoming.revisionHash = current.revisionHash then none
      else some incoming.revisionHash).getD current.revisionHash = incoming.revisionHash
    split
    · exact Eq.symm ‹_›
    · rfl
  · rfl
  · rfl
  · rfl

theorem of_eq_alreadyRecorded (h : current.hasSetting setting) :
    of incoming current setting = .alreadyRecorded :=
  if_pos h

/-! ## 3. Two merges -/

/-- The record after a merge. It stays as it is if there is nothing to write. -/
def into (incoming : PartialResult) (setting : Setting) (current : Record) : Record :=
  ((of incoming current setting).delta?.map (·.applyTo current)).getD current

theorem into_cases (incoming : PartialResult) (setting : Setting) (current : Record) :
    (current.hasSetting setting = false ∧ incoming.results.contains setting ∧
        current.Takes incoming setting (into incoming setting current)) ∨
      (current.hasSetting setting ∨ incoming.results.contains setting = false) ∧
        into incoming setting current = current := by
  cases hdelta : (of incoming current setting).delta? with
  | some delta =>
    have hinto : into incoming setting current = delta.applyTo current := by rw [into, hdelta]; rfl
    obtain ⟨hlacks, hcontains⟩ := isSome_delta?_of.1 (by rw [hdelta]; rfl)
    rw [hinto]
    exact Or.inl ⟨hlacks, hcontains, takes_applyTo hdelta⟩
  | none =>
    refine Or.inr ⟨?_, by rw [into, hdelta]; rfl⟩
    cases hhas : current.hasSetting setting with
    | true => exact Or.inl rfl
    | false =>
      refine Or.inr (Bool.eq_false_iff.2 fun hcontains => ?_)
      have hsome := isSome_delta?_of.2 ⟨hhas, hcontains⟩
      rw [hdelta] at hsome
      cases hsome

/-- A record has a setting after a merge if it had it, or if it took it. -/
theorem find?_into (incoming : PartialResult) (setting : Setting) (current : Record)
    (other : Setting) : (into incoming setting current).results.find? other =
      (current.results.find? other).or
        (if other = setting then incoming.results.find? setting else none) := by
  rcases into_cases incoming setting current with ⟨hlacks, -, htakes⟩ | ⟨hnothing, hinto⟩
  · split
    · rename_i heq
      rw [heq, Record.hasSetting_eq_false_iff.1 hlacks, Option.none_or, htakes.taken]
    · rename_i hne
      rw [htakes.others other hne, Option.or_none]
  · rw [hinto]
    split
    · rename_i heq
      subst heq
      rcases hnothing with hhas | hlacks
      · obtain ⟨metrics, hmetrics⟩ := Option.isSome_iff_exists.1 hhas
        rw [hmetrics, Option.some_or]
      · rw [SortedMap.contains_eq_false_iff.1 hlacks, Option.or_none]
    · rw [Option.or_none]

theorem hasSetting_into_of_ne (incoming : PartialResult) {setting other : Setting}
    (current : Record) (h : other ≠ setting) :
    (into incoming setting current).hasSetting other = current.hasSetting other := by
  rw [Record.hasSetting, SortedMap.contains, find?_into, if_neg h, Option.or_none]
  rfl

theorem isRelease_into (incoming : PartialResult) {setting : Setting} {current : Record}
    (h : current.hasSetting setting = false) : (into incoming setting current).isRelease =
      if incoming.results.contains setting then incoming.isRelease.getD current.isRelease
      else current.isRelease := by
  rcases into_cases incoming setting current with ⟨-, hcontains, htakes⟩ | ⟨hnothing, hinto⟩
  · rw [if_pos hcontains, htakes.isRelease]
  · rcases hnothing with hhas | hlacks
    · rw [h] at hhas
      cases hhas
    · rw [hinto, hlacks]
      rfl

/-- What a merge leaves alone if the partial result is one of the record's own revision. -/
theorem identity_into {incoming : PartialResult} {current : Record} (setting : Setting)
    (hhash : incoming.revisionHash = current.revisionHash) :
    (into incoming setting current).revisionHash = current.revisionHash ∧
      (into incoming setting current).releaseLabel = current.releaseLabel ∧
      (into incoming setting current).key = current.key := by
  rcases into_cases incoming setting current with ⟨-, -, htakes⟩ | ⟨-, hinto⟩
  · exact ⟨htakes.revisionHash.trans hhash, htakes.releaseLabel, htakes.key⟩
  · rw [hinto]
    exact ⟨rfl, rfl, rfl⟩

/-- Whether two partial results set the release flag to opposite values. -/
def Opposed (p q : PartialResult) : Prop :=
  ∃ flag, p.isRelease = some flag ∧ q.isRelease = some !flag

theorem getD_comm_iff {a b : Option Bool} (flag : Bool) :
    b.getD (a.getD flag) = a.getD (b.getD flag) ↔ ¬∃ x, a = some x ∧ b = some !x := by
  cases a with
  | none => simp
  | some x =>
    cases b with
    | none => simp
    | some y => cases x <;> cases y <;> simp

/-- Merges of different settings can be exchanged, but for a flag that both partial results set. -/
theorem into_comm {p q : PartialResult} {s t : Setting} {current : Record} (hne : s ≠ t)
    (hs : current.hasSetting s = false) (ht : current.hasSetting t = false)
    (hp : p.revisionHash = current.revisionHash) (hq : q.revisionHash = current.revisionHash) :
    let forth := into q t (into p s current)
    let back := into p s (into q t current)
    forth.results = back.results ∧ forth.revisionHash = back.revisionHash ∧
      forth.releaseLabel = back.releaseLabel ∧ forth.key = back.key ∧
      (forth.isRelease = back.isRelease ↔
        ¬(p.results.contains s ∧ q.results.contains t ∧ Opposed p q)) := by
  intro forth back
  obtain ⟨hhashp, hlabelp, hkeyp⟩ := identity_into s hp
  obtain ⟨hhashq, hlabelq, hkeyq⟩ := identity_into t hq
  obtain ⟨hhashForth, hlabelForth, hkeyForth⟩ := identity_into t (hq.trans hhashp.symm)
  obtain ⟨hhashBack, hlabelBack, hkeyBack⟩ := identity_into s (hp.trans hhashq.symm)
  refine ⟨SortedMap.ext_find? fun other => ?_, ?_, ?_, ?_, ?_⟩
  · -- At most one of the two settings is the one that is looked up.
    simp only [forth, back, find?_into]
    by_cases hother : other = t
    · have hnot : other ≠ s := fun heq => hne (heq.symm.trans hother)
      simp only [if_neg hnot, Option.or_none]
    · simp only [if_neg hother, Option.or_none]
  · rw [hhashForth, hhashBack, hhashp, hhashq]
  · rw [hlabelForth, hlabelBack, hlabelp, hlabelq]
  · rw [hkeyForth, hkeyBack, hkeyp, hkeyq]
  · have htp : (into p s current).hasSetting t = false :=
      (hasSetting_into_of_ne p current hne.symm).trans ht
    have hsq : (into q t current).hasSetting s = false :=
      (hasSetting_into_of_ne q current hne).trans hs
    simp only [forth, back, isRelease_into q htp, isRelease_into p hsq, isRelease_into p hs,
      isRelease_into q ht]
    cases p.results.contains s with
    | false => simp
    | true =>
      cases q.results.contains t with
      | false => simp
      | true =>
        simp only [if_true, true_and]
        exact getD_comm_iff current.isRelease

/-! ## 4. The algebra -/

/-- A merge carries a delta exactly if the record lacks the setting and the partial result has it.
The record then takes the setting and keeps it, so that every later merge of the setting finds it
recorded. Merges of two settings that the record lacks give the same record in either order, but
for the tokens and a release flag on which the partial results disagree. -/
theorem merge_algebra (p q : PartialResult) (current : Record) (s t : Setting) :
    ((of p current s).delta?.isSome ↔ current.hasSetting s = false ∧ p.results.contains s) ∧
      (∀ delta, (of p current s).delta? = some delta →
        current.Takes p s (delta.applyTo current) ∧ ∀ other deltas,
          of other ((delta.applyTo current).applyAll deltas) s = .alreadyRecorded) ∧
      (s ≠ t → current.hasSetting s = false → current.hasSetting t = false →
        p.revisionHash = current.revisionHash → q.revisionHash = current.revisionHash →
        let forth := into q t (into p s current)
        let back := into p s (into q t current)
        forth.results = back.results ∧ forth.revisionHash = back.revisionHash ∧
          forth.releaseLabel = back.releaseLabel ∧ forth.key = back.key ∧
          (forth.isRelease = back.isRelease ↔
            ¬(p.results.contains s ∧ q.results.contains t ∧ Opposed p q))) := by
  refine ⟨isSome_delta?_of, fun delta hdelta => ?_, into_comm⟩
  have htakes := takes_applyTo hdelta
  have hcontains := (isSome_delta?_of.1 (by rw [hdelta]; rfl)).2
  refine ⟨htakes, fun other deltas => of_eq_alreadyRecorded ?_⟩
  apply Record.hasSetting_applyAll
  rw [Record.hasSetting, SortedMap.contains, htakes.taken]
  exact hcontains

/-- Two results for one revision that disagree on the release flag: the one that comes last has its
way, and all else is the same. -/
theorem merge_algebra_opposed :
    let result (setting : Setting) (flag : Bool) : PartialResult :=
      (PartialResult.single ⟨"4f1c"⟩ ⟨2024, 17⟩ setting .empty ⟨""⟩).withRelease flag
    let current := (result ⟨"5-50"⟩ false).toRecord
    let p := result ⟨"10-200"⟩ true
    let q := result ⟨"20-200"⟩ false
    let forth := into q ⟨"20-200"⟩ (into p ⟨"10-200"⟩ current)
    let back := into p ⟨"10-200"⟩ (into q ⟨"20-200"⟩ current)
    (of p current ⟨"10-200"⟩).delta?.isSome ∧ forth.results = back.results ∧
      forth.isRelease ≠ back.isRelease := by
  intro result current p q forth back
  obtain ⟨hdelta, -, hcomm⟩ := merge_algebra p q current ⟨"10-200"⟩ ⟨"20-200"⟩
  obtain ⟨hresults, -, -, -, hflag⟩ :=
    hcomm (by decide) (by decide) (by decide) (by decide) (by decide)
  refine ⟨hdelta.2 ⟨by decide, by decide⟩, hresults, fun heq => ?_⟩
  exact hflag.1 heq ⟨by decide, by decide, true, rfl, rfl⟩

end Merge

end RevisionLedger
