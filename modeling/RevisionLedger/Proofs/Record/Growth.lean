import RevisionLedger.Transmit.Call

/-!
# Records only grow

A delta adds settings and sets attributes. It takes no setting and no label away, and one that a
call computes leaves the key and the hash as they are. `Delta.extends_applyTo` says so for one
delta, `Merge.delta?_of_eq_some_iff` says which delta a merge gives, and `Intent.met_applyTo` that
the delta of an intent does what the intent asks for.
-/

namespace RevisionLedger

/-! ## 1. What a delta does to a record -/

namespace Delta

/-- The first entry of a setting decides: a later one finds the setting taken. -/
theorem find?_foldl_insertIfAbsent (entries : List (Setting × Metrics)) (results : Results)
    (setting : Setting) :
    (entries.foldl (fun results entry => results.insertIfAbsent entry.1 entry.2) results).find?
        setting =
      (results.find? setting).or (SortedMap.lookupEntry setting entries) := by
  -- Induction on the entries, for whatever results those before them have left.
  induction entries generalizing results with
  | nil => simp [SortedMap.lookupEntry]
  | cons entry rest ih =>
    rw [List.foldl_cons, ih, SortedMap.find?_insertIfAbsent, SortedMap.lookupEntry]
    by_cases h : compare setting entry.1 = .eq
    · obtain rfl : setting = entry.1 := Std.LawfulEqOrd.eq_of_compare h
      rw [if_pos h, if_pos h]
      cases results.find? entry.1 <;> simp
    · rw [if_neg h, if_neg h]

/-- A setting that the results have keeps its metrics. -/
theorem find?_addMissing (results added : Results) (setting : Setting) :
    (addMissing results added).find? setting =
      (results.find? setting).or (added.find? setting) :=
  find?_foldl_insertIfAbsent added.toList results setting

theorem find?_applyTo (delta : Delta) (current : Record) (setting : Setting) :
    (delta.applyTo current).results.find? setting =
      (current.results.find? setting).or (delta.addedResults.find? setting) :=
  find?_addMissing current.results delta.addedResults setting

theorem revisionHash_applyTo {delta : Delta} (h : delta.revisionHash = none) (current : Record) :
    (delta.applyTo current).revisionHash = current.revisionHash := by
  rw [applyTo, h, Option.getD_none]

end Delta

/-! ## 2. Later versions of a record -/

/-- A record may follow another under one key: it is of the same revision, and has every setting
and, if there was one, a label. -/
structure Record.Extends (earlier later : Record) : Prop where
  key : later.key = earlier.key
  hash : later.revisionHash = earlier.revisionHash
  results : ∀ setting metrics, earlier.results.find? setting = some metrics →
    later.results.find? setting = some metrics
  label : earlier.releaseLabel.isSome → later.releaseLabel.isSome

namespace Record.Extends

theorem refl (record : Record) : record.Extends record := ⟨rfl, rfl, fun _ _ h => h, id⟩

theorem trans {a b c : Record} (hab : a.Extends b) (hbc : b.Extends c) : a.Extends c where
  key := hbc.key.trans hab.key
  hash := hbc.hash.trans hab.hash
  results setting metrics h := hbc.results setting metrics (hab.results setting metrics h)
  label h := hbc.label (hab.label h)

theorem hasSetting {earlier later : Record} (h : earlier.Extends later) {setting : Setting}
    (hhas : earlier.hasSetting setting) : later.hasSetting setting := by
  obtain ⟨metrics, hmetrics⟩ := Option.isSome_iff_exists.1 hhas
  exact Option.isSome_iff_exists.2 ⟨metrics, h.results setting metrics hmetrics⟩

end Record.Extends

theorem Delta.extends_applyTo {delta : Delta} (h : delta.revisionHash = none) (current : Record) :
    current.Extends (delta.applyTo current) where
  key := rfl
  hash := revisionHash_applyTo h current
  results setting metrics hfind := by rw [find?_applyTo, hfind, Option.some_or]
  label hlabel := by
    show (delta.releaseLabel.or current.releaseLabel).isSome
    rw [Option.isSome_or, hlabel, Bool.or_true]

/-! ## 3. What a merge writes -/

theorem Record.hasSetting_eq_false_iff {record : Record} {setting : Setting} :
    record.hasSetting setting = false ↔ record.results.find? setting = none :=
  SortedMap.contains_eq_false_iff

/-- A merge looks at the record first, and at the partial result only if the setting is missing. -/
theorem Merge.delta?_of_eq_some_iff {incoming : PartialResult} {current : Record}
    {setting : Setting} {delta : Delta} : (of incoming current setting).delta? = some delta ↔
      current.results.find? setting = none ∧ ∃ metrics,
        incoming.results.find? setting = some metrics ∧
          delta = adding incoming current setting metrics := by
  unfold of
  cases hhas : current.hasSetting setting with
  | true =>
    have hfind : current.results.find? setting ≠ none := fun hnone => by
      rw [Record.hasSetting_eq_false_iff.2 hnone] at hhas
      cases hhas
    simp [delta?, hfind]
  | false =>
    rw [Record.hasSetting_eq_false_iff] at hhas
    cases incoming.results.find? setting with
    | none => simp [delta?]
    | some metrics => simp [delta?, hhas, eq_comm]

/-! ## 4. What a call is to write -/

namespace Intent

/-- An intent that a valid call on a revision has: a partial result is one of that revision, and
has the setting. -/
def IsFor (revision : RevisionHash) : Intent → Prop
  | .merge incoming setting =>
    incoming.revisionHash = revision ∧ (incoming.results.find? setting).isSome
  | .release _ => True

/-- What an intent asks of the record: the setting with the metrics that were handed in, or a
label. -/
def Met (record : Record) : Intent → Prop
  | .merge incoming setting => ∃ metrics, incoming.results.find? setting = some metrics ∧
      record.results.find? setting = some metrics
  | .release _ => record.releaseLabel.isSome

theorem Met.extends {intent : Intent} {earlier later : Record} (hmet : intent.Met earlier)
    (h : earlier.Extends later) : intent.Met later := by
  cases intent with
  | merge incoming setting =>
    obtain ⟨metrics, hincoming, hearlier⟩ := hmet
    exact ⟨metrics, hincoming, h.results setting metrics hearlier⟩
  | release label => exact h.label hmet

/-- A delta comes from a record that lacks the setting, and adds it. -/
theorem delta_merge_eq_ok {incoming : PartialResult} {setting : Setting} {current : Record}
    {token : VersionToken} {delta : Delta} :
    (Intent.merge incoming setting).delta current token = .ok delta ↔
      current.results.find? setting = none ∧
        ∃ metrics, incoming.results.find? setting = some metrics ∧
          delta = { Merge.adding incoming current setting metrics with versionToken := token } := by
  have hmerge : (Intent.merge incoming setting).delta current token = .ok delta ↔ ∃ found,
      (Merge.of incoming current setting).delta? = some found ∧
        delta = { found with versionToken := token } := by
    simp only [Intent.delta]
    cases Merge.of incoming current setting <;> simp [Merge.delta?, eq_comm]
  rw [hmerge]
  simp only [Merge.delta?_of_eq_some_iff]
  constructor
  · rintro ⟨_, ⟨hlacks, metrics, hmetrics, rfl⟩, rfl⟩
    exact ⟨hlacks, metrics, hmetrics, rfl⟩
  · rintro ⟨hlacks, metrics, hmetrics, rfl⟩
    exact ⟨_, ⟨hlacks, metrics, hmetrics, rfl⟩, rfl⟩

/-- Without a delta the record has the setting already. -/
theorem delta_eq_error {intent : Intent} {revision : RevisionHash} (hfor : intent.IsFor revision)
    {current : Record} {token : VersionToken} {setting : Setting}
    (h : intent.delta current token = .error setting) :
    intent.setting? = some setting ∧ current.hasSetting setting := by
  cases intent with
  | release label => simp [Intent.delta] at h
  | merge incoming wanted =>
    obtain ⟨metrics, hmetrics⟩ := Option.isSome_iff_exists.1 hfor.2
    unfold Intent.delta Merge.of at h
    by_cases hhas : current.hasSetting wanted
    · simp only [hhas, if_true, Except.error.injEq] at h
      exact ⟨congrArg some h, h ▸ hhas⟩
    · simp [hhas, hmetrics] at h

theorem versionToken_delta {intent : Intent} {current : Record} {token : VersionToken}
    {delta : Delta} (h : intent.delta current token = .ok delta) : delta.versionToken = token := by
  cases intent with
  | merge incoming setting =>
    obtain ⟨-, metrics, -, rfl⟩ := delta_merge_eq_ok.1 h
    rfl
  | release label =>
    cases h
    rfl

/-- The delta for a record of the call's own revision leaves the hash alone. -/
theorem revisionHash_delta {intent : Intent} {current : Record} {token : VersionToken}
    {delta : Delta} (hfor : intent.IsFor current.revisionHash)
    (h : intent.delta current token = .ok delta) : delta.revisionHash = none := by
  cases intent with
  | merge incoming setting =>
    obtain ⟨-, metrics, -, rfl⟩ := delta_merge_eq_ok.1 h
    exact if_pos hfor.1
  | release label =>
    cases h
    rfl

/-- An update of the record that was read does what the intent asks for. -/
theorem met_applyTo {intent : Intent} {current : Record} {token : VersionToken} {delta : Delta}
    (h : intent.delta current token = .ok delta) : intent.Met (delta.applyTo current) := by
  cases intent with
  | merge incoming setting =>
    obtain ⟨hlacks, metrics, hmetrics, rfl⟩ := delta_merge_eq_ok.1 h
    refine ⟨metrics, hmetrics, ?_⟩
    -- The record lacks the setting, so the metrics that are added are the ones found.
    rw [Delta.find?_applyTo, hlacks, Option.none_or]
    exact SortedMap.find?_insert_self _ _ _
  | release label =>
    cases h
    rfl

end Intent

end RevisionLedger
