import Mathlib.Data.List.Forall2
import RevisionLedger.Proofs.Transmit.Linearization

/-!
# The order of merges does not matter

Sends of different settings for one record may be run in any order and interleaved in any way: the
record that they leave is the same but for its token (`Fleet.merged_alike`). There is no need to
commute them one with another. What some sends have made of the first record can be read off their
partial results without regard to order (`Merged`), every turn keeps to that (`Merging.step`), and
it determines the record (`Merged.unique`).
-/

namespace RevisionLedger

/-! ## 1. What some sends make of a record -/

theorem PartialResult.eq_of_find? {incoming : PartialResult} {setting other : Setting}
    {metrics : Metrics} (hone : incoming.singleSetting? = some setting)
    (hfind : incoming.results.find? other = some metrics) : other = setting := by
  have hmem : other ∈ incoming.results.keys :=
    List.mem_map_of_mem ((SortedMap.find?_eq_some_iff _).1 hfind)
  rw [singleSetting?_eq_some_iff.1 hone] at hmem
  exact List.mem_singleton.1 hmem

/-- A record that comes of the first one, if there was one, and the partial results sent since. -/
structure Merged (key : RecordKey) (first : Option Record) (sent : PartialResult → Prop)
    (record : Record) : Prop where
  origin : first = none → ∃ partialResult, sent partialResult
  key : record.key = (first.map Record.key).getD key
  label : record.releaseLabel = first.bind Record.releaseLabel
  flag : (∃ partialResult, sent partialResult ∧ partialResult.isRelease = some record.isRelease) ∨
    (∀ partialResult, sent partialResult → partialResult.isRelease = none) ∧
      record.isRelease = (first.map Record.isRelease).getD false
  results : ∀ setting metrics, record.results.find? setting = some metrics ↔
    (∃ known, first = some known ∧ known.results.find? setting = some metrics) ∨
      ∃ partialResult, sent partialResult ∧ partialResult.results.find? setting = some metrics

namespace Merged

variable {key : RecordKey} {first : Option Record} {sent : PartialResult → Prop}
  {record other : Record}

theorem congr {sent' : PartialResult → Prop} (h : Merged key first sent record)
    (hsame : ∀ partialResult, sent' partialResult ↔ sent partialResult) :
    Merged key first sent' record := by
  rwa [show sent' = sent from funext fun partialResult => propext (hsame partialResult)]

theorem refl (record : Record) : Merged key (some record) (fun _ => False) record where
  origin h := by cases h
  key := rfl
  label := rfl
  flag := Or.inr ⟨fun _ hfalse => hfalse.elim, rfl⟩
  results setting metrics := by simp

theorem toRecord {incoming : PartialResult} (hkey : incoming.key = key) :
    Merged key none (fun partialResult => partialResult = incoming) incoming.toRecord where
  origin _ := ⟨incoming, rfl⟩
  key := hkey
  label := rfl
  flag := by
    cases hflag : incoming.isRelease with
    | some flag =>
      refine Or.inl ⟨incoming, rfl, ?_⟩
      show incoming.isRelease = some (incoming.isRelease.getD false)
      rw [hflag]
      rfl
    | none =>
      refine Or.inr ⟨fun partialResult hsame => hsame ▸ hflag, ?_⟩
      show incoming.isRelease.getD false = false
      rw [hflag]
      rfl
  results setting metrics := by
    show incoming.results.find? setting = some metrics ↔ _
    simp

/-- An update adds a setting to what has come of the first record. -/
theorem update (h : Merged key first sent record) {incoming : PartialResult} {setting : Setting}
    {token : VersionToken} {delta : Delta} (hone : incoming.singleSetting? = some setting)
    (hdelta : (Intent.merge incoming setting).delta record token = .ok delta) :
    Merged key first (fun partialResult => sent partialResult ∨ partialResult = incoming)
      (delta.applyTo record) := by
  obtain ⟨hlacks, added, hadded, rfl⟩ := Intent.delta_merge_eq_ok.1 hdelta
  constructor
  · exact fun hnone => ⟨incoming, Or.inr rfl⟩
  · exact h.key
  · exact h.label
  · show (∃ partialResult : PartialResult, _ ∧
        partialResult.isRelease = some (incoming.isRelease.getD record.isRelease)) ∨
      _ ∧ incoming.isRelease.getD record.isRelease = _
    cases hset : incoming.isRelease with
    | some flag => exact Or.inl ⟨incoming, Or.inr rfl, hset⟩
    | none =>
      -- The record keeps its flag.
      rcases h.flag with ⟨partialResult, hsent, hflag⟩ | ⟨hunset, hflag⟩
      · exact Or.inl ⟨partialResult, Or.inl hsent, hflag⟩
      · refine Or.inr ⟨?_, hflag⟩
        rintro partialResult (hsent | rfl)
        · exact hunset partialResult hsent
        · exact hset
  · intro other metrics
    have hmine : (SortedMap.empty.insert setting added).find? other =
        incoming.results.find? other := by
      by_cases hother : other = setting
      · rw [hother, SortedMap.find?_insert_self, hadded]
      · rw [SortedMap.find?_insert_of_ne _ _ hother, SortedMap.find?_empty]
        cases hfind : incoming.results.find? other with
        | none => rfl
        | some found => exact absurd (PartialResult.eq_of_find? hone hfind) hother
    rw [Delta.find?_applyTo]
    show (record.results.find? other).or ((SortedMap.empty.insert setting added).find? other) =
      some metrics ↔ _
    rw [hmine]
    constructor
    · intro hfind
      rcases Option.or_eq_some_iff.1 hfind with hold | ⟨-, hnew⟩
      · refine ((h.results other metrics).1 hold).imp_right ?_
        rintro ⟨partialResult, hsent, hfound⟩
        exact ⟨partialResult, Or.inl hsent, hfound⟩
      · exact Or.inr ⟨incoming, Or.inr rfl, hnew⟩
    · rintro (hfirst | ⟨partialResult, hsent | rfl, hfind⟩)
      · rw [(h.results other metrics).2 (Or.inl hfirst), Option.some_or]
      · rw [(h.results other metrics).2 (Or.inr ⟨partialResult, hsent, hfind⟩), Option.some_or]
      · -- The setting is the one that was missing.
        rw [PartialResult.eq_of_find? hone hfind, hlacks, Option.none_or,
          ← PartialResult.eq_of_find? hone hfind]
        exact hfind

theorem isRelease_unique (h : Merged key first sent record) (h' : Merged key first sent other)
    (hflags : ∀ one another, sent one → sent another →
      ¬(one.isRelease = some true ∧ another.isRelease = some false)) :
    record.isRelease = other.isRelease := by
  -- Both flags were sent, and do not contradict each other, or neither was.
  rcases h.flag with ⟨one, hone, hflag⟩ | ⟨hunset, hflag⟩ <;>
    rcases h'.flag with ⟨another, hanother, hflag'⟩ | ⟨hunset', hflag'⟩
  · cases hrecord : record.isRelease <;> cases hother : other.isRelease <;>
      rw [hrecord] at hflag <;> rw [hother] at hflag'
    · exact absurd ⟨hflag', hflag⟩ (hflags another one hanother hone)
    · exact absurd ⟨hflag, hflag'⟩ (hflags one another hone hanother)
  · rw [hunset' one hone] at hflag
    cases hflag
  · rw [hunset another hanother] at hflag'
    cases hflag'
  · rw [hflag, hflag']

theorem unique (h : Merged key first sent record) (h' : Merged key first sent other)
    (hhash : record.revisionHash = other.revisionHash)
    (hflags : ∀ one another, sent one → sent another →
      ¬(one.isRelease = some true ∧ another.isRelease = some false)) :
    record.withoutToken = other.withoutToken := by
  have hkey : record.key = other.key := h.key.trans h'.key.symm
  have hresults : record.results = other.results := by
    refine SortedMap.ext_find? fun setting => Option.ext fun metrics => ?_
    rw [h.results, h'.results]
  unfold Record.withoutToken
  rw [hhash, h.isRelease_unique h' hflags, h.label, h'.label, hresults,
    show record.commitDate = other.commitDate from congrArg RecordKey.commitDate hkey,
    show record.yearPartition = other.yearPartition from congrArg RecordKey.yearPartition hkey]

end Merged

/-! ## 2. Runs -/

/-- An invocation that sends a partial result, by any transmitter. -/
def Invocation.Sends (partialResult : PartialResult) (invocation : Invocation) : Prop :=
  ∃ transmitter, invocation = .send transmitter partialResult

/-- Partial results for one record, each with a setting of its own, that do not contradict each
other as to the flag. -/
structure Compatible (hash : RevisionHash) (key : RecordKey) (partials : List PartialResult) :
    Prop where
  hash : ∀ partialResult ∈ partials, partialResult.revisionHash = hash
  key : ∀ partialResult ∈ partials, partialResult.key = key
  settings : (partials.map PartialResult.singleSetting?).Nodup
  flags : ∀ one ∈ partials, ∀ another ∈ partials,
    ¬(one.isRelease = some true ∧ another.isRelease = some false)

/-- No two partial results share a setting. -/
theorem Compatible.eq_of_setting {hash : RevisionHash} {key : RecordKey}
    {partials : List PartialResult} (h : Compatible hash key partials) {index other : Nat}
    {one another : PartialResult} (hone : partials[index]? = some one)
    (hother : partials[other]? = some another)
    (hsame : one.singleSetting? = another.singleSetting?) : index = other := by
  have hlt : index < (partials.map PartialResult.singleSetting?).length := by
    rw [List.length_map]
    exact (List.getElem?_eq_some_iff.1 hone).1
  refine (List.getElem?_inj hlt h.settings).1 ?_
  rw [List.getElem?_map, List.getElem?_map, hone, hother, Option.map_some, Option.map_some, hsame]

namespace Fleet

/-- The partial results that have been written. -/
def Sent (fleet : Fleet) (partials : List PartialResult) (partialResult : PartialResult) : Prop :=
  ∃ (index : Nat) (outcome : Outcome), partials[index]? = some partialResult ∧
    fleet.result? index = some (.ok outcome) ∧ outcome.isSent

/-- The record of a revision comes of the first one and of what has been sent since. A call that has
ended has sent its setting exactly if the first record lacked it. -/
structure Merging (hash : RevisionHash) (key : RecordKey) (partials : List PartialResult)
    (first : Option Record) (fleet : Fleet) : Prop where
  nothing : fleet.store.query hash = [] →
    first = none ∧ ∀ partialResult, ¬fleet.Sent partials partialResult
  something : ∀ record, fleet.store.query hash = [record] →
    Merged key first (fleet.Sent partials) record
  outcomes : ∀ {index partialResult setting outcome}, partials[index]? = some partialResult →
    partialResult.singleSetting? = some setting → fleet.result? index = some (.ok outcome) →
    outcome.isSent = !first.any (Record.hasSetting · setting)

section Steps

variable {hash : RevisionHash} {key : RecordKey} {partials : List PartialResult}
  {first : Option Record} {fleet next : Fleet} {index : Nat} {call new : Call}
  {incoming : PartialResult} {setting : Setting}

theorem result?_of_set_self (hcall : fleet.calls[index]? = some call)
    (hcalls : next.calls = fleet.calls.set index new) : next.result? index = new.result? := by
  rw [result?, hcalls, List.getElem?_set_self (List.getElem?_eq_some_iff.1 hcall).1,
    Option.bind_some]

/-- A turn of a call that waits adds to what has been sent if it ends the call so. -/
theorem sent_set (hcall : fleet.calls[index]? = some call) (hwaits : call.request?.isSome)
    (hcalls : next.calls = fleet.calls.set index new) (hincoming : partials[index]? = some incoming)
    (partialResult : PartialResult) : next.Sent partials partialResult ↔
      fleet.Sent partials partialResult ∨
        (∃ outcome, new.result? = some (.ok outcome) ∧ outcome.isSent) ∧
          partialResult = incoming := by
  have hself := result?_of_set_self hcall hcalls
  constructor
  · rintro ⟨place, outcome, hplace, hresult, hsent⟩
    by_cases hsame : place = index
    · subst hsame
      rw [hself] at hresult
      exact Or.inr ⟨⟨outcome, hresult, hsent⟩, Option.some.inj (hplace.symm.trans hincoming)⟩
    · rw [result?_of_set hcalls hsame] at hresult
      exact Or.inl ⟨place, outcome, hplace, hresult, hsent⟩
  · rintro (⟨place, outcome, hplace, hresult, hsent⟩ | ⟨⟨outcome, hresult, hsent⟩, rfl⟩)
    · have hne : place ≠ index := by
        rintro rfl
        rw [result?_of_waits hcall hwaits] at hresult
        cases hresult
      rw [← result?_of_set hcalls hne] at hresult
      exact ⟨place, outcome, hplace, hresult, hsent⟩
    · exact ⟨index, outcome, hincoming, hself.trans hresult, hsent⟩

/-- It is enough to look at the call that had its turn. -/
theorem Merging.outcomes_set (h : Merging hash key partials first fleet)
    (hcall : fleet.calls[index]? = some call) (hcalls : next.calls = fleet.calls.set index new)
    (hincoming : partials[index]? = some incoming)
    (hsetting : incoming.singleSetting? = some setting)
    (hnew : ∀ outcome, new.phase = .finished (.ok outcome) →
      outcome.isSent = !first.any (Record.hasSetting · setting))
    {place : Nat} {partialResult : PartialResult} {other : Setting} {outcome : Outcome}
    (hplace : partials[place]? = some partialResult)
    (hother : partialResult.singleSetting? = some other)
    (hresult : next.result? place = some (.ok outcome)) :
    outcome.isSent = !first.any (Record.hasSetting · other) := by
  by_cases hsame : place = index
  · subst hsame
    rw [result?_of_set_self hcall hcalls] at hresult
    obtain rfl := Option.some.inj (hplace.symm.trans hincoming)
    obtain rfl := Option.some.inj (hother.symm.trans hsetting)
    exact hnew outcome (Call.phase_of_result? hresult)
  · rw [result?_of_set hcalls hsame] at hresult
    exact h.outcomes hplace hother hresult

theorem Merging.step_unsent (h : Merging hash key partials first fleet)
    (hcall : fleet.calls[index]? = some call) (hwaits : call.request?.isSome)
    (hcalls : next.calls = fleet.calls.set index new) (hstore : next.store = fleet.store)
    (hincoming : partials[index]? = some incoming)
    (hsetting : incoming.singleSetting? = some setting)
    (hnew : ∀ outcome, new.phase = .finished (.ok outcome) →
      outcome.isSent = false ∧ first.any (Record.hasSetting · setting)) :
    Merging hash key partials first next := by
  have hsent : ∀ partialResult, next.Sent partials partialResult ↔
      fleet.Sent partials partialResult := by
    intro partialResult
    rw [sent_set hcall hwaits hcalls hincoming]
    refine or_iff_left ?_
    rintro ⟨⟨outcome, hresult, hyes⟩, -⟩
    rw [(hnew outcome (Call.phase_of_result? hresult)).1] at hyes
    cases hyes
  constructor
  · intro hquery
    rw [hstore] at hquery
    obtain ⟨hnone, hunsent⟩ := h.nothing hquery
    exact ⟨hnone, fun partialResult hnow => hunsent partialResult ((hsent partialResult).1 hnow)⟩
  · intro record hquery
    rw [hstore] at hquery
    exact (h.something record hquery).congr hsent
  · refine h.outcomes_set hcall hcalls hincoming hsetting fun outcome hphase => ?_
    obtain ⟨hunsent, hhas⟩ := hnew outcome hphase
    rw [hunsent, hhas]
    rfl

theorem Merging.step_sent (h : Merging hash key partials first fleet)
    (hcall : fleet.calls[index]? = some call) (hwaits : call.request?.isSome)
    (hcalls : next.calls = fleet.calls.set index new)
    (hincoming : partials[index]? = some incoming)
    (hsetting : incoming.singleSetting? = some setting) {revision : RevisionHash} {created : Bool}
    {attempts : Nat} (hphase : new.phase = .finished (.ok (.sent revision created attempts)))
    (hlacks : first.any (Record.hasSetting · setting) = false) {record : Record}
    (hquery : next.store.query hash = [record])
    (hmerged : Merged key first
      (fun partialResult => fleet.Sent partials partialResult ∨ partialResult = incoming) record) :
    Merging hash key partials first next := by
  have hresult : new.result? = some (.ok (.sent revision created attempts)) := by
    rw [Call.result?, hphase]
  constructor
  · intro hnothing
    rw [hquery] at hnothing
    cases hnothing
  · intro other hother
    obtain rfl := List.singleton_inj.1 (hquery.symm.trans hother)
    refine hmerged.congr fun partialResult => ?_
    rw [sent_set hcall hwaits hcalls hincoming]
    exact or_congr_right (and_iff_right ⟨_, hresult, rfl⟩)
  · refine h.outcomes_set hcall hcalls hincoming hsetting fun outcome hended => ?_
    rw [hphase] at hended
    cases hended
    rw [hlacks]
    rfl

theorem Merging.exists_sent_of_hasSetting (h : Merging hash key partials first fleet)
    {record : Record} (hquery : fleet.store.query hash = [record])
    (hhas : record.hasSetting setting)
    (hfirst : first.any (Record.hasSetting · setting) = false) :
    ∃ (place : Nat) (partialResult : PartialResult), partials[place]? = some partialResult ∧
      (fleet.result? place).isSome ∧ (partialResult.results.find? setting).isSome := by
  obtain ⟨metrics, hfind⟩ := Option.isSome_iff_exists.1 hhas
  rcases ((h.something record hquery).results setting metrics).1 hfind with ⟨known, rfl, hknown⟩ |
    ⟨partialResult, ⟨place, outcome, hplace, hresult, -⟩, hfound⟩
  · have hyes : known.hasSetting setting := Option.isSome_iff_exists.2 ⟨metrics, hknown⟩
    rw [Option.any_some, hyes] at hfirst
    cases hfirst
  · exact ⟨place, partialResult, hplace, by rw [hresult]; rfl, by rw [hfound]; rfl⟩

/-- A call that finds its setting in the record does not find what another has sent, so the first
record had it. -/
theorem Merging.first_hasSetting (h : Merging hash key partials first fleet)
    (hcompatible : Compatible hash key partials)
    (hvalid : ∀ partialResult ∈ partials, partialResult.singleSetting?.isSome)
    (hcall : fleet.calls[index]? = some call) (hwaits : call.request?.isSome)
    (hincoming : partials[index]? = some incoming)
    (hsetting : incoming.singleSetting? = some setting) {record : Record}
    (hquery : fleet.store.query hash = [record]) (hhas : record.hasSetting setting) :
    first.any (Record.hasSetting · setting) := by
  cases hfirst : first.any (Record.hasSetting · setting) with
  | true => rfl
  | false =>
    obtain ⟨place, partialResult, hplace, hended, hfound⟩ :=
      h.exists_sent_of_hasSetting hquery hhas hfirst
    obtain ⟨other, hother⟩ :=
      Option.isSome_iff_exists.1 (hvalid partialResult (List.mem_of_getElem? hplace))
    obtain ⟨metrics, hmetrics⟩ := Option.isSome_iff_exists.1 hfound
    obtain rfl := PartialResult.eq_of_find? hother hmetrics
    -- Only the call itself sends the setting, and it has not ended.
    have hsame := hcompatible.eq_of_setting hplace hincoming (hother.trans hsetting.symm)
    rw [hsame, result?_of_waits hcall hwaits] at hended
    cases hended

theorem Merging.step_turn (h : Merging hash key partials first fleet)
    (hcompatible : Compatible hash key partials)
    (hvalid : ∀ partialResult ∈ partials, partialResult.singleSetting?.isSome)
    (hsound : next.store.Sound) (hcall : fleet.calls[index]? = some call) {chance : Chance}
    {request : Request} {answer : Answer} (hrequest : call.request? = some request)
    (hcalls : next.calls = fleet.calls.set index (call.resume answer chance))
    (hincoming : partials[index]? = some incoming)
    (hsetting : incoming.singleSetting? = some setting) (hrevision : call.revision = hash)
    (hintent : call.intent = .merge incoming setting)
    (hturn : Turn fleet.store call chance request answer next.store
      (call.resume answer chance).phase) :
    Merging hash key partials first next := by
  have hwaits : call.request?.isSome := by rw [hrequest]; rfl
  have hmem := List.mem_of_getElem? hincoming
  have hfor : call.intent.IsFor call.revision := by
    rw [hintent, hrevision]
    exact ⟨hcompatible.hash incoming hmem, PartialResult.find?_singleSetting hsetting⟩
  subst hrevision
  generalize hphase : (call.resume answer chance).phase = phase at hturn
  generalize hstore : next.store = store at hturn
  cases hturn with
  -- In these turns nothing is written, and a call that ends fails.
  | absent | found | beaten | missing | drafted | lost | exhausted | rested =>
    refine h.step_unsent hcall hwaits hcalls hstore hincoming hsetting fun outcome hended => ?_
    rw [hphase] at hended
    cases hended
  | skipped hreading hquery hdelta =>
    refine h.step_unsent hcall hwaits hcalls hstore hincoming hsetting fun outcome hended => ?_
    rw [hphase] at hended
    cases hended
    obtain ⟨hfound, hhas⟩ := Intent.delta_eq_error hfor hdelta
    rw [hintent] at hfound
    cases hfound
    exact ⟨rfl, h.first_hasSetting hcompatible hvalid hcall hwaits hincoming hsetting hquery hhas⟩
  | created hcreating hcreates hhash hquery hkey =>
    rename_i record
    rw [hintent] at hcreates
    obtain rfl : record = incoming.toRecord := hcreates
    -- As long as there is no record nothing has been sent.
    obtain ⟨rfl, hunsent⟩ := h.nothing hquery
    have hget : next.store.get? incoming.toRecord.key = some incoming.toRecord := by
      rw [hstore, MemoryStore.get?_write_self]
    have hnext := hsound.query_of_get? hget
    rw [hhash] at hnext
    refine h.step_sent hcall hwaits hcalls hincoming hsetting hphase rfl hnext ?_
    refine (Merged.toRecord (hcompatible.key incoming hmem)).congr fun partialResult => ?_
    exact or_iff_right (hunsent partialResult)
  | updated hwriting hkey hquery hdelta hext =>
    rename_i later copy current delta token
    rw [hintent] at hdelta
    have hmerged := h.something current hquery
    have hget : next.store.get? current.key = some (delta.applyTo current) := by
      rw [hstore, MemoryStore.get?_write_self]
    have hnext := hsound.query_of_get? hget
    rw [hext.hash, (MemoryStore.of_query_eq hquery).2] at hnext
    refine h.step_sent hcall hwaits hcalls hincoming hsetting hphase ?_ hnext
      (hmerged.update hsetting hdelta)
    -- What the first record had the current one has, and it lacks the setting.
    obtain ⟨hlacks, -⟩ := Intent.delta_merge_eq_ok.1 hdelta
    cases hfirst : first.any (Record.hasSetting · setting) with
    | false => rfl
    | true =>
      obtain ⟨known, hknown, hhas⟩ := (Option.any_eq_true _ _).1 hfirst
      obtain ⟨metrics, hfind⟩ := Option.isSome_iff_exists.1 hhas
      rw [(hmerged.results setting metrics).2 (Or.inl ⟨known, hknown, hfind⟩)] at hlacks
      cases hlacks

theorem exists_of_sends {invocations : List Invocation} {invocation : Invocation}
    (hsends : List.Forall₂ Invocation.Sends partials invocations)
    (hinvocation : invocations[index]? = some invocation) :
    ∃ partialResult transmitter, partials[index]? = some partialResult ∧
      invocation = .send transmitter partialResult := by
  obtain ⟨hlength, heach⟩ := List.forall₂_iff_get.1 hsends
  obtain ⟨hlt, rfl⟩ := List.getElem?_eq_some_iff.1 hinvocation
  have hlt' : index < partials.length := by rw [hlength]; exact hlt
  obtain ⟨transmitter, hsend⟩ := heach index hlt' hlt
  exact ⟨partials[index], transmitter, List.getElem?_eq_getElem hlt', hsend⟩

theorem Merging.step {source : Source} {invocations : List Invocation}
    (h : Merging hash key partials first fleet) (hcompatible : Compatible hash key partials)
    (hvalid : ∀ partialResult ∈ partials, partialResult.singleSetting?.isSome)
    (hsends : List.Forall₂ Invocation.Sends partials invocations)
    (hlawful : fleet.Lawful source invocations) (hdistinct : source.Distinct) (turn : Nat) :
    Merging hash key partials first (fleet.step source turn) := by
  rcases hlawful.step_cases turn with ⟨hstore, hcalls, -⟩ | ⟨call, request, hcall, hrequest, hcalls,
    hturn⟩
  · -- Nothing has changed.
    have hresult : ∀ place, (fleet.step source turn).result? place = fleet.result? place :=
      fun place => by rw [result?, result?, hcalls]
    have hsent : (fleet.step source turn).Sent partials = fleet.Sent partials := by
      unfold Sent
      simp only [hresult]
    constructor
    · rw [hstore, hsent]
      exact h.nothing
    · rw [hstore, hsent]
      exact h.something
    · intro place partialResult setting outcome hplace hsetting hended
      rw [hresult] at hended
      exact h.outcomes hplace hsetting hended
  · obtain ⟨hnext, -⟩ := hlawful.step hdistinct turn
    obtain ⟨invocation, hinvocation, htask⟩ := hlawful.own hcall
    obtain ⟨incoming, transmitter, hincoming, rfl⟩ := exists_of_sends hsends hinvocation
    have hmem := List.mem_of_getElem? hincoming
    obtain ⟨setting, hsetting⟩ := Option.isSome_iff_exists.1 (hvalid incoming hmem)
    have hsame := (Call.sameTask_send transmitter incoming).trans htask
    refine h.step_turn hcompatible hvalid hnext.sound hcall hrequest hcalls hincoming hsetting ?_ ?_
      hturn
    · exact hsame.2.1.trans (hcompatible.hash incoming hmem)
    · rw [hsame.2.2, hsetting]
      rfl

theorem Merging.follow {source : Source} {invocations : List Invocation}
    (h : Merging hash key partials first fleet) (hcompatible : Compatible hash key partials)
    (hvalid : ∀ partialResult ∈ partials, partialResult.singleSetting?.isSome)
    (hsends : List.Forall₂ Invocation.Sends partials invocations)
    (hlawful : fleet.Lawful source invocations) (hdistinct : source.Distinct) (turns : List Nat) :
    Merging hash key partials first (fleet.follow source turns) := by
  induction turns generalizing fleet with
  | nil => exact h
  | cons turn turns ih =>
    exact ih (h.step hcompatible hvalid hsends hlawful hdistinct turn)
      (hlawful.step hdistinct turn).1

end Steps

/-! ## 3. Whole runs -/

/-- So many calls have ended, and none of them has failed. -/
def Succeeds (fleet : Fleet) (calls : Nat) : Prop :=
  ∀ index < calls, ∃ outcome, fleet.result? index = some (.ok outcome)

section Runs

variable {hash : RevisionHash} {key : RecordKey} {partials : List PartialResult}
  {store : MemoryStore} {source : Source} {invocations : List Invocation} {turns : List Nat}

theorem result?_start (index : Nat) : (start store invocations).result? index =
    invocations[index]?.bind fun invocation => invocation.call.result? := by
  rw [result?, calls_start, Option.bind_map]
  rfl

theorem result?_start_ne_ok (index : Nat) (outcome : Outcome) :
    (start store invocations).result? index ≠ some (.ok outcome) := by
  intro h
  rw [result?_start] at h
  obtain ⟨invocation, -, hresult⟩ := Option.bind_eq_some_iff.1 h
  have hphase := Call.phase_of_result? hresult
  rcases invocation.call_cases with ⟨_, _, herror⟩ | ⟨_, _, _, -, -, hstart⟩ | ⟨_, _, _, hstart⟩
  · rw [herror] at hphase
    cases hphase
  · rw [hstart] at hphase
    cases hphase
  · rw [hstart] at hphase
    cases hphase

theorem merging_start :
    Merging hash key partials (store.query hash).head? (start store invocations) := by
  have hsent : ∀ partialResult, ¬(start store invocations).Sent partials partialResult := by
    rintro partialResult ⟨index, outcome, -, hresult, -⟩
    exact result?_start_ne_ok index outcome hresult
  constructor
  · intro hquery
    rw [show store.query hash = [] from hquery]
    exact ⟨rfl, hsent⟩
  · intro record hquery
    rw [show store.query hash = [record] from hquery]
    exact (Merged.refl record).congr fun partialResult => iff_false_intro (hsent partialResult)
  · intro index partialResult setting outcome hindex hsetting hresult
    exact absurd hresult (result?_start_ne_ok index outcome)

/-- An invalid call would have failed at once. -/
theorem Succeeds.isSome (hsends : List.Forall₂ Invocation.Sends partials invocations)
    (hdone : ((start store invocations).follow source turns).Succeeds partials.length) :
    ∀ partialResult ∈ partials, partialResult.singleSetting?.isSome := by
  intro partialResult hmem
  obtain ⟨index, hindex⟩ := List.getElem?_of_mem hmem
  obtain ⟨hlength, heach⟩ := List.forall₂_iff_get.1 hsends
  obtain ⟨hlt, rfl⟩ := List.getElem?_eq_some_iff.1 hindex
  obtain ⟨outcome, houtcome⟩ := hdone index hlt
  obtain ⟨transmitter, hsend⟩ := heach index hlt (hlength ▸ hlt)
  have hinvocation : invocations[index]? = some (.send transmitter partials[index]) := by
    rw [List.getElem?_eq_getElem (hlength ▸ hlt)]
    exact congrArg some hsend
  cases hsetting : partials[index].singleSetting? with
  | some setting => rfl
  | none =>
    have hrefused : ∃ error, (Call.send transmitter partials[index]).result? =
        some (.error error) := by
      dsimp only [Call.send]
      rw [hsetting]
      split <;> exact ⟨_, rfl⟩
    obtain ⟨error, herror⟩ := hrefused
    have hfirst : (start store invocations).result? index = some (.error error) := by
      rw [result?_start, hinvocation]
      exact herror
    rw [result?_follow hfirst turns] at houtcome
    cases houtcome

end Runs

section Pairs

variable {hash : RevisionHash} {key : RecordKey} {partials : List PartialResult}
  {first : Option Record} {fleet fleet' : Fleet}

theorem Sent.mem {partialResult : PartialResult} (h : fleet.Sent partials partialResult) :
    partialResult ∈ partials := by
  obtain ⟨index, outcome, hindex, -⟩ := h
  exact List.mem_of_getElem? hindex

/-- The same calls have sent in two runs that succeed. -/
theorem Merging.sent_of_sent (h : Merging hash key partials first fleet)
    (h' : Merging hash key partials first fleet')
    (hvalid : ∀ partialResult ∈ partials, partialResult.singleSetting?.isSome)
    (hdone' : fleet'.Succeeds partials.length) {partialResult : PartialResult}
    (hsent : fleet.Sent partials partialResult) : fleet'.Sent partials partialResult := by
  obtain ⟨setting, hsetting⟩ := Option.isSome_iff_exists.1 (hvalid partialResult hsent.mem)
  obtain ⟨index, outcome, hindex, hresult, hyes⟩ := hsent
  obtain ⟨outcome', hresult'⟩ := hdone' index (List.getElem?_eq_some_iff.1 hindex).1
  refine ⟨index, outcome', hindex, hresult', ?_⟩
  rw [h'.outcomes hindex hsetting hresult', ← h.outcomes hindex hsetting hresult]
  exact hyes

/-- There is a record as soon as there was one, or one send has ended. -/
theorem Merging.query_ne_nil (h : Merging hash key partials first fleet)
    (hvalid : ∀ partialResult ∈ partials, partialResult.singleSetting?.isSome)
    (hdone : fleet.Succeeds partials.length) (hsome : partials ≠ []) :
    fleet.store.query hash ≠ [] := by
  intro hquery
  obtain ⟨rfl, hunsent⟩ := h.nothing hquery
  have hpos := List.length_pos_iff.2 hsome
  have hindex : partials[0]? = some partials[0] := List.getElem?_eq_getElem hpos
  obtain ⟨outcome, hresult⟩ := hdone 0 hpos
  obtain ⟨setting, hsetting⟩ := Option.isSome_iff_exists.1 (hvalid _ (List.mem_of_getElem? hindex))
  exact hunsent _ ⟨0, outcome, hindex, hresult, h.outcomes hindex hsetting hresult⟩

theorem Merging.records_alike (h : Merging hash key partials first fleet)
    (h' : Merging hash key partials first fleet') (hcompatible : Compatible hash key partials)
    (hsame : ∀ partialResult, fleet.Sent partials partialResult ↔
      fleet'.Sent partials partialResult)
    (hsound : fleet.store.Sound) (hsound' : fleet'.store.Sound) :
    (fleet.store.query hash).map Record.withoutToken =
      (fleet'.store.query hash).map Record.withoutToken := by
  rcases hsound.query_cases hash with ⟨hquery, -⟩ | ⟨record, hquery, -, hhash⟩ <;>
    rcases hsound'.query_cases hash with ⟨hquery', -⟩ | ⟨record', hquery', -, hhash'⟩
  -- A record in one of the runs only would come of something that was sent in both.
  · rw [hquery, hquery']
  · obtain ⟨hnone, hunsent⟩ := h.nothing hquery
    obtain ⟨partialResult, hsent⟩ := (h'.something record' hquery').origin hnone
    exact absurd ((hsame partialResult).2 hsent) (hunsent partialResult)
  · obtain ⟨hnone, hunsent⟩ := h'.nothing hquery'
    obtain ⟨partialResult, hsent⟩ := (h.something record hquery).origin hnone
    exact absurd ((hsame partialResult).1 hsent) (hunsent partialResult)
  · have hother := (h'.something record' hquery').congr hsame
    have halike := (h.something record hquery).unique hother (hhash.trans hhash'.symm)
      fun one another hone hanother => hcompatible.flags one hone.mem another hanother.mem
    rw [hquery, hquery', List.map_singleton, List.map_singleton, halike]

end Pairs

/-- The order of merges does not matter. Sends of partial results with different settings for one
record, none of which fails, leave the same record but for its token, whatever turns they take, and
each of them ends alike. Nothing is asked of the key: if a record of another revision has it, a send
that is to create one fails. -/
theorem merged_alike {store : MemoryStore} {hash : RevisionHash} {key : RecordKey}
    {partials : List PartialResult} (hcompatible : Compatible hash key partials)
    (hsound : store.Sound) {source source' : Source} {invocations invocations' : List Invocation}
    (hsends : List.Forall₂ Invocation.Sends partials invocations)
    (hsends' : List.Forall₂ Invocation.Sends partials invocations')
    (hfresh : source.Fresh store invocations) (hfresh' : source'.Fresh store invocations')
    {turns turns' : List Nat}
    (hdone : ((start store invocations).follow source turns).Succeeds partials.length)
    (hdone' : ((start store invocations').follow source' turns').Succeeds partials.length) :
    let fleet := (start store invocations).follow source turns
    let fleet' := (start store invocations').follow source' turns'
    (fleet.store.query hash).map Record.withoutToken =
        (fleet'.store.query hash).map Record.withoutToken ∧
      (partials ≠ [] → fleet.store.query hash ≠ []) ∧
      ∀ index outcome outcome', fleet.result? index = some (.ok outcome) →
        fleet'.result? index = some (.ok outcome') → outcome.isSent = outcome'.isSent := by
  intro fleet fleet'
  have hvalid := hdone.isSome hsends
  have hstart := lawful_start hsound hfresh
  have hstart' := lawful_start hsound hfresh'
  obtain ⟨hlawful, -⟩ := hstart.follow hfresh.distinct turns
  obtain ⟨hlawful', -⟩ := hstart'.follow hfresh'.distinct turns'
  have hmerging : Merging hash key partials (store.query hash).head? fleet :=
    merging_start.follow hcompatible hvalid hsends hstart hfresh.distinct turns
  have hmerging' : Merging hash key partials (store.query hash).head? fleet' :=
    merging_start.follow hcompatible hvalid hsends' hstart' hfresh'.distinct turns'
  have hsame : ∀ partialResult, fleet.Sent partials partialResult ↔
      fleet'.Sent partials partialResult := fun partialResult =>
    ⟨hmerging.sent_of_sent hmerging' hvalid hdone', hmerging'.sent_of_sent hmerging hvalid hdone⟩
  refine ⟨hmerging.records_alike hmerging' hcompatible hsame hlawful.sound hlawful'.sound,
    hmerging.query_ne_nil hvalid hdone, ?_⟩
  intro index outcome outcome' hresult hresult'
  obtain ⟨call, hcall, -⟩ := exists_of_result?_eq hresult
  obtain ⟨invocation, hinvocation, -⟩ := hlawful.own hcall
  obtain ⟨partialResult, -, hindex, -⟩ := exists_of_sends hsends hinvocation
  obtain ⟨setting, hsetting⟩ :=
    Option.isSome_iff_exists.1 (hvalid partialResult (List.mem_of_getElem? hindex))
  rw [hmerging.outcomes hindex hsetting hresult, hmerging'.outcomes hindex hsetting hresult']

/-- Two sends to an empty store: in one run they race to create the record and the second loses, in
the other the second comes first. -/
theorem merged_alike_pair :
    let result (setting : Setting) : PartialResult :=
      .single ⟨"4f1c"⟩ ⟨2024, 17⟩ setting .empty ⟨""⟩
    let partials := [result ⟨"10-200"⟩, (result ⟨"20-200"⟩).withRelease true]
    let invocations := partials.map fun partialResult => .send ⟨{}, "Hash-index"⟩ partialResult
    let raced := (start .empty invocations).follow Source.unary [0, 1, 0, 1, 1, 1]
    let turned := (start .empty invocations).follow Source.unary [1, 1, 0, 0, 0]
    Compatible ⟨"4f1c"⟩ ⟨2024, 17⟩ partials ∧ MemoryStore.empty.Sound ∧
      List.Forall₂ Invocation.Sends partials invocations ∧
      Source.unary.Fresh .empty invocations ∧ raced.Succeeds 2 ∧ turned.Succeeds 2 ∧
      (raced.store.query ⟨"4f1c"⟩).map Record.withoutToken =
        (turned.store.query ⟨"4f1c"⟩).map Record.withoutToken := by
  intro result partials invocations raced turned
  have hcompatible : Compatible ⟨"4f1c"⟩ ⟨2024, 17⟩ partials :=
    ⟨by decide, by decide, by decide, by decide⟩
  have hsends : List.Forall₂ Invocation.Sends partials invocations :=
    .cons ⟨_, rfl⟩ (.cons ⟨_, rfl⟩ .nil)
  have hfresh : Source.unary.Fresh .empty invocations := by
    refine ⟨Source.unary_distinct, fun h => (by cases h), fun {transmitter partialResult} h => ?_⟩
    obtain ⟨sent, hsent, heq⟩ := List.mem_map.1 h
    cases heq
    have hempty : ∀ partialResult ∈ partials, partialResult.versionToken = ⟨""⟩ := by decide
    rw [hempty _ hsent]
    exact Source.avoids_unary 0
  have hraced : raced.Succeeds 2 := by
    intro index hlt
    match index, hlt with
    | 0, _ => exact ⟨.sent ⟨"4f1c"⟩ true 1, by decide +kernel⟩
    | 1, _ => exact ⟨.sent ⟨"4f1c"⟩ false 2, by decide +kernel⟩
  have hturned : turned.Succeeds 2 := by
    intro index hlt
    match index, hlt with
    | 0, _ => exact ⟨.sent ⟨"4f1c"⟩ false 1, by decide +kernel⟩
    | 1, _ => exact ⟨.sent ⟨"4f1c"⟩ true 1, by decide +kernel⟩
  exact ⟨hcompatible, MemoryStore.sound_empty, hsends, hfresh, hraced, hturned,
    (merged_alike hcompatible MemoryStore.sound_empty hsends hsends hfresh hfresh hraced
      hturned).1⟩

end Fleet

end RevisionLedger
