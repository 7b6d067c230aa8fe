import Mathlib.Data.List.TakeWhile
import RevisionLedger.Proofs.Transmit.Conversation

/-!
# Retries

What a call asks of a store that answers as it likes, if nothing interrupts it. A round is a look-up
and an update of the one record that it found (`Round`). Another round follows only if the update
was refused with a conflict, and there are no more rounds than the policy allows attempts, but at
least one (`Rounds`). A send
first looks whether there is a record, and creates it if there is none (`Sending`); a tag only makes
rounds. The main statement is `Invocation.retry_discipline`.
-/

namespace RevisionLedger

/-! ## 1. Rounds -/

/-- What an update of a record writes. A send adds its setting with its metrics, and the flag that
it sets; a tag sets the flag and the label. -/
def Intent.Drafts (intent : Intent) (current : Record) (token : VersionToken) (delta : Delta) :
    Prop :=
  match intent with
  | .merge incoming setting => current.hasSetting setting = false ∧
    ∃ metrics, incoming.results.find? setting = some metrics ∧
      delta = {
        addedResults := SortedMap.empty.insert setting metrics
        isRelease := incoming.isRelease
        releaseLabel := none
        revisionHash :=
          if incoming.revisionHash = current.revisionHash then none
          else some incoming.revisionHash
        versionToken := token }
  | .release label => delta = ⟨.empty, some true, some label, none, token⟩

theorem Intent.drafts_of_delta {intent : Intent} {current : Record} {token : VersionToken}
    {delta : Delta} (h : intent.delta current token = .ok delta) :
    intent.Drafts current token delta := by
  cases intent with
  | merge incoming setting =>
    obtain ⟨hnew, metrics, hmetrics, rfl⟩ := delta_merge_eq_ok.1 h
    refine ⟨?_, metrics, hmetrics, rfl⟩
    rw [Record.hasSetting, SortedMap.contains, hnew]
    rfl
  | release label =>
    cases h
    rfl

section Grammar

variable (transmitter : Transmitter) (revision : RevisionHash) (intent : Intent)

/-- A look-up of the records of a revision. -/
def lookUp (answer : Answer) (chance : Chance) : Exchange :=
  ⟨.query transmitter.hashIndex revision, answer, chance⟩

/-- An update of a record under the condition that it still is the one that was read. -/
def updateOf (current : Record) (delta : Delta) (answer : Answer) (chance : Chance) : Exchange :=
  ⟨.update current.key delta current.versionToken, answer, chance⟩

/-- One round of a call that has counted so many writes before, and what it comes to: the conflict
that lost it, or the result of the call. -/
inductive Round (writes : Nat) : List Exchange → StoreError ⊕ Except TransmitError Outcome → Prop
  | unread {error : StoreError} {chance : Chance} :
    Round writes [lookUp transmitter revision (.failed error) chance]
      (.inr (.error (.store revision error)))
  | ambiguous {records : List Record} {chance : Chance} : 1 < records.length →
    Round writes [lookUp transmitter revision (.done records) chance]
      (.inr (.error (.store revision
        (.invalid s!"{records.length} records share hash {revision.text}"))))
  | missing {chance : Chance} : Round writes [lookUp transmitter revision (.done []) chance]
      (.inr (.error (.notFound revision)))
  | recorded {current : Record} {setting : Setting} {chance : Chance} :
    intent.setting? = some setting → current.hasSetting setting →
    Round writes [lookUp transmitter revision (.done [current]) chance]
      (.inr (.ok (.skipped revision setting writes)))
  | updated {current : Record} {delta : Delta} {records : List Record} {first second : Chance} :
    intent.Drafts current first.token delta →
    Round writes [lookUp transmitter revision (.done [current]) first,
      updateOf current delta (.done records) second]
      (.inr (.ok (.sent revision false (writes + 1))))
  | refused {current : Record} {delta : Delta} {error : StoreError} {first second : Chance} :
    intent.Drafts current first.token delta → error.kind = .unavailable →
    Round writes [lookUp transmitter revision (.done [current]) first,
      updateOf current delta (.failed error) second] (.inr (.error (.store revision error)))
  | vanished {current : Record} {delta : Delta} {error : StoreError} {first second : Chance} :
    intent.Drafts current first.token delta → error.kind = .notFound →
    Round writes [lookUp transmitter revision (.done [current]) first,
      updateOf current delta (.failed error) second] (.inr (.error (.notFound revision)))
  | lost {current : Record} {delta : Delta} {error : StoreError} {first second : Chance} :
    intent.Drafts current first.token delta → error.kind = .conflict →
    Round writes [lookUp transmitter revision (.done [current]) first,
      updateOf current delta (.failed error) second] (.inl error)

/-- At least one round and at most so many, with a pause before every further one. -/
inductive Rounds : (allowed writes : Nat) → List Exchange → Except TransmitError Outcome → Prop
  | settled {allowed writes : Nat} {log : List Exchange} {result : Except TransmitError Outcome} :
    Round transmitter revision intent writes log (.inr result) →
    Rounds (allowed + 1) writes log result
  | exhausted {writes : Nat} {log : List Exchange} {error : StoreError} :
    Round transmitter revision intent writes log (.inl error) →
    Rounds 1 writes log
      (.error (.maxAttemptsExceeded revision (max 1 transmitter.policy.maxAttempts.toNat)
        (some error)))
  | again {allowed writes : Nat} {log more : List Exchange} {error : StoreError} {delayMs : Nat}
    {answer : Answer} {chance : Chance} {result : Except TransmitError Outcome} :
    Round transmitter revision intent writes log (.inl error) →
    delayMs ≤ transmitter.policy.thresholdMs.toNat →
    Rounds (allowed + 1) (writes + 1) more result →
    Rounds (allowed + 2) writes (log ++ ⟨.pause delayMs, answer, chance⟩ :: more) result

/-- A send of one setting. -/
inductive Sending (incoming : PartialResult) (setting : Setting) :
    List Exchange → Except TransmitError Outcome → Prop
  | unread {error : StoreError} {chance : Chance} : Sending incoming setting
      [lookUp transmitter incoming.revisionHash (.failed error) chance]
      (.error (.store incoming.revisionHash error))
  | ambiguous {records : List Record} {chance : Chance} : 1 < records.length →
    Sending incoming setting [lookUp transmitter incoming.revisionHash (.done records) chance]
      (.error (.store incoming.revisionHash
        (.invalid s!"{records.length} records share hash {incoming.revisionHash.text}")))
  | found {current : Record} {chance : Chance} {log : List Exchange}
    {result : Except TransmitError Outcome} :
    Rounds transmitter incoming.revisionHash (.merge incoming setting)
      (max 1 transmitter.policy.maxAttempts.toNat) 0 log result →
    Sending incoming setting
      (lookUp transmitter incoming.revisionHash (.done [current]) chance :: log) result
  | created {records : List Record} {first second : Chance} : Sending incoming setting
      [lookUp transmitter incoming.revisionHash (.done []) first,
        ⟨.put incoming.toRecord, .done records, second⟩]
      (.ok (.sent incoming.revisionHash true 1))
  | refused {error : StoreError} {first second : Chance} : error.kind ≠ .conflict →
    Sending incoming setting
      [lookUp transmitter incoming.revisionHash (.done []) first,
        ⟨.put incoming.toRecord, .failed error, second⟩]
      (.error (.store incoming.revisionHash error))
  | beaten {error : StoreError} {first second : Chance} {log : List Exchange}
    {result : Except TransmitError Outcome} : error.kind = .conflict →
    Rounds transmitter incoming.revisionHash (.merge incoming setting)
      (max 1 transmitter.policy.maxAttempts.toNat) 1 log result →
    Sending incoming setting
      (lookUp transmitter incoming.revisionHash (.done []) first ::
        ⟨.put incoming.toRecord, .failed error, second⟩ :: log) result

end Grammar

section Counts

variable {transmitter : Transmitter} {revision : RevisionHash} {intent : Intent}

theorem Round.updates_le {writes : Nat} {log : List Exchange}
    {outcome : StoreError ⊕ Except TransmitError Outcome}
    (h : Round transmitter revision intent writes log outcome) : updates log ≤ 1 := by
  cases h with
  | unread | ambiguous | missing | recorded => exact Nat.zero_le 1
  | updated | refused | vanished | lost => exact Nat.le_refl 1

theorem Rounds.updates_le {allowed writes : Nat} {log : List Exchange}
    {result : Except TransmitError Outcome}
    (h : Rounds transmitter revision intent allowed writes log result) :
    updates log ≤ allowed := by
  induction h with
  | settled hround => exact Nat.le_trans hround.updates_le (Nat.succ_le_succ (Nat.zero_le _))
  | exhausted hround => exact hround.updates_le
  | @again allowed _ log more _ delayMs answer chance _ hround hdelay hrest ih =>
    have hpause : updates (⟨.pause delayMs, answer, chance⟩ :: more) = updates more := rfl
    have hlog := hround.updates_le
    rw [updates_append, hpause]
    omega

theorem Sending.updates_le {incoming : PartialResult} {setting : Setting} {log : List Exchange}
    {result : Except TransmitError Outcome}
    (h : Sending transmitter incoming setting log result) :
    updates log ≤ max 1 transmitter.policy.maxAttempts.toNat := by
  cases h with
  | unread | ambiguous | created | refused => exact Nat.zero_le _
  | found hrounds => exact hrounds.updates_le
  | beaten hkind hrounds => exact hrounds.updates_le

end Counts

/-! ## 2. Conversations that nothing interrupts -/

namespace Call

/-- A whole conversation of a call, and how the call ends. -/
inductive Converses : Call → List Exchange → Except TransmitError Outcome → Prop
  | ended {call : Call} {result : Except TransmitError Outcome} :
    call.result? = some result → Converses call [] result
  | said {call : Call} {request : Request} {answer : Answer} {chance : Chance}
    {log : List Exchange} {result : Except TransmitError Outcome} :
    call.request? = some request → answer ≠ .ended →
    Converses (call.resume answer chance) log result →
    Converses call (⟨request, answer, chance⟩ :: log) result

theorem exists_converses {call : Call} {heard : List (Answer × Chance)}
    (hlong : call.rank ≤ heard.length) (hgoing : ∀ told ∈ heard, told.1 ≠ .ended) :
    ∃ result, (call.hear heard).result? = some result ∧
      call.Converses (call.exchanges heard) result := by
  obtain ⟨result, hresult⟩ := Option.isSome_iff_exists.1 (result?_hear hlong)
  refine ⟨result, hresult, ?_⟩
  -- The bound is of no more use, and would have to be carried through the induction.
  clear hlong
  induction heard generalizing call with
  | nil => exact .ended hresult
  | cons told heard ih =>
    obtain ⟨answer, chance⟩ := told
    cases hrequest : call.request? with
    | none =>
      rw [hear_of_ended hrequest] at hresult
      rw [exchanges_of_ended hrequest]
      exact .ended hresult
    | some request =>
      rw [exchanges_cons hrequest]
      refine .said hrequest (hgoing _ List.mem_cons_self) (ih ?_ hresult)
      exact fun told htold => hgoing told (List.mem_cons_of_mem _ htold)

section Converses

variable {call : Call} {log : List Exchange} {result : Except TransmitError Outcome}

theorem Converses.exists_said (h : call.Converses log result) {request : Request}
    (hrequest : call.request? = some request) : ∃ answer chance rest, answer ≠ .ended ∧
      log = ⟨request, answer, chance⟩ :: rest ∧
      (call.resume answer chance).Converses rest result := by
  cases h with
  | ended hresult =>
    have hended := request?_eq_none_iff.2 (by rw [hresult]; rfl)
    rw [hended] at hrequest
    cases hrequest
  | said hasked hgoing hrest =>
    cases hasked.symm.trans hrequest
    exact ⟨_, _, _, hgoing, rfl, hrest⟩

theorem Converses.of_finished (h : call.Converses log result)
    {outcome : Except TransmitError Outcome} (hphase : call.phase = .finished outcome) :
    log = [] ∧ result = outcome := by
  cases h with
  | ended hresult =>
    rw [phase_of_result? hresult] at hphase
    cases hphase
    exact ⟨rfl, rfl⟩
  | said hrequest =>
    rw [request?, hphase] at hrequest
    cases hrequest

theorem Converses.update (h : call.Converses log result) {later writes : Nat} {current : Record}
    {delta : Delta} (hphase : call.phase = .writing later current delta)
    (hwrites : call.writes = writes + 1) {first : Chance}
    (hdraft : call.intent.Drafts current first.token delta) :
    Round call.transmitter call.revision call.intent writes
        (lookUp call.transmitter call.revision (.done [current]) first :: log) (.inr result) ∨
      ∃ error second rest, error.kind = .conflict ∧
        log = updateOf current delta (.failed error) second :: rest ∧
        (call.resumeConflict later second.draw error).Converses rest result := by
  have hrequest : call.request? = some (.update current.key delta current.versionToken) := by
    rw [request?, hphase]
  obtain ⟨answer, second, rest, hgoing, rfl, hrest⟩ := h.exists_said hrequest
  rw [show call.resume answer second = call.resumeWriting later second.draw answer by
    simp only [resume, hphase]] at hrest
  cases answer with
  | ended => exact absurd rfl hgoing
  | done records =>
    obtain ⟨rfl, rfl⟩ := hrest.of_finished rfl
    rw [hwrites]
    exact Or.inl (.updated hdraft)
  | failed error =>
    cases hkind : error.kind with
    | conflict =>
      simp only [resumeWriting, hkind] at hrest
      exact Or.inr ⟨error, second, rest, hkind, rfl, hrest⟩
    | notFound =>
      simp only [resumeWriting, hkind] at hrest
      obtain ⟨rfl, rfl⟩ := hrest.of_finished rfl
      exact Or.inl (.vanished hdraft hkind)
    | unavailable =>
      simp only [resumeWriting, hkind] at hrest
      obtain ⟨rfl, rfl⟩ := hrest.of_finished rfl
      exact Or.inl (.refused hdraft hkind)

/-- A call that is about to read makes a round, and ends or has lost it. -/
theorem Converses.round (h : call.Converses log result) {later : Nat}
    (hphase : call.phase = .reading later) (hfor : call.intent.IsFor call.revision) :
    Round call.transmitter call.revision call.intent call.writes log (.inr result) ∨
      ∃ lost error rest draw next,
        Round call.transmitter call.revision call.intent call.writes lost (.inl error) ∧
        log = lost ++ rest ∧ call.SameTask next ∧ next.writes = call.writes + 1 ∧
        (next.resumeConflict later draw error).Converses rest result := by
  have hrequest : call.request? = some (.query call.transmitter.hashIndex call.revision) := by
    rw [request?, hphase]
  obtain ⟨answer, first, rest, hgoing, rfl, hrest⟩ := h.exists_said hrequest
  rw [show call.resume answer first = call.resumeReading later first.token answer by
    simp only [resume, hphase]] at hrest
  rcases answer with _ | error | _ | ⟨current, _ | ⟨two, records⟩⟩
  · exact absurd rfl hgoing
  · obtain ⟨rfl, rfl⟩ := hrest.of_finished rfl
    exact Or.inl .unread
  · obtain ⟨rfl, rfl⟩ := hrest.of_finished rfl
    exact Or.inl .missing
  · cases hdelta : call.intent.delta current first.token with
    | error setting =>
      simp only [resumeReading, hdelta] at hrest
      obtain ⟨rfl, rfl⟩ := hrest.of_finished rfl
      obtain ⟨hsetting, hhas⟩ := Intent.delta_eq_error hfor hdelta
      exact Or.inl (.recorded hsetting hhas)
    | ok delta =>
      simp only [resumeReading, hdelta] at hrest
      have hdraft := Intent.drafts_of_delta hdelta
      rcases hrest.update rfl rfl hdraft with hsettled | ⟨error, second, more, hkind, rfl, hmore⟩
      · exact Or.inl hsettled
      · -- The race was lost by the call as it was after the update was sent.
        refine Or.inr ⟨[_, _], error, more, second.draw,
          { call with writes := call.writes + 1, phase := .writing later current delta },
          .lost hdraft hkind, rfl, ⟨rfl, rfl, rfl⟩, rfl, hmore⟩
  · obtain ⟨rfl, rfl⟩ := hrest.of_finished rfl
    exact Or.inl (.ambiguous (Nat.succ_lt_succ (Nat.succ_pos _)))

theorem Converses.rounds (h : call.Converses log result) {later : Nat}
    (hphase : call.phase = .reading later) (hfor : call.intent.IsFor call.revision) :
    Rounds call.transmitter call.revision call.intent (later + 1) call.writes log result := by
  -- The induction is on the number of rounds that may still follow this one.
  induction later generalizing call log with
  | zero =>
    rcases h.round hphase hfor with hsettled | ⟨lost, error, rest, draw, next, hlost, rfl, htask, -,
      hrest⟩
    · exact .settled hsettled
    · obtain ⟨rfl, rfl⟩ := hrest.of_finished rfl
      rw [List.append_nil, Call.rounds, htask.1, htask.2.1]
      exact .exhausted hlost
  | succ later ih =>
    rcases h.round hphase hfor with hsettled | ⟨lost, error, rest, draw, next, hlost, rfl, htask,
      hwrites, hrest⟩
    · exact .settled hsettled
    · -- A pause comes first, after which the call looks again, whatever the pause is answered.
      obtain ⟨answer, chance, more, hgoing, rfl, hmore⟩ := hrest.exists_said rfl
      have hresume : (next.resumeConflict (later + 1) draw error).resume answer chance =
          { next.resumeConflict (later + 1) draw error with phase := .reading later } := by
        cases answer with
        | ended => exact absurd rfl hgoing
        | failed error => rfl
        | done records => rfl
      rw [hresume] at hmore
      obtain ⟨htransmitter, hrevision, hintent⟩ := htask
      have hnextFor : next.intent.IsFor next.revision := by
        rw [hintent, hrevision]
        exact hfor
      have hrounds := ih hmore rfl hnextFor
      have hdelay := next.transmitter.policy.delayMs_le draw
      change Rounds next.transmitter next.revision next.intent (later + 1) next.writes more
        result at hrounds
      rw [hwrites, htransmitter, hrevision, hintent] at hrounds
      rw [htransmitter] at hdelay ⊢
      exact .again hlost hdelay hrounds

theorem Converses.all_rounds (h : call.Converses log result)
    (hphase : call.phase = .reading (call.rounds - 1)) (hfor : call.intent.IsFor call.revision) :
    Rounds call.transmitter call.revision call.intent
      (max 1 call.transmitter.policy.maxAttempts.toNat) call.writes log result := by
  have hrounds := h.rounds hphase hfor
  rw [Nat.sub_add_cancel call.rounds_pos] at hrounds
  exact hrounds

theorem Converses.sending {transmitter : Transmitter} {incoming : PartialResult}
    {setting : Setting} (h : (start transmitter incoming.revisionHash (.merge incoming setting)
      (.opening incoming.toRecord)).Converses log result)
    (hhas : (incoming.results.find? setting).isSome) :
    Sending transmitter incoming setting log result := by
  have hfor : (Intent.merge incoming setting).IsFor incoming.revisionHash := ⟨rfl, hhas⟩
  obtain ⟨answer, first, rest, hgoing, rfl, hrest⟩ := h.exists_said rfl
  rcases answer with _ | error | _ | ⟨current, _ | ⟨two, records⟩⟩
  · exact absurd rfl hgoing
  · obtain ⟨rfl, rfl⟩ := hrest.of_finished rfl
    exact .unread
  · -- Nothing was found, so the record is to be created.
    obtain ⟨answer, second, more, hgoing, rfl, hmore⟩ := hrest.exists_said rfl
    cases answer with
    | ended => exact absurd rfl hgoing
    | done records =>
      obtain ⟨rfl, rfl⟩ := hmore.of_finished rfl
      exact .created
    | failed error =>
      simp only [resume, start, resumeOpening, resumeCreating] at hmore
      split at hmore <;> rename_i hkind
      · exact .beaten hkind (hmore.all_rounds rfl hfor)
      · obtain ⟨rfl, rfl⟩ := hmore.of_finished rfl
        exact .refused hkind
  · exact .found (hrest.all_rounds rfl hfor)
  · obtain ⟨rfl, rfl⟩ := hrest.of_finished rfl
    exact .ambiguous (Nat.succ_lt_succ (Nat.succ_pos _))

end Converses

end Call

/-! ## 3. Invocations -/

/-- Nothing is left of a text exactly if all of it is blank. -/
theorem Text.isEmpty_trim (text : String) : (trim text).isEmpty = isBlankText text := by
  rw [Bool.eq_iff_iff, String.isEmpty_iff, trim, isBlankText, List.all_eq_true,
    String.ofList_eq_empty_iff, List.reverse_eq_nil_iff, List.dropWhile_eq_nil_iff]
  constructor
  · -- What is dropped in front is blank, and so is all of the rest.
    intro h c hc
    rw [← List.takeWhile_append_dropWhile (p := isBlank) (l := text.toList)] at hc
    rcases List.mem_append.1 hc with hc | hc
    · exact List.mem_takeWhile_imp hc
    · exact h c (List.mem_reverse.2 hc)
  · intro h c hc
    exact h c ((List.dropWhile_sublist isBlank).mem (List.mem_reverse.1 hc))

namespace Invocation

/-- What an invocation may ask of a store, and what it may come to. -/
def Disciplined (log : List Exchange) (result : Except TransmitError Outcome) : Invocation → Prop
  | .send transmitter incoming =>
    if Text.isBlankText incoming.revisionHash.text then
      log = [] ∧ result = .error (.invalid incoming.revisionHash .emptyHash)
    else
      match incoming.results.keys with
      | [setting] => Sending transmitter incoming setting log result
      | settings =>
        log = [] ∧ result = .error (.invalid incoming.revisionHash (.settingCount settings.length))
  | .tag transmitter revision label =>
    if Text.isBlankText revision.text then
      log = [] ∧ result = .error (.invalid revision .emptyHash)
    else if Text.isBlankText label then
      log = [] ∧ result = .error (.invalid revision .emptyLabel)
    else
      Rounds transmitter revision (.release (Text.trim label))
        (max 1 transmitter.policy.maxAttempts.toNat) 0 log result

section Disciplined

variable {log : List Exchange} {result : Except TransmitError Outcome}

theorem disciplined_send {transmitter : Transmitter} {incoming : PartialResult}
    (h : (Call.send transmitter incoming).Converses log result) :
    (Invocation.send transmitter incoming).Disciplined log result := by
  have hsize : incoming.results.size = incoming.results.keys.length := (List.length_map _).symm
  dsimp only [Call.send] at h
  dsimp only [Disciplined]
  by_cases hblank : Text.isBlankText incoming.revisionHash.text
  · rw [if_pos hblank] at h ⊢
    exact h.of_finished rfl
  · rw [if_neg hblank, hsize] at h
    rw [if_neg hblank]
    split
    · rename_i setting hkeys
      have hsetting := PartialResult.singleSetting?_eq_some_iff.2 hkeys
      rw [hsetting] at h
      exact h.sending (PartialResult.find?_singleSetting hsetting)
    · -- There is no setting, or more than one.
      rename_i hmany
      have hsetting : incoming.singleSetting? = none := by
        cases hone : incoming.singleSetting? with
        | none => rfl
        | some setting => exact absurd (PartialResult.singleSetting?_eq_some_iff.1 hone) (hmany _)
      rw [hsetting] at h
      exact h.of_finished rfl

theorem disciplined_tag {transmitter : Transmitter} {revision : RevisionHash} {label : String}
    (h : (Call.tag transmitter revision label).Converses log result) :
    (Invocation.tag transmitter revision label).Disciplined log result := by
  dsimp only [Call.tag] at h
  rw [Text.isEmpty_trim] at h
  dsimp only [Disciplined]
  by_cases hblank : Text.isBlankText revision.text
  · rw [if_pos hblank] at h ⊢
    exact h.of_finished rfl
  · rw [if_neg hblank] at h ⊢
    by_cases hempty : Text.isBlankText label
    · rw [if_pos hempty] at h ⊢
      exact h.of_finished rfl
    · rw [if_neg hempty] at h ⊢
      exact h.all_rounds rfl trivial

theorem Disciplined.updates_le {invocation : Invocation}
    (h : invocation.Disciplined log result) :
    updates log ≤ max 1 invocation.call.transmitter.policy.maxAttempts.toNat := by
  cases invocation with
  | send transmitter incoming =>
    rw [show (Invocation.send transmitter incoming).call.transmitter = transmitter from
      (Call.sameTask_send transmitter incoming).1]
    dsimp only [Disciplined] at h
    split at h
    · rw [h.1]
      exact Nat.zero_le _
    · split at h
      · exact h.updates_le
      · rw [h.1]
        exact Nat.zero_le _
  | tag transmitter revision label =>
    rw [show (Invocation.tag transmitter revision label).call.transmitter = transmitter from
      (Call.sameTask_tag transmitter revision label).1]
    dsimp only [Disciplined] at h
    split at h
    · rw [h.1]
      exact Nat.zero_le _
    · split at h
      · rw [h.1]
        exact Nat.zero_le _
      · exact h.updates_le

end Disciplined

/-- The retry discipline of a call that nothing interrupts, whatever the store answers. An invalid
input makes no request. A send creates a record or makes rounds, a tag makes rounds only, and there
are no more updates than the policy allows attempts, or one if it allows none. -/
theorem retry_discipline (invocation : Invocation) {heard : List (Answer × Chance)}
    (hlong : invocation.call.rank ≤ heard.length) (hgoing : ∀ told ∈ heard, told.1 ≠ .ended) :
    ∃ result, (invocation.call.hear heard).result? = some result ∧
      invocation.Disciplined (invocation.call.exchanges heard) result ∧
      updates (invocation.call.exchanges heard) ≤
        max 1 invocation.call.transmitter.policy.maxAttempts.toNat := by
  obtain ⟨result, hresult, hconverses⟩ := Call.exists_converses hlong hgoing
  have hdisciplined : invocation.Disciplined (invocation.call.exchanges heard) result := by
    cases invocation with
    | send transmitter incoming => exact disciplined_send hconverses
    | tag transmitter revision label => exact disciplined_tag hconverses
  exact ⟨result, hresult, hdisciplined, hdisciplined.updates_le⟩

/-- A send that another writer beats to the record and then to an update of it, and that updates it
after a pause. -/
theorem retry_discipline_beaten :
    let result (setting : Setting) : PartialResult :=
      .single ⟨"4f1c"⟩ ⟨2024, 17⟩ setting .empty ⟨""⟩
    let invocation : Invocation := .send ⟨{ maxAttempts := 2 }, "Hash-index"⟩ (result ⟨"10-200"⟩)
    let conflict : Answer := .failed (.conflict "")
    let found : Answer := .done [(result ⟨"20-200"⟩).toRecord]
    let answers := [.done [], conflict, found, conflict, .done [], found, .done [], .done []]
    let heard := answers.map fun answer => (answer, Chance.mk ⟨"x"⟩ 0)
    invocation.call.rank ≤ heard.length ∧ (∀ told ∈ heard, told.1 ≠ .ended) ∧
      ∃ result, (invocation.call.hear heard).result? = some result ∧
        invocation.Disciplined (invocation.call.exchanges heard) result ∧
        updates (invocation.call.exchanges heard) = 2 := by
  intro result invocation conflict found answers heard
  have hlong : invocation.call.rank ≤ heard.length := by decide
  have hgoing : ∀ told ∈ heard, told.1 ≠ .ended := by decide
  obtain ⟨ended, hresult, hdisciplined, -⟩ := retry_discipline invocation hlong hgoing
  exact ⟨hlong, hgoing, ended, hresult, hdisciplined, by decide⟩

end Invocation

end RevisionLedger
