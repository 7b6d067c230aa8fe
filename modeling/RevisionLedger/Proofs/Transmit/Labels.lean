import RevisionLedger.Proofs.Transmit.Contention
import RevisionLedger.Proofs.Transmit.Conversation

/-!
# Labels and the release flag

A tag sets a label and the release flag together. A send has no label, and carries a flag only if
its caller sets one. So a label comes with the flag, but need not keep it: a send that clears the
flag may follow (`Fleet.labelled_without_release`). What holds in every state that a run reaches is
that a record with a label bears the flag of the last update that set one
(`Fleet.labelled_is_release_unless_cleared`).

A flag that is set stays until an update sets another, whatever the tokens are. So nothing is asked
of the tokens here, and the invariants of honest calls are of no use.
-/

namespace RevisionLedger

/-! ## 1. What a call may write -/

/-- A delta with a label sets the flag. -/
theorem Intent.isRelease_delta {intent : Intent} {current : Record} {token : VersionToken}
    {delta : Delta} (h : intent.delta current token = .ok delta)
    (hlabel : delta.releaseLabel.isSome) : delta.isRelease = some true := by
  cases intent with
  | merge incoming setting =>
    obtain ⟨-, metrics, -, rfl⟩ := delta_merge_eq_ok.1 h
    cases hlabel
  | release label =>
    cases h
    rfl

/-- Only a send clears the flag, and only at its caller's wish. -/
theorem Intent.merge_of_clears {intent : Intent} {current : Record} {token : VersionToken}
    {delta : Delta} (h : intent.delta current token = .ok delta)
    (hclears : delta.isRelease = some false) :
    ∃ incoming setting, intent = .merge incoming setting ∧ incoming.isRelease = some false := by
  cases intent with
  | merge incoming setting =>
    obtain ⟨-, metrics, -, rfl⟩ := delta_merge_eq_ok.1 h
    exact ⟨incoming, setting, rfl, hclears⟩
  | release label =>
    cases h
    cases hclears

theorem Call.Sincere.releaseLabel_of_put {call : Call} (h : call.Sincere) {record : Record}
    (hrequest : call.request? = some (.put record)) : record.releaseLabel = none := by
  have hcreates := h.creates (Or.inr (phase_of_put hrequest))
  cases hintent : call.intent with
  | merge incoming setting =>
    rw [hintent] at hcreates
    rw [show record = incoming.toRecord from hcreates]
    rfl
  | release label =>
    rw [hintent] at hcreates
    exact hcreates.elim

theorem Call.Sincere.releaseLabel_of_update {call : Call} (h : call.Sincere) {key : RecordKey}
    {delta : Delta} {expected : VersionToken}
    (hrequest : call.request? = some (.update key delta expected))
    (hnone : delta.isRelease = none) : delta.releaseLabel = none := by
  obtain ⟨later, copy, hphase, -, -⟩ := phase_of_update hrequest
  obtain ⟨token, hdelta⟩ := h.drafts hphase
  cases hlabel : delta.releaseLabel with
  | none => rfl
  | some label =>
    have hset := Intent.isRelease_delta hdelta (by rw [hlabel]; rfl)
    rw [hnone] at hset
    cases hset

/-! ## 2. The last flag that was set -/

namespace Entry

/-- The release flag that an acknowledged update of a record sets. -/
def flag? (key : RecordKey) (entry : Entry) : Option Bool :=
  match entry.request, entry.answer with
  | .update updated delta _, .done _ => if updated = key then delta.isRelease else none
  | _, _ => none

/-- The flag that the updates of a record have left. -/
def lastFlag? (key : RecordKey) (log : List Entry) : Option Bool :=
  (log.filterMap (flag? key)).getLast?

theorem lastFlag?_append (key : RecordKey) (log : List Entry) (entry : Entry) :
    lastFlag? key (log ++ [entry]) = (entry.flag? key).or (lastFlag? key log) := by
  unfold lastFlag?
  rw [List.filterMap_append, List.getLast?_append]
  cases hflag : entry.flag? key <;> simp [hflag]

/-- The last flag comes from an entry after which none sets another. -/
theorem exists_of_lastFlag? {key : RecordKey} {log : List Entry} {flag : Bool}
    (h : lastFlag? key log = some flag) :
    ∃ before entry after, log = before ++ entry :: after ∧ entry.flag? key = some flag ∧
      ∀ later ∈ after, later.flag? key = none := by
  obtain ⟨flags, hflags⟩ := List.getLast?_eq_some_iff.1 h
  obtain ⟨before, rest, hlog, -, hrest⟩ := List.filterMap_eq_append_iff.1 hflags
  obtain ⟨unset, entry, after, rfl, -, hentry, hafter⟩ := List.filterMap_eq_cons_iff.1 hrest
  exact ⟨before ++ unset, entry, after, by rw [hlog, List.append_assoc], hentry,
    List.filterMap_eq_nil_iff.1 hafter⟩

end Entry

/-! ## 3. Runs -/

/-- A send, a tag, and a send that clears the flag. -/
def Invocation.retracted : List Invocation :=
  let revision : RevisionHash := ⟨"4f1c"⟩
  let result (setting : Setting) : PartialResult := .single revision ⟨2024, 17⟩ setting .empty ⟨""⟩
  [.send ⟨{}, "Hash-index"⟩ (result ⟨"10-200"⟩), .tag ⟨{}, "Hash-index"⟩ revision "v1",
    .send ⟨{}, "Hash-index"⟩ ((result ⟨"20-200"⟩).withRelease false)]

namespace Fleet

/-- Every record with a label bears the last flag that was set, and only sends have cleared it. -/
structure Flagged (invocations : List Invocation) (fleet : Fleet) (log : List Entry) : Prop where
  sincere : ∀ call ∈ fleet.calls, call.Sincere
  own : ∀ {index : Nat} {call : Call}, fleet.calls[index]? = some call →
    ∃ invocation : Invocation, invocations[index]? = some invocation ∧
      invocation.call.SameTask call
  labelled : ∀ {key record}, fleet.store.get? key = some record → record.releaseLabel.isSome →
    Entry.lastFlag? key log = some record.isRelease
  cleared : ∀ entry ∈ log, ∀ key, entry.flag? key = some false → ∃ transmitter incoming,
    invocations[entry.index]? = some (.send transmitter incoming) ∧
      incoming.isRelease = some false

theorem flagged_start (invocations : List Invocation) :
    Flagged invocations (start .empty invocations) [] := by
  constructor
  · intro call hcall
    obtain ⟨invocation, -, rfl⟩ := List.mem_map.1 hcall
    exact invocation.sincere_call
  · exact own_start
  · intro key record hget
    cases hget
  · intro entry hentry
    exact absurd hentry List.not_mem_nil

section Steps

variable {invocations : List Invocation} {store : MemoryStore} {log : List Entry} {call : Call}
  {request : Request}

/-- What a call asks for leaves every record with a label under the last flag that was set. -/
theorem labelled_serve
    (h : ∀ {key record}, store.get? key = some record → record.releaseLabel.isSome →
      Entry.lastFlag? key log = some record.isRelease)
    (hsincere : call.Sincere) (hrequest : call.request? = some request) (index : Nat)
    {key : RecordKey} {record : Record} (hget : (serve store request).1.get? key = some record)
    (hlabel : record.releaseLabel.isSome) :
    Entry.lastFlag? key (log ++ [⟨index, request, (serve store request).2⟩]) =
      some record.isRelease := by
  rw [Entry.lastFlag?_append]
  cases request with
  | query hashIndex hash => exact h hget hlabel
  | pause delayMs => exact h hget hlabel
  | put created =>
    rcases store.put_cases created with ⟨hput, -, -⟩ | ⟨error, hput, -, -⟩
    · simp only [serve, hput] at hget
      by_cases hkey : key = created.key
      -- A record that is created has no label.
      · rw [hkey, MemoryStore.get?_write_self] at hget
        obtain rfl := Option.some.inj hget
        rw [hsincere.releaseLabel_of_put hrequest] at hlabel
        cases hlabel
      · rw [MemoryStore.get?_write_of_ne _ _ hkey] at hget
        exact h hget hlabel
    · simp only [serve, hput] at hget
      exact h hget hlabel
  | update updated delta expected =>
    cases hupdate : store.update updated delta expected with
    | error error =>
      simp only [serve, hupdate] at hget ⊢
      exact h hget hlabel
    | ok next =>
      simp only [serve, hupdate] at hget ⊢
      obtain ⟨current, hcurrent, rfl⟩ := MemoryStore.of_update_eq_ok hupdate
      by_cases hkey : key = updated
      · rw [hkey, MemoryStore.get?_write_self] at hget
        obtain rfl := Option.some.inj hget
        show (if updated = key then delta.isRelease else none).or _ =
          some (delta.isRelease.getD current.isRelease)
        rw [if_pos hkey.symm]
        cases hflag : delta.isRelease with
        | some flag => rfl
        | none =>
          -- Then the update brings no label either, so the record had one before.
          have hold : current.releaseLabel.isSome := by
            have hlabels : (delta.releaseLabel.or current.releaseLabel).isSome := hlabel
            rwa [hsincere.releaseLabel_of_update hrequest hflag] at hlabels
          exact h (hkey ▸ hcurrent) hold
      -- The update of another record sets no flag of this one.
      · rw [MemoryStore.get?_write_of_ne _ _ hkey] at hget
        show (if updated = key then delta.isRelease else none).or _ = _
        rw [if_neg (Ne.symm hkey)]
        exact h hget hlabel

/-- A turn that clears a flag is one of a send that is to. -/
theorem clears_of_flag? (hsincere : call.Sincere) (hrequest : call.request? = some request)
    {index : Nat} {answer : Answer} {key : RecordKey}
    (h : (Entry.mk index request answer).flag? key = some false) :
    ∃ incoming setting, call.intent = .merge incoming setting ∧
      incoming.isRelease = some false := by
  unfold Entry.flag? at h
  split at h
  · rename_i updated delta expected records hupdate hdone
    obtain rfl : request = .update updated delta expected := hupdate
    obtain ⟨later, copy, hphase, -, -⟩ := Call.phase_of_update hrequest
    obtain ⟨token, hdelta⟩ := hsincere.drafts hphase
    split at h
    · exact Intent.merge_of_clears hdelta h
    · cases h
  · cases h

end Steps

theorem Flagged.step {source : Source} {invocations : List Invocation} {fleet : Fleet}
    {log : List Entry} (h : Flagged invocations fleet log) (turn : Nat) :
    Flagged invocations (fleet.step source turn) (log ++ (fleet.event? turn).toList) := by
  rcases event?_cases source fleet turn with ⟨hstore, hcalls, hentry⟩ | ⟨call, request, hcall,
    hrequest, hentry, hcalls, hstore⟩
  · rw [hentry, Option.toList_none, List.append_nil]
    exact ⟨by rw [hcalls]; exact h.sincere, by rw [hcalls]; exact h.own,
      by rw [hstore]; exact h.labelled, h.cleared⟩
  · rw [hentry, Option.toList_some]
    have hsincere := h.sincere call (List.mem_of_getElem? hcall)
    obtain ⟨invocation, hinvocation, htask⟩ := h.own hcall
    constructor
    · intro other hother
      rw [hcalls] at hother
      rcases List.mem_or_eq_of_mem_set hother with hold | rfl
      · exact h.sincere other hold
      · exact hsincere.resume _ _
    · intro index other hother
      rw [hcalls] at hother
      rcases getElem?_set_cases hother with ⟨rfl, rfl⟩ | ⟨-, hother⟩
      · exact ⟨invocation, hinvocation, htask.trans (Call.sameTask_resume ..)⟩
      · exact h.own hother
    · intro key record hget hlabel
      rw [hstore] at hget
      exact labelled_serve h.labelled hsincere hrequest turn hget hlabel
    · intro entry hentry key hflag
      rcases List.mem_append.1 hentry with hold | hnew
      · exact h.cleared entry hold key hflag
      · obtain rfl := List.mem_singleton.1 hnew
        obtain ⟨incoming, setting, hintent, hclears⟩ := clears_of_flag? hsincere hrequest hflag
        -- The intent is that of the invocation.
        rw [htask.2.2] at hintent
        cases invocation with
        | send transmitter partialResult =>
          have hsend := (Call.sameTask_send transmitter partialResult).2.2
          cases hsend.symm.trans hintent
          exact ⟨transmitter, incoming, hinvocation, hclears⟩
        | tag transmitter revision label =>
          cases (Call.sameTask_tag transmitter revision label).2.2.symm.trans hintent

theorem Flagged.follow {source : Source} {invocations : List Invocation} {fleet : Fleet}
    {log : List Entry} (h : Flagged invocations fleet log) (turns : List Nat) :
    Flagged invocations (fleet.follow source turns) (log ++ fleet.log source turns) := by
  induction turns generalizing fleet log with
  | nil =>
    rw [Fleet.log, List.append_nil]
    exact h
  | cons turn turns ih =>
    rw [Fleet.log, ← List.append_assoc]
    exact ih (h.step turn)

/-- A record with a label is a release, unless the last update that set the flag was one of a send
that was asked to clear it. -/
theorem labelled_is_release_unless_cleared (source : Source) (invocations : List Invocation)
    (turns : List Nat) {key : RecordKey} {record : Record}
    (hget : ((start .empty invocations).follow source turns).store.get? key = some record)
    (hlabel : record.releaseLabel.isSome) :
    record.isRelease = true ∨ ∃ before entry after,
      (start .empty invocations).log source turns = before ++ entry :: after ∧
      entry.flag? key = some false ∧ (∀ later ∈ after, later.flag? key = none) ∧
      ∃ transmitter incoming, invocations[entry.index]? = some (.send transmitter incoming) ∧
        incoming.isRelease = some false := by
  have hflagged : Flagged invocations ((start .empty invocations).follow source turns)
      ((start .empty invocations).log source turns) :=
    (flagged_start invocations).follow turns
  have hlast := hflagged.labelled hget hlabel
  cases hrelease : record.isRelease with
  | true => exact Or.inl rfl
  | false =>
    rw [hrelease] at hlast
    obtain ⟨before, entry, after, hlog, hflag, hafter⟩ := Entry.exists_of_lastFlag? hlast
    have hmem : entry ∈ (start .empty invocations).log source turns := by
      rw [hlog]
      exact List.mem_append_right _ List.mem_cons_self
    exact Or.inr ⟨before, entry, after, hlog, hflag, hafter,
      hflagged.cleared entry hmem key hflag⟩

/-- A label can stay when the flag goes: after a send and a tag, another send clears the flag. -/
theorem labelled_without_release : ¬∀ (source : Source) (invocations : List Invocation)
    (turns : List Nat) (key : RecordKey) (record : Record),
    ((start .empty invocations).follow source turns).store.get? key = some record →
      record.releaseLabel.isSome → record.isRelease = true := by
  intro h
  have hlast : ∃ record, ((start .empty Invocation.retracted).follow Source.unary
      [0, 0, 1, 1, 2, 2, 2]).store.get? ⟨2024, 17⟩ = some record ∧
      record.releaseLabel = some "v1" ∧ record.isRelease = false :=
    ⟨_, rfl, by decide, by decide⟩
  obtain ⟨record, hget, hlabel, hrelease⟩ := hlast
  have hset := h Source.unary Invocation.retracted _ _ record hget (by rw [hlabel]; rfl)
  rw [hrelease] at hset
  cases hset

theorem labelled_is_release_unless_cleared_retracted : ∃ record,
    ((start .empty Invocation.retracted).follow Source.unary [0, 0, 1, 1, 2, 2, 2]).store.get?
      ⟨2024, 17⟩ = some record ∧ record.releaseLabel.isSome ∧
    (record.isRelease = true ∨ ∃ before entry after,
      (start .empty Invocation.retracted).log Source.unary [0, 0, 1, 1, 2, 2, 2] =
        before ++ entry :: after ∧
      entry.flag? ⟨2024, 17⟩ = some false ∧ (∀ later ∈ after, later.flag? ⟨2024, 17⟩ = none) ∧
      ∃ transmitter incoming,
        Invocation.retracted[entry.index]? = some (.send transmitter incoming) ∧
        incoming.isRelease = some false) :=
  ⟨_, rfl, by decide, labelled_is_release_unless_cleared Source.unary Invocation.retracted
    [0, 0, 1, 1, 2, 2, 2] rfl (by decide)⟩

end Fleet

end RevisionLedger
