import Mathlib.Data.List.Nodup
import RevisionLedger.Proofs.Transmit.Conversation
import RevisionLedger.Proofs.Transmit.Fleet

/-!
# Contention

A call that loses a race loses it to another call, whose update was acknowledged meanwhile. While a
call is about to update a copy that is out of date it is owed one such update more than it has lost
races (`Call.owed`). So a call loses at most as many races as others win at its record, and since
each of them wins at most once, retries for all of them are enough (`Fleet.contention_bounded`).
-/

namespace RevisionLedger

/-! ## 1. What happened in a run -/

/-- What the call at an index asked for in one turn, and the answer. -/
structure Entry where
  index : Nat
  request : Request
  answer : Answer

namespace Entry

/-- An update that was refused with a conflict. -/
def isLost (entry : Entry) : Bool :=
  match entry.request, entry.answer with
  | .update _ _ _, .failed error => error.kind = .conflict
  | _, _ => false

/-- An update that was acknowledged. -/
def isWon (entry : Entry) : Bool :=
  match entry.request, entry.answer with
  | .update _ _ _, .done _ => true
  | _, _ => false

/-- The key that an update addresses. -/
def key? (entry : Entry) : Option RecordKey :=
  match entry.request with
  | .update key _ _ => some key
  | _ => none

end Entry

namespace Fleet

/-- What a turn adds to the record of a run; nothing if the call has ended. -/
def event? (fleet : Fleet) (index : Nat) : Option Entry :=
  (fleet.calls[index]?.bind Call.request?).map fun request =>
    ⟨index, request, (serve fleet.store request).2⟩

/-- The requests and answers of a run, in order. -/
def log (source : Source) : List Nat → Fleet → List Entry
  | [], _ => []
  | index :: turns, fleet =>
    (fleet.event? index).toList ++ log source turns (fleet.step source index)

/-- The number of races that the updates of a call lost. -/
def losses (index : Nat) (log : List Entry) : Nat :=
  log.countP fun entry => entry.index = index && entry.isLost

/-- The number of updates under a key that were acknowledged to other calls. -/
def rivalWins (index : Nat) (key : RecordKey) (log : List Entry) : Nat :=
  log.countP fun entry => entry.index ≠ index && entry.isWon && entry.key? = some key

/-- A turn of a call that waits is one entry; any other turn leaves the fleet as it is. -/
theorem event?_cases (source : Source) (fleet : Fleet) (index : Nat) :
    ((fleet.step source index).store = fleet.store ∧
        (fleet.step source index).calls = fleet.calls ∧ fleet.event? index = none) ∨
      ∃ call request, fleet.calls[index]? = some call ∧ call.request? = some request ∧
        fleet.event? index = some ⟨index, request, (serve fleet.store request).2⟩ ∧
        (fleet.step source index).calls = fleet.calls.set index
          (call.resume (serve fleet.store request).2 (source fleet.steps call)) ∧
        (fleet.step source index).store = (serve fleet.store request).1 := by
  unfold event?
  rcases fleet.step_cases source index with ⟨hstore, hcalls, hidle⟩ | ⟨call, request, hcall,
    hrequest, hcalls, hstore⟩
  · rw [hidle]
    exact Or.inl ⟨hstore, hcalls, rfl⟩
  · refine Or.inr ⟨call, request, hcall, hrequest, ?_, hcalls, hstore⟩
    rw [hcall, Option.bind_some, hrequest, Option.map_some]

theorem Lawful.event_cases {source : Source} {invocations : List Invocation} {fleet : Fleet}
    (h : fleet.Lawful source invocations) (index : Nat) :
    ((fleet.step source index).store = fleet.store ∧
        (fleet.step source index).calls = fleet.calls ∧ fleet.event? index = none) ∨
      ∃ call request answer, fleet.calls[index]? = some call ∧ call.request? = some request ∧
        fleet.event? index = some ⟨index, request, answer⟩ ∧
        (fleet.step source index).calls =
          fleet.calls.set index (call.resume answer (source fleet.steps call)) ∧
        Turn fleet.store call (source fleet.steps call) request answer
          (fleet.step source index).store
          (call.resume answer (source fleet.steps call)).phase := by
  rcases event?_cases source fleet index with hidle | ⟨call, request, hcall, hrequest, hentry,
    hcalls, hstore⟩
  · exact Or.inl hidle
  · refine Or.inr ⟨call, request, _, hcall, hrequest, hentry, hcalls, ?_⟩
    rw [hstore]
    exact h.turn hcall hrequest _

/-! ## 2. Every race that is lost is won by another call -/

theorem losses_append (index : Nat) (log more : List Entry) :
    losses index (log ++ more) = losses index log + losses index more :=
  List.countP_append

theorem rivalWins_append (index : Nat) (key : RecordKey) (log more : List Entry) :
    rivalWins index key (log ++ more) = rivalWins index key log + rivalWins index key more :=
  List.countP_append

theorem losses_of_not_isLost (index : Nat) {entry : Entry} (h : entry.isLost = false) :
    losses index [entry] = 0 := by
  simp [losses, h]

/-- A race counts for the call that lost it. -/
theorem losses_of_ne {index : Nat} {entry : Entry} (h : entry.index ≠ index) :
    losses index [entry] = 0 := by
  simp [losses, h]

theorem losses_of_isLost {index : Nat} {request : Request} {answer : Answer}
    (h : (Entry.mk index request answer).isLost) : losses index [⟨index, request, answer⟩] = 1 := by
  simp [losses, h]

theorem rivalWins_of_eq {index : Nat} {entry : Entry} (h : entry.index = index)
    (key : RecordKey) : rivalWins index key [entry] = 0 := by
  simp [rivalWins, h]

theorem rivalWins_of_isWon {index : Nat} {entry : Entry} (hindex : entry.index ≠ index)
    (h : entry.isWon) {key : RecordKey} (hkey : entry.key? = some key) :
    rivalWins index key [entry] = 1 := by
  simp [rivalWins, hindex, h, hkey]

end Fleet

/-- What a call that is about to update is owed: one race, if the copy is out of date. -/
def Call.owed (call : Call) (record : Record) : Nat :=
  match call.phase with
  | .writing _ copy _ => if record.versionToken = copy.versionToken then 0 else 1
  | _ => 0

theorem Call.owed_le_one (call : Call) (record : Record) : call.owed record ≤ 1 := by
  unfold owed
  split
  · split <;> omega
  · omega

namespace Fleet

/-- The updates of a call address the record of its revision. -/
def Addressed (fleet : Fleet) (log : List Entry) : Prop :=
  ∀ ⦃entry key⦄, entry ∈ log → entry.key? = some key →
    ∃ (call : Call) (record : Record), fleet.calls[entry.index]? = some call ∧
      fleet.store.get? key = some record ∧ record.revisionHash = call.revision

/-- The races that a call lost, and the one that it is owed, are paid for by other calls that won
at the record of its revision. -/
def Paid (index : Nat) (fleet : Fleet) (log : List Entry) : Prop :=
  ∀ ⦃call key record⦄, fleet.calls[index]? = some call → fleet.store.get? key = some record →
    record.revisionHash = call.revision →
    losses index log + call.owed record ≤ rivalWins index key log

section Paid

variable {source : Source} {invocations : List Invocation} {fleet : Fleet} {log : List Entry}
  {index : Nat}

theorem exists_key_of_isLost {entry : Entry} (h : entry.isLost) : ∃ key, entry.key? = some key := by
  unfold Entry.isLost at h
  split at h
  · rename_i key delta expected error hrequest hanswer
    exact ⟨key, by rw [Entry.key?, hrequest]⟩
  · cases h

/-- Without a record of its revision a call has lost no race and is owed none. -/
theorem Addressed.nothing (h : Addressed fleet log) (hlawful : fleet.Lawful source invocations)
    {call : Call} (hcall : fleet.calls[index]? = some call)
    (hnone : fleet.store.query call.revision = []) (record : Record) :
    losses index log = 0 ∧ call.owed record = 0 := by
  have hno := MemoryStore.query_eq_nil_iff.1 hnone
  constructor
  · refine List.countP_eq_zero.2 fun entry hentry hlost => ?_
    simp only [Bool.and_eq_true, decide_eq_true_eq] at hlost
    obtain ⟨key, hkey⟩ := exists_key_of_isLost hlost.2
    obtain ⟨owner, found, howner, hget, hhash⟩ := h hentry hkey
    rw [hlost.1, hcall] at howner
    rw [← Option.some.inj howner] at hhash
    exact hno key found hget hhash
  · unfold Call.owed
    split
    · rename_i later copy delta hphase
      obtain ⟨versions, -, hhonest⟩ := hlawful.honest
      have hrequest : call.request? = some (.update copy.key delta copy.versionToken) := by
        rw [Call.request?, hphase]
      have hbacked := (hhonest call (List.mem_of_getElem? hcall)).backed hrequest
      obtain ⟨original, -, hcopy, -⟩ := hbacked
      obtain ⟨current, hget, hext⟩ := hcopy.extended
      exact (hno _ current hget (hext.hash.trans hcopy.hash)).elim
    · rfl

/-- A turn of another call. -/
theorem Paid.step_other (h : Paid index fleet log) (haddressed : Addressed fleet log)
    (hlawful : fleet.Lawful source invocations)
    {other : Nat} (hne : other ≠ index) {call rival : Call} {chance : Chance} {request : Request}
    {answer : Answer} {next : MemoryStore} {phase : Phase}
    (hcall : fleet.calls[index]? = some call)
    (hturn : Turn fleet.store rival chance request answer next phase)
    {key : RecordKey} {record : Record} (hget : next.get? key = some record)
    (hhash : record.revisionHash = call.revision) :
    losses index (log ++ [⟨other, request, answer⟩]) + call.owed record ≤
      rivalWins index key (log ++ [⟨other, request, answer⟩]) := by
  have hlosses : losses index [⟨other, request, answer⟩] = 0 := losses_of_ne hne
  rw [losses_append, rivalWins_append, hlosses]
  cases hturn with
  | absent | found | beaten | missing | skipped | drafted | lost | exhausted | rested =>
    have hpaid := h hcall hget hhash
    omega
  | created hphase hcreates hrevision hquery hkey =>
    rename_i new
    by_cases hnew : key = new.key
    · -- The revision had no record before, so there is nothing to pay for.
      rw [hnew, MemoryStore.get?_write_self] at hget
      rw [← hrevision, Option.some.inj hget, hhash] at hquery
      obtain ⟨hzero, howed⟩ := haddressed.nothing hlawful hcall hquery record
      omega
    · rw [MemoryStore.get?_write_of_ne _ _ hnew] at hget
      have hpaid := h hcall hget hhash
      omega
  | updated hphase hkey hquery hdelta hext =>
    rename_i later copy current delta token
    by_cases hsame : key = current.key
    · -- The update may put the copy of the call out of date, but it is a win for a rival too.
      have hwins : rivalWins index key [⟨other, .update current.key delta current.versionToken,
          .done []⟩] = 1 := rivalWins_of_isWon hne rfl (congrArg some hsame.symm)
      obtain ⟨⟨stored, hcurrent⟩, -⟩ := MemoryStore.of_query_eq hquery
      have hstored : fleet.store.get? key = some current := by
        rw [hsame, hlawful.sound.keyed hcurrent]
        exact hcurrent
      rw [hsame, MemoryStore.get?_write_self] at hget
      have hpaid := h hcall hstored
        (by rw [← hext.hash, Option.some.inj hget]; exact hhash)
      have howed := call.owed_le_one record
      omega
    · rw [MemoryStore.get?_write_of_ne _ _ hsame] at hget
      have hpaid := h hcall hget hhash
      omega

/-- A turn of the call itself. -/
theorem Paid.step_own (h : Paid index fleet log) (haddressed : Addressed fleet log)
    (hlawful : fleet.Lawful source invocations)
    {call next : Call} {chance : Chance} {request : Request} {answer : Answer}
    {store : MemoryStore} (hcall : fleet.calls[index]? = some call)
    (hturn : Turn fleet.store call chance request answer store next.phase)
    {key : RecordKey} {record : Record} (hget : store.get? key = some record)
    (hhash : record.revisionHash = call.revision) :
    losses index (log ++ [⟨index, request, answer⟩]) + next.owed record ≤
      rivalWins index key (log ++ [⟨index, request, answer⟩]) := by
  have hwins : rivalWins index key [⟨index, request, answer⟩] = 0 := rivalWins_of_eq rfl key
  -- A copy that is out of date is a race that the call is owed.
  have hdue : ∀ {later copy current delta}, call.phase = .writing later copy delta →
      fleet.store.get? copy.key = some current → current.revisionHash = call.revision →
      current.versionToken ≠ copy.versionToken → store = fleet.store →
      losses index log + 1 ≤ rivalWins index key log := by
    intro later copy current delta hphase hcurrent hcurrentHash hmoved hstore
    rw [hstore] at hget
    have hsame := hlawful.sound.unique hget hcurrent (hhash.trans hcurrentHash.symm)
    rw [hsame, hcurrent] at hget
    obtain rfl := Option.some.inj hget
    have howed : call.owed current = 1 := by rw [Call.owed, hphase]; exact if_neg hmoved
    have hpaid := h hcall hcurrent hcurrentHash
    rw [howed, ← hsame] at hpaid
    exact hpaid
  rw [losses_append, rivalWins_append, hwins]
  unfold Call.owed
  generalize next.phase = phase at hturn
  cases hturn with
  | absent | found | beaten | missing | skipped | rested =>
    rw [losses_of_not_isLost]
    · have hpaid := h hcall hget hhash
      dsimp only
      omega
    · rfl
  | drafted hphase hquery hdelta =>
    rw [losses_of_not_isLost]
    · -- The copy is the record itself.
      have hcurrent := hlawful.sound.query_of_get? hget
      rw [hhash, hquery] at hcurrent
      have hpaid := h hcall hget hhash
      dsimp only
      rw [(List.cons.inj hcurrent).1, if_pos rfl]
      omega
    · rfl
  | created hphase hcreates hrevision hquery hkey =>
    rw [losses_of_not_isLost]
    · obtain ⟨hzero, -⟩ := haddressed.nothing hlawful hcall hquery record
      dsimp only
      omega
    · rfl
  | updated hphase hkey hquery hdelta hext =>
    rw [losses_of_not_isLost]
    · -- The call has ended, and is owed nothing any more.
      rename_i later copy current delta token
      obtain ⟨⟨stored, hcurrent⟩, hcurrentHash⟩ := MemoryStore.of_query_eq hquery
      obtain rfl := hlawful.sound.keyed hcurrent
      have hsame : key = current.key := by
        by_cases hne : key = current.key
        · exact hne
        · rw [MemoryStore.get?_write_of_ne _ _ hne] at hget
          exact hlawful.sound.unique hget hcurrent (hhash.trans hcurrentHash.symm)
      rw [← hsame] at hcurrent
      have hpaid := h hcall hcurrent hcurrentHash
      dsimp only
      omega
    · rfl
  | lost hphase hcurrent hcurrentHash hmoved hkind =>
    rw [losses_of_isLost]
    · have hpaid := hdue hphase hcurrent hcurrentHash hmoved rfl
      dsimp only
      omega
    · exact decide_eq_true hkind
  | exhausted hphase hcurrent hcurrentHash hmoved hkind =>
    rw [losses_of_isLost]
    · have hpaid := hdue hphase hcurrent hcurrentHash hmoved rfl
      dsimp only
      omega
    · exact decide_eq_true hkind

theorem Paid.of_not_writing (hphase : ∀ {call later copy delta}, fleet.calls[index]? = some call →
    call.phase ≠ .writing later copy delta) : Paid index fleet [] := by
  intro call key record hcall hget hhash
  have howed : call.owed record = 0 := by
    unfold Call.owed
    split
    · exact absurd ‹_› (hphase hcall)
    · rfl
  rw [howed]
  exact Nat.zero_le _

theorem Addressed.step (h : Addressed fleet log) (hlawful : fleet.Lawful source invocations)
    (hdistinct : source.Distinct) (turn : Nat) :
    Addressed (fleet.step source turn) (log ++ (fleet.event? turn).toList) := by
  obtain ⟨-, hgrows⟩ := hlawful.step hdistinct turn
  rcases hlawful.event_cases turn with ⟨hstore, hcalls, hentry⟩ | ⟨mover, request, answer, hmover,
    hrequest, hentry, hcalls, hturn⟩
  · rw [hentry, Option.toList_none, List.append_nil]
    unfold Addressed
    rw [hcalls, hstore]
    exact h
  · rw [hentry, Option.toList_some]
    generalize fleet.step source turn = next at hcalls hturn hgrows ⊢
    -- It is enough that there was such a record before the turn.
    have hkept : ∀ {place : Nat} {key : RecordKey} {before : Call} {record : Record},
        fleet.calls[place]? = some before → fleet.store.get? key = some record →
        record.revisionHash = before.revision → ∃ (call : Call) (record : Record),
          next.calls[place]? = some call ∧ next.store.get? key = some record ∧
          record.revisionHash = call.revision := by
      intro place key before record hbefore hget hhash
      obtain ⟨later, hlater, hext⟩ := hgrows key record hget
      rw [hcalls]
      by_cases hsame : turn = place
      · rw [← hsame, hmover] at hbefore
        obtain rfl := Option.some.inj hbefore
        subst hsame
        refine ⟨_, later, List.getElem?_set_self (List.getElem?_eq_some_iff.1 hmover).1, hlater, ?_⟩
        rw [Call.revision_resume]
        exact hext.hash.trans hhash
      · exact ⟨before, later, by rw [List.getElem?_set_ne hsame]; exact hbefore, hlater,
          hext.hash.trans hhash⟩
    intro entry key hmem hkey
    rcases List.mem_append.1 hmem with hold | hnew
    · obtain ⟨call, record, hcall, hget, hhash⟩ := h hold hkey
      exact hkept hcall hget hhash
    · obtain rfl := List.mem_singleton.1 hnew
      have hrecord : ∃ record, fleet.store.get? key = some record ∧
          record.revisionHash = mover.revision := by
        generalize (mover.resume answer (source fleet.steps mover)).phase = phase at hturn
        generalize next.store = after at hturn
        cases hturn with
        | absent | found | created | beaten | missing | skipped | drafted | rested => cases hkey
        | updated hphase hkey' hquery hdelta hext =>
          obtain ⟨⟨stored, hget⟩, hhash⟩ := MemoryStore.of_query_eq hquery
          obtain rfl := hlawful.sound.keyed hget
          cases hkey
          exact ⟨_, hget, hhash⟩
        | lost hphase hget hhash | exhausted hphase hget hhash =>
          cases hkey
          exact ⟨_, hget, hhash⟩
      obtain ⟨record, hget, hhash⟩ := hrecord
      exact hkept hmover hget hhash

theorem Paid.step (h : Paid index fleet log) (haddressed : Addressed fleet log)
    (hlawful : fleet.Lawful source invocations) (turn : Nat) :
    Paid index (fleet.step source turn) (log ++ (fleet.event? turn).toList) := by
  rcases hlawful.event_cases turn with ⟨hstore, hcalls, hentry⟩ | ⟨mover, request, answer, hmover,
    hrequest, hentry, hcalls, hturn⟩
  · rw [hentry, Option.toList_none, List.append_nil]
    unfold Paid
    rw [hcalls, hstore]
    exact h
  · rw [hentry, Option.toList_some]
    intro call key record hcall hget hhash
    rw [hcalls] at hcall
    rcases getElem?_set_cases hcall with ⟨rfl, rfl⟩ | ⟨hne, hcall⟩
    · rw [Call.revision_resume] at hhash
      exact h.step_own haddressed hlawful hmover hturn hget hhash
    · exact h.step_other haddressed hlawful hne hcall hturn hget hhash

end Paid

/-! ## 3. No call wins twice, and every round costs a race -/

/-- A call that won has ended, and won once. -/
structure Won (fleet : Fleet) (log : List Entry) : Prop where
  once : ((log.filter Entry.isWon).map Entry.index).Nodup
  ended : ∀ ⦃entry⦄, entry ∈ log → entry.isWon →
    ∃ call, fleet.calls[entry.index]? = some call ∧ call.request? = none

theorem won_nil (fleet : Fleet) : Won fleet [] :=
  ⟨List.nodup_nil, fun _ hentry => absurd hentry List.not_mem_nil⟩

theorem Won.step {source : Source} {invocations : List Invocation} {fleet : Fleet}
    {log : List Entry} (h : Won fleet log) (hlawful : fleet.Lawful source invocations)
    (turn : Nat) : Won (fleet.step source turn) (log ++ (fleet.event? turn).toList) := by
  rcases hlawful.event_cases turn with ⟨-, hcalls, hentry⟩ | ⟨mover, request, answer, hmover,
    hrequest, hentry, hcalls, hturn⟩
  · rw [hentry, Option.toList_none, List.append_nil]
    exact ⟨h.once, by rw [hcalls]; exact h.ended⟩
  · rw [hentry, Option.toList_some]
    -- The mover waited, so it has not won before.
    have hnew : ∀ entry ∈ log, entry.isWon → entry.index ≠ turn := by
      intro entry hmem hwon hsame
      obtain ⟨call, hcall, hnone⟩ := h.ended hmem hwon
      rw [hsame, hmover] at hcall
      rw [Option.some.inj hcall, hnone] at hrequest
      cases hrequest
    have hlast : (Entry.mk turn request answer).isWon →
        (mover.resume answer (source fleet.steps mover)).request? = none := by
      intro hwon
      unfold Call.request?
      generalize (mover.resume answer (source fleet.steps mover)).phase = phase at hturn
      generalize (fleet.step source turn).store = after at hturn
      cases hturn with
      | updated => rfl
      | absent | found | created | beaten | missing | skipped | drafted | lost | exhausted
      | rested => cases hwon
    constructor
    · rw [List.filter_append, List.map_append]
      refine List.nodup_append.2 ⟨h.once, ?_, ?_⟩
      · exact List.Sublist.nodup (List.Sublist.map _ List.filter_sublist)
          (List.nodup_singleton turn)
      · intro place hplace other hother heq
        obtain ⟨entry, hentry, rfl⟩ := List.mem_map.1 hplace
        obtain ⟨last, hlast, rfl⟩ := List.mem_map.1 hother
        obtain ⟨hmem, hwon⟩ := List.mem_filter.1 hentry
        obtain rfl := List.mem_singleton.1 (List.mem_filter.1 hlast).1
        exact hnew entry hmem hwon heq
    · intro entry hmem hwon
      rw [hcalls]
      rcases List.mem_append.1 hmem with hold | hmem
      · obtain ⟨call, hcall, hnone⟩ := h.ended hold hwon
        refine ⟨call, ?_, hnone⟩
        rw [List.getElem?_set_ne (hnew entry hold hwon).symm]
        exact hcall
      · obtain rfl := List.mem_singleton.1 hmem
        exact ⟨_, List.getElem?_set_self (List.getElem?_eq_some_iff.1 hmover).1, hlast hwon⟩

/-- The phase of a call tells how many races it has lost. -/
def Counted (index : Nat) (fleet : Fleet) (log : List Entry) : Prop :=
  ∀ ⦃call⦄, fleet.calls[index]? = some call → call.phase.Counts call.rounds (losses index log)

theorem counted_start (store : MemoryStore) (invocations : List Invocation) (index : Nat) :
    Counted index (start store invocations) [] := by
  intro call hcall
  obtain ⟨invocation, -, rfl⟩ := List.mem_map.1 (List.mem_of_getElem? hcall)
  exact invocation.counts_call

theorem Counted.step {source : Source} {invocations : List Invocation} {fleet : Fleet}
    {index : Nat} {log : List Entry} (h : Counted index fleet log)
    (hlawful : fleet.Lawful source invocations) (turn : Nat) :
    Counted index (fleet.step source turn) (log ++ (fleet.event? turn).toList) := by
  rcases hlawful.event_cases turn with ⟨-, hcalls, hentry⟩ | ⟨mover, request, answer, hmover,
    hrequest, hentry, hcalls, hturn⟩
  · rw [hentry, Option.toList_none, List.append_nil]
    unfold Counted
    rw [hcalls]
    exact h
  · rw [hentry, Option.toList_some]
    intro call hcall
    rw [hcalls] at hcall
    rw [losses_append]
    rcases getElem?_set_cases hcall with ⟨rfl, rfl⟩ | ⟨hne, hcall⟩
    · have hcounts := h hmover
      have hpos := mover.rounds_pos
      rw [Call.rounds_resume]
      generalize (mover.resume answer (source fleet.steps mover)).phase = phase at hturn
      generalize (fleet.step source turn).store = after at hturn
      cases hturn with
      | absent hphase | found hphase | beaten hphase | drafted hphase | rested hphase =>
        rw [hphase] at hcounts
        rw [losses_of_not_isLost]
        · simp only [Phase.Counts] at hcounts ⊢
          omega
        · rfl
      | created | missing | skipped | updated => trivial
      | lost hphase hget hhash hmoved hkind | exhausted hphase hget hhash hmoved hkind =>
        rw [hphase] at hcounts
        rw [losses_of_isLost]
        · simp only [Phase.Counts] at hcounts ⊢
          omega
        · exact decide_eq_true hkind
    · rw [losses_of_ne hne]
      exact h hcall

/-! ## 4. Whole runs -/

/-- All that is told of the races in a run. -/
structure Tally (index : Nat) (fleet : Fleet) (log : List Entry) : Prop where
  addressed : Addressed fleet log
  paid : Paid index fleet log
  won : Won fleet log
  counted : Counted index fleet log

/-- Before the first turn of a call there is nothing to tell. -/
theorem tally_nil {source : Source} {store : MemoryStore} {invocations : List Invocation}
    {before : List Nat} {index : Nat} (hidle : index ∉ before) :
    Tally index ((start store invocations).follow source before) [] := by
  have hcall : ((start store invocations).follow source before).calls[index]? =
      (start store invocations).calls[index]? := calls_follow_of_not_mem hidle
  refine ⟨fun _ _ hentry => absurd hentry List.not_mem_nil, Paid.of_not_writing ?_, won_nil _, ?_⟩
  · intro call later copy delta hsome
    rw [hcall] at hsome
    obtain ⟨invocation, -, rfl⟩ := List.mem_map.1 (List.mem_of_getElem? hsome)
    rcases invocation.call_cases with ⟨_, _, herror⟩ | ⟨_, _, _, -, -, hstart⟩ | ⟨_, _, _, hstart⟩
    · rw [herror]
      exact fun h => by cases h
    · rw [hstart]
      exact fun h => by cases h
    · rw [hstart]
      exact fun h => by cases h
  · intro call hsome
    rw [hcall] at hsome
    exact counted_start store invocations index hsome

theorem Tally.follow {source : Source} {invocations : List Invocation} {fleet : Fleet}
    {index : Nat} {log : List Entry} (h : Tally index fleet log)
    (hlawful : fleet.Lawful source invocations) (hdistinct : source.Distinct) (turns : List Nat) :
    Tally index (fleet.follow source turns) (log ++ fleet.log source turns) := by
  induction turns generalizing fleet log with
  | nil =>
    rw [Fleet.log, List.append_nil]
    exact h
  | cons turn turns ih =>
    rw [Fleet.log, ← List.append_assoc]
    refine ih ⟨?_, ?_, ?_, ?_⟩ (hlawful.step hdistinct turn).1
    · exact h.addressed.step hlawful hdistinct turn
    · exact h.paid.step h.addressed hlawful turn
    · exact h.won.step hlawful turn
    · exact h.counted.step hlawful turn

/-- The calls that won at a record are calls for its revision, each of them another one. -/
theorem Tally.rivalWins_lt {source : Source} {invocations : List Invocation} {fleet : Fleet}
    {index : Nat} {log : List Entry} (h : Tally index fleet log)
    (hlawful : fleet.Lawful source invocations) {invocation : Invocation}
    (hinvocation : invocations[index]? = some invocation) {key : RecordKey} {record : Record}
    (hget : fleet.store.get? key = some record)
    (hhash : record.revisionHash = invocation.call.revision) :
    rivalWins index key log <
      invocations.countP fun rival => rival.call.revision = invocation.call.revision := by
  let wins : List Entry := log.filter fun entry =>
    entry.index ≠ index && entry.isWon && entry.key? = some key
  have hwins : ∀ entry ∈ wins, entry ∈ log ∧ entry.index ≠ index ∧ entry.isWon ∧
      entry.key? = some key := by
    intro entry hmem
    obtain ⟨hlog, hwin⟩ := List.mem_filter.1 hmem
    simp only [Bool.and_eq_true, decide_eq_true_eq] at hwin
    exact ⟨hlog, hwin.1.1, hwin.1.2, hwin.2⟩
  have hlength : rivalWins index key log = (wins.map Entry.index).length := by
    rw [List.length_map]
    exact List.countP_eq_length_filter
  have honce : (wins.map Entry.index).Nodup := by
    refine List.Sublist.nodup (List.Sublist.map _ ?_) h.won.once
    refine List.monotone_filter_right log fun entry hwin => ?_
    simp only [Bool.and_eq_true] at hwin
    exact hwin.1.2
  have hothers : index ∉ wins.map Entry.index := by
    intro hmem
    obtain ⟨entry, hentry, heq⟩ := List.mem_map.1 hmem
    exact (hwins entry hentry).2.1 heq
  -- The call itself and the calls that won are so many different calls for the revision.
  have hsubset : index :: wins.map Entry.index ⊆ invocations.findIdxs
      fun rival => rival.call.revision = invocation.call.revision := by
    intro place hplace
    rw [List.mem_findIdxs_iff_exists_getElem_pos]
    rcases List.mem_cons.1 hplace with rfl | hmem
    · obtain ⟨hlt, hget⟩ := List.getElem?_eq_some_iff.1 hinvocation
      exact ⟨hlt, by rw [hget]; exact decide_eq_true rfl⟩
    · obtain ⟨entry, hentry, rfl⟩ := List.mem_map.1 hmem
      obtain ⟨hlog, -, hwon, hkey⟩ := hwins entry hentry
      obtain ⟨call, found, hcall, hfound, hfoundHash⟩ := h.addressed hlog hkey
      obtain ⟨rival, hrival, htask⟩ := hlawful.own hcall
      rw [hget] at hfound
      obtain rfl := Option.some.inj hfound
      obtain ⟨hlt, hrivalGet⟩ := List.getElem?_eq_some_iff.1 hrival
      refine ⟨hlt, ?_⟩
      rw [hrivalGet]
      exact decide_eq_true ((htask.2.1.symm.trans hfoundHash.symm).trans hhash)
  have hle := List.Nodup.length_le_of_subset (List.nodup_cons.2 ⟨hothers, honce⟩) hsubset
  rw [List.length_cons, List.length_findIdxs, ← hlength] at hle
  exact hle

/-- Enough retries are always enough. A call loses at most as many races as updates of the same
record are acknowledged to other calls while it runs. So where a policy allows as many updates as
there are calls for the revision, no call gives up, in whatever order the calls take turns. -/
theorem contention_bounded {source : Source} {store : MemoryStore} {invocations : List Invocation}
    (hsound : store.Sound) (hfresh : source.Fresh store invocations) :
    (∀ before during index, index ∉ before →
      let log := ((start store invocations).follow source before).log source during
      ∀ key, (∃ entry ∈ log, entry.index = index ∧ entry.key? = some key) →
        losses index log ≤ rivalWins index key log) ∧
      ∀ turns (index : Nat) (invocation : Invocation) (call : Call),
        invocations[index]? = some invocation →
        ((start store invocations).follow source turns).calls[index]? = some call →
        (invocations.countP fun rival => rival.call.revision = invocation.call.revision) ≤
          invocation.call.transmitter.policy.maxAttempts.toNat →
        ∀ revision attempts error,
          call.result? ≠ some (.error (.maxAttemptsExceeded revision attempts error)) := by
  have hstart := lawful_start hsound hfresh
  constructor
  · intro before during index hidle log key haddressed
    obtain ⟨hlawful, -⟩ := hstart.follow hfresh.distinct before
    have htally := (tally_nil hidle).follow hlawful hfresh.distinct during
    obtain ⟨entry, hentry, rfl, hkey⟩ := haddressed
    obtain ⟨call, record, hcall, hget, hhash⟩ := htally.addressed hentry hkey
    have hpaid := htally.paid hcall hget hhash
    exact Nat.le_trans (Nat.le_add_right _ _) hpaid
  · intro turns index invocation call hinvocation hcall henough revision attempts error hresult
    obtain ⟨hlawful, -⟩ := hstart.follow hfresh.distinct turns
    have htally : Tally index ((start store invocations).follow source turns)
        ((start store invocations).log source turns) :=
      (@tally_nil source store invocations [] index List.not_mem_nil).follow hstart hfresh.distinct
        turns
    have hcounted := htally.counted hcall
    have hphase : call.phase =
        .finished (.error (.maxAttemptsExceeded revision attempts error)) :=
      Call.phase_of_result? hresult
    rw [hphase] at hcounted
    have hlost : losses index ((start store invocations).log source turns) = call.rounds := hcounted
    obtain ⟨own, hown, htask⟩ := hlawful.own hcall
    obtain rfl := Option.some.inj (hinvocation.symm.trans hown)
    -- A race that was lost tells which record the call is about.
    have hpos : 0 < losses index ((start store invocations).log source turns) :=
      hlost ▸ call.rounds_pos
    obtain ⟨entry, hentry, hrace⟩ := List.countP_pos_iff.1 hpos
    simp only [Bool.and_eq_true, decide_eq_true_eq] at hrace
    obtain ⟨key, hkey⟩ := exists_key_of_isLost hrace.2
    obtain ⟨owner, record, howner, hget, hhash⟩ := htally.addressed hentry hkey
    rw [hrace.1, hcall] at howner
    rw [← Option.some.inj howner, htask.2.1] at hhash
    have hpaid := htally.paid hcall hget (hhash.trans htask.2.1.symm)
    have hwins := htally.rivalWins_lt hlawful hinvocation hget hhash
    have hrounds : invocation.call.transmitter.policy.maxAttempts.toNat ≤ call.rounds := by
      rw [← htask.1]
      exact Nat.le_max_right 1 _
    omega

theorem contention_bounded_rivals : MemoryStore.empty.Sound ∧
    Source.unary.Fresh .empty Invocation.rivals ∧
    ∀ turns (call : Call), ((start .empty Invocation.rivals).follow Source.unary turns).calls[0]? =
      some call → ∀ revision attempts error,
        call.result? ≠ some (.error (.maxAttemptsExceeded revision attempts error)) :=
  ⟨MemoryStore.sound_empty, Source.unary_fresh_rivals, fun turns call hcall =>
    (contention_bounded MemoryStore.sound_empty Source.unary_fresh_rivals).2 turns 0 _ call rfl
      hcall (by decide)⟩

end Fleet

end RevisionLedger
