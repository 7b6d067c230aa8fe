import RevisionLedger.Proofs.Transmit.Atomic

/-!
# Calls that run side by side could have run one after another

Every call but one that gives up takes effect at its last turn, all at once, and at no other. So the
order of their last turns is an order in which the calls can be run alone, one after another, with
the same results and the same records (`Fleet.linearizable`).

The invariant is `Linear`: after a number of turns, the calls that have ended by then, run alone in
the order in which they did, have brought the first store to where it is.
-/

namespace RevisionLedger

namespace Fleet

/-! ## 1. The order of calls -/

/-- The result of the call at an index, once it has ended. -/
def result? (fleet : Fleet) (index : Nat) : Option (Except TransmitError Outcome) :=
  fleet.calls[index]?.bind Call.result?

/-- Whether the call at an index has ended, and not for want of attempts. -/
def isSettled (fleet : Fleet) (index : Nat) : Bool :=
  (fleet.result? index).any fun result => !isExceeded result

/-- The calls in the order in which they were seen to be settled, each after a turn of its own. -/
def ending (source : Source) : List Nat → Fleet → List Nat → List Nat
  | [], _, order => order
  | index :: turns, fleet, order =>
    let next := fleet.step source index
    ending source turns next
      (if index ∉ order ∧ next.isSettled index then order ++ [index] else order)

/-- The turns in which calls run alone, in a given order. -/
def serial (fleet : Fleet) (order : List Nat) : List Nat :=
  order.flatMap fun index =>
    List.replicate ((fleet.calls[index]?.map Call.rank).getD 0) index

theorem prefix_ending (source : Source) (turns : List Nat) (fleet : Fleet) (order : List Nat) :
    order <+: ending source turns fleet order := by
  induction turns generalizing fleet order with
  | nil => exact List.prefix_rfl
  | cons index turns ih =>
    refine List.IsPrefix.trans ?_ (ih _ _)
    split
    · exact List.prefix_append _ _
    · exact List.prefix_rfl

/-- What has settled stands before all that settles later. -/
theorem sublist_ending {source : Source} {turns : List Nat} {fleet : Fleet} {order : List Nat}
    {one other : Nat} (hone : one ∈ order) (hother : other ∉ order)
    (hlast : other ∈ ending source turns fleet order) :
    [one, other].Sublist (ending source turns fleet order) := by
  obtain ⟨rest, hrest⟩ := prefix_ending source turns fleet order
  rw [← hrest] at hlast ⊢
  have hlater := (List.mem_append.1 hlast).resolve_left hother
  exact (List.singleton_sublist.2 hone).append (List.singleton_sublist.2 hlater)

theorem follow_append (source : Source) (turns more : List Nat) (fleet : Fleet) :
    fleet.follow source (turns ++ more) = (fleet.follow source turns).follow source more :=
  List.foldl_append

theorem ending_append (source : Source) (turns more : List Nat) (fleet : Fleet)
    (order : List Nat) : ending source (turns ++ more) fleet order =
      ending source more (fleet.follow source turns) (ending source turns fleet order) := by
  induction turns generalizing fleet order with
  | nil => rfl
  | cons index turns ih => exact ih _ _

theorem serial_append (fleet : Fleet) (order : List Nat) (index : Nat) :
    fleet.serial (order ++ [index]) = fleet.serial order ++
      List.replicate ((fleet.calls[index]?.map Call.rank).getD 0) index := by
  unfold serial
  rw [List.flatMap_append, List.flatMap_singleton]

theorem not_mem_serial {fleet : Fleet} {order : List Nat} {index : Nat} (h : index ∉ order) :
    index ∉ fleet.serial order := by
  intro hmem
  obtain ⟨other, hother, hin⟩ := List.mem_flatMap.1 hmem
  rw [List.eq_of_mem_replicate hin] at h
  exact h hother

/-! ## 2. The invariant -/

/-- Where a fleet is after some turns, compared with the settled calls run alone from the start. -/
structure Linear (source : Source) (start : Fleet) (seen : List Nat) (fleet : Fleet)
    (order : List Nat) : Prop where
  nodup : order.Nodup
  mem : ∀ index, index ∈ order ↔ index ∈ seen ∧ fleet.isSettled index
  idle : ∀ {index : Nat}, index ∉ seen → fleet.calls[index]? = start.calls[index]?
  waits : ∀ {index : Nat} {call : Call}, fleet.calls[index]? = some call →
    call.request?.isSome → ∃ first, start.calls[index]? = some first ∧ first.request?.isSome
  sound : (start.follow source (start.serial order)).store.Sound
  store : (start.follow source (start.serial order)).store.withoutTokens =
    fleet.store.withoutTokens
  results : ∀ index ∈ order,
    ((start.follow source (start.serial order)).result? index).map verdict =
      (fleet.result? index).map verdict

theorem linear_start (source : Source) {start : Fleet} (hsound : start.store.Sound) :
    Linear source start [] start [] where
  nodup := List.nodup_nil
  mem index := by simp
  idle _ := rfl
  waits hcall hwaits := ⟨_, hcall, hwaits⟩
  sound := hsound
  store := rfl
  results index hmem := absurd hmem List.not_mem_nil

theorem result?_of_waits {fleet : Fleet} {index : Nat} {call : Call}
    (hcall : fleet.calls[index]? = some call) (hwaits : call.request?.isSome) :
    fleet.result? index = none := by
  rw [result?, hcall, Option.bind_some, Call.result?_of_waits hwaits]

theorem isSettled_of_waits {fleet : Fleet} {index : Nat} {call : Call}
    (hcall : fleet.calls[index]? = some call) (hwaits : call.request?.isSome) :
    fleet.isSettled index = false := by
  rw [isSettled, result?_of_waits hcall hwaits]
  rfl

/-- A settled call has ended, with a result that is not for want of attempts. -/
theorem exists_of_isSettled {fleet : Fleet} {index : Nat} (h : fleet.isSettled index) :
    ∃ call result, fleet.calls[index]? = some call ∧ call.phase = .finished result ∧
      isExceeded result = false := by
  unfold isSettled result? at h
  cases hcall : fleet.calls[index]? with
  | none => simp [hcall] at h
  | some call =>
    rw [hcall, Option.bind_some] at h
    obtain ⟨result, hresult, hnot⟩ := (Option.any_eq_true _ _).1 h
    exact ⟨call, result, rfl, Call.phase_of_result? hresult, by simpa using hnot⟩

/-- An order stays the order of what has been seen and is settled when one more is seen, for
nothing else gets settled meanwhile. -/
theorem mem_ending_step {order seen : List Nat} {index : Nat} {old new : Nat → Bool}
    (hmem : ∀ place, place ∈ order ↔ place ∈ seen ∧ old place)
    (hsame : ∀ place, place ≠ index → new place = old place) (hkept : old index → new index)
    (place : Nat) :
    place ∈ (if index ∉ order ∧ new index then order ++ [index] else order) ↔
      place ∈ seen ++ [index] ∧ new place := by
  rw [List.mem_append, List.mem_singleton]
  by_cases hplace : place = index
  · subst hplace
    constructor
    · intro hin
      refine ⟨Or.inr rfl, ?_⟩
      split at hin
      · rename_i hadd
        exact hadd.2
      · exact hkept ((hmem place).1 hin).2
    · intro hand
      split
      · exact List.mem_append_right _ (List.mem_singleton_self place)
      · rename_i hadd
        exact Classical.byContradiction fun hnot => hadd ⟨hnot, hand.2⟩
  · have hiff : place ∈ (if index ∉ order ∧ new index then order ++ [index] else order) ↔
        place ∈ order := by
      split
      · rw [List.mem_append, List.mem_singleton]
        exact or_iff_left hplace
      · exact Iff.rfl
    rw [hiff, hmem, hsame place hplace, or_iff_left hplace]

theorem nodup_ending_step {order : List Nat} {index : Nat} {new : Bool} (h : order.Nodup) :
    (if index ∉ order ∧ new then order ++ [index] else order).Nodup := by
  split
  · rename_i hadd
    refine List.nodup_append.2 ⟨h, List.nodup_cons.2 ⟨List.not_mem_nil, List.nodup_nil⟩, ?_⟩
    intro place hplace other hother heq
    rw [heq, List.mem_singleton.1 hother] at hplace
    exact hadd.1 hplace
  · exact h

theorem result?_of_set {fleet next : Fleet} {index place : Nat} {new : Call}
    (hcalls : next.calls = fleet.calls.set index new) (h : place ≠ index) :
    next.result? place = fleet.result? place := by
  rw [result?, result?, hcalls, List.getElem?_set_ne (Ne.symm h)]

theorem isSettled_of_set {fleet next : Fleet} {index place : Nat} {new : Call}
    (hcalls : next.calls = fleet.calls.set index new) (h : place ≠ index) :
    next.isSettled place = fleet.isSettled place := by
  rw [isSettled, isSettled, result?_of_set hcalls h]

section Steps

variable {source alone : Source} {store : MemoryStore} {invocations : List Invocation}
  {seen order : List Nat} {fleet next : Fleet} {index : Nat}

/-- A turn of a call that has ended. If the call had ended before it was given a turn, it takes its
place in the order now; it does nothing when it runs alone either. -/
theorem Linear.step_ended (h : Linear alone (start store invocations) seen fleet order)
    (hcalls : next.calls = fleet.calls) (hstore : next.store = fleet.store) :
    Linear alone (start store invocations) (seen ++ [index]) next
      (if index ∉ order ∧ next.isSettled index then order ++ [index] else order) := by
  have hresult : ∀ place, next.result? place = fleet.result? place := fun place => by
    rw [result?, result?, hcalls]
  have hsettled : ∀ place, next.isSettled place = fleet.isSettled place := fun place => by
    rw [isSettled, isSettled, hresult]
  have hserial : (start store invocations).serial
      (if index ∉ order ∧ next.isSettled index then order ++ [index] else order) =
      (start store invocations).serial order := by
    split
    · rename_i hadd
      obtain ⟨hnot, hnow⟩ := hadd
      -- A call that ended without a turn of its own takes no turns when it runs alone.
      rw [hsettled] at hnow
      have hunseen : index ∉ seen := fun hseen => hnot ((h.mem index).2 ⟨hseen, hnow⟩)
      obtain ⟨call, result, hcall, hphase, -⟩ := exists_of_isSettled hnow
      have hrank : call.rank = 0 := by rw [Call.rank, hphase]
      rw [serial_append, ← h.idle hunseen, hcall, Option.map_some, Option.getD_some, hrank,
        List.replicate_zero, List.append_nil]
    · rfl
  constructor
  · exact nodup_ending_step h.nodup
  · exact mem_ending_step h.mem (fun place _ => hsettled place) fun hold => by
      rw [hsettled]; exact hold
  · intro place hplace
    rw [hcalls]
    exact h.idle fun hmem => hplace (List.mem_append_left _ hmem)
  · rw [hcalls]
    exact h.waits
  · rw [hserial]
    exact h.sound
  · rw [hserial, hstore]
    exact h.store
  · intro place hplace
    rw [hserial, hresult]
    by_cases hold : place ∈ order
    · exact h.results place hold
    · have hnew := (mem_ending_step h.mem (fun place _ => hsettled place) (fun hold => by
        rw [hsettled]; exact hold) place).1 hplace
      have hunseen : place ∉ seen := fun hseen =>
        hold ((h.mem place).2 ⟨hseen, by rw [← hsettled]; exact hnew.2⟩)
      rw [result?, result?, calls_follow_of_not_mem (not_mem_serial hold), h.idle hunseen]

/-- A call that waits can be run alone after those that have settled. -/
theorem Linear.endsAlone (h : Linear alone (start store invocations) seen fleet order)
    (hlawful : fleet.Lawful source invocations) {call : Call}
    (hcall : fleet.calls[index]? = some call) (hwaits : call.request?.isSome)
    (hnot : index ∉ order) :
    ∃ turns, (start store invocations).serial (order ++ [index]) =
        (start store invocations).serial order ++ List.replicate turns index ∧
      index < ((start store invocations).follow alone
        ((start store invocations).serial order)).calls.length ∧
      EndsAlone alone turns index call.revision call.intent
        ((start store invocations).follow alone ((start store invocations).serial order)) := by
  obtain ⟨invocation, hinvocation, htask⟩ := hlawful.own hcall
  have hstart : (start store invocations).calls[index]? = some invocation.call := by
    rw [calls_start, hinvocation, Option.map_some]
  obtain ⟨first, hfirst, hfirstWaits⟩ := h.waits hcall hwaits
  rw [hstart] at hfirst
  rw [← Option.some.inj hfirst] at hfirstWaits
  have halone : ((start store invocations).follow alone
      ((start store invocations).serial order)).calls[index]? = some invocation.call :=
    (calls_follow_of_not_mem (not_mem_serial hnot)).trans hstart
  refine ⟨invocation.call.rank, ?_, (List.getElem?_eq_some_iff.1 halone).1, ?_⟩
  · rw [serial_append, hstart, Option.map_some, Option.getD_some]
  · rw [htask.2.1, htask.2.2]
    exact endsAlone_call h.sound halone hfirstWaits

/-- A call that waits after a turn of another has waited from the start, and so has the other. -/
theorem Linear.waits_set (h : Linear alone (start store invocations) seen fleet order)
    {call new : Call} (hcall : fleet.calls[index]? = some call) (hwaits : call.request?.isSome)
    (hcalls : next.calls = fleet.calls.set index new) {place : Nat} {other : Call}
    (hother : next.calls[place]? = some other) (hwaiting : other.request?.isSome) :
    ∃ first, (start store invocations).calls[place]? = some first ∧ first.request?.isSome := by
  rw [hcalls] at hother
  rcases getElem?_set_cases hother with ⟨rfl, -⟩ | ⟨-, hother⟩
  · exact h.waits hcall hwaits
  · exact h.waits hother hwaiting

theorem Linear.idle_set (h : Linear alone (start store invocations) seen fleet order)
    {new : Call} (hcalls : next.calls = fleet.calls.set index new) {place : Nat}
    (hplace : place ∉ seen ++ [index]) :
    next.calls[place]? = (start store invocations).calls[place]? := by
  rw [List.mem_append, List.mem_singleton, not_or] at hplace
  rw [hcalls, List.getElem?_set_ne (Ne.symm hplace.2)]
  exact h.idle hplace.1

/-- A turn of a call that waits. -/
theorem Linear.step_waiting (h : Linear alone (start store invocations) seen fleet order)
    (hlawful : fleet.Lawful source invocations) {call : Call} {chance : Chance}
    {request : Request} {answer : Answer} (hcall : fleet.calls[index]? = some call)
    (hrequest : call.request? = some request)
    (hcalls : next.calls = fleet.calls.set index (call.resume answer chance))
    (hturn : Turn fleet.store call chance request answer next.store
      (call.resume answer chance).phase) :
    Linear alone (start store invocations) (seen ++ [index]) next
      (if index ∉ order ∧ next.isSettled index then order ++ [index] else order) := by
  have hwaits : call.request?.isSome := by rw [hrequest]; rfl
  have hlt := (List.getElem?_eq_some_iff.1 hcall).1
  have hbefore : fleet.isSettled index = false := isSettled_of_waits hcall hwaits
  have hnot : index ∉ order := fun hmem => by
    rw [((h.mem index).1 hmem).2] at hbefore
    cases hbefore
  have hmem := mem_ending_step h.mem (fun place hplace => isSettled_of_set hcalls hplace)
    fun hold => by rw [hbefore] at hold; cases hold
  have hnext : next.calls[index]? = some (call.resume answer chance) := by
    rw [hcalls, List.getElem?_set_self hlt]
  cases hnow : next.isSettled index with
  | false =>
    -- The call goes on or gives up; either way the store is as it was.
    have hstore : next.store = fleet.store := by
      refine hturn.store_eq fun outcome hphase => ?_
      have hdone : next.isSettled index := by
        rw [isSettled, result?, hnext, Option.bind_some, Call.result?, hphase]
        rfl
      rw [hnow] at hdone
      cases hdone
    rw [hnow] at hmem
    have hsame : (if index ∉ order ∧ false = true then order ++ [index] else order) = order :=
      if_neg fun hand => by cases hand.2
    rw [hsame] at hmem ⊢
    refine ⟨h.nodup, hmem, h.idle_set hcalls, h.waits_set hcall hwaits hcalls, h.sound,
      by rw [hstore]; exact h.store, ?_⟩
    intro place hplace
    rw [result?_of_set hcalls fun heq => hnot (heq ▸ hplace)]
    exact h.results place hplace
  | true =>
    obtain ⟨last, result, hlast, hphase, hexceeded⟩ := exists_of_isSettled hnow
    rw [hnext] at hlast
    rw [← Option.some.inj hlast] at hphase
    rw [hphase] at hturn
    have hperform := hturn.performs (hlawful.ready call (List.mem_of_getElem? hcall)) hexceeded
    -- Alone, the call finds the same records, and does the same.
    obtain ⟨turns, hturns, hltAlone, after, ended, own, hfollow, hended, hsound, hown⟩ :=
      h.endsAlone hlawful hcall hwaits hnot
    rw [← follow_append, ← hturns] at hfollow
    rw [h.store, hperform] at hown
    obtain ⟨hstore, hverdict⟩ := Prod.mk.inj hown
    rw [hnow] at hmem
    rw [if_pos ⟨hnot, rfl⟩] at hmem ⊢
    have hadded := @nodup_ending_step order index true h.nodup
    rw [if_pos ⟨hnot, rfl⟩] at hadded
    refine ⟨hadded, hmem, h.idle_set hcalls, h.waits_set hcall hwaits hcalls,
      by rw [hfollow]; exact hsound, by rw [hfollow]; exact hstore.symm, fun place hplace => ?_⟩
    rw [hfollow]
    by_cases hsame : place = index
    · subst hsame
      rw [result?, result?, hnext, List.getElem?_set_self hltAlone, Option.bind_some,
        Option.bind_some, Call.result?, Call.result?, hphase, hended, Option.map_some,
        Option.map_some, hverdict]
    · have hold : place ∈ order := by
        rcases List.mem_append.1 hplace with hold | hnew
        · exact hold
        · exact absurd (List.mem_singleton.1 hnew) hsame
      rw [result?_of_set hcalls hsame, ← h.results place hold, result?, result?,
        List.getElem?_set_ne (Ne.symm hsame)]

/-- A run. -/
theorem Linear.follow (h : Linear alone (start store invocations) seen fleet order)
    (hlawful : fleet.Lawful source invocations) (hdistinct : source.Distinct) (turns : List Nat) :
    Linear alone (start store invocations) (seen ++ turns) (fleet.follow source turns)
      (ending source turns fleet order) := by
  induction turns generalizing seen fleet order with
  | nil =>
    rw [List.append_nil]
    exact h
  | cons index turns ih =>
    have hstep : Linear alone (start store invocations) (seen ++ [index])
        (fleet.step source index) (if index ∉ order ∧ (fleet.step source index).isSettled index
          then order ++ [index] else order) := by
      rcases hlawful.step_cases index with ⟨hstore, hcalls, -⟩ | ⟨call, request, hcall, hrequest,
        hcalls, hturn⟩
      · exact h.step_ended hcalls hstore
      · exact h.step_waiting hlawful hcall hrequest hcalls hturn
    have hrun := ih hstep (hlawful.step hdistinct index).1
    rw [List.append_assoc] at hrun
    exact hrun

end Steps

/-! ## 3. Whole runs -/

section Runs

variable {source : Source} {fleet : Fleet} {index : Nat} {result : Except TransmitError Outcome}

theorem exists_of_result?_eq (h : fleet.result? index = some result) :
    ∃ call, fleet.calls[index]? = some call ∧ call.phase = .finished result := by
  obtain ⟨call, hcall, hresult⟩ := Option.bind_eq_some_iff.1 h
  exact ⟨call, hcall, Call.phase_of_result? hresult⟩

/-- A result stays. -/
theorem result?_follow (h : fleet.result? index = some result) (turns : List Nat) :
    (fleet.follow source turns).result? index = some result := by
  induction turns generalizing fleet with
  | nil => exact h
  | cons turn turns ih =>
    refine ih ?_
    by_cases hsame : turn = index
    · obtain ⟨call, hcall, hphase⟩ := exists_of_result?_eq h
      rw [hsame, step_of_ended hcall (by rw [Call.request?, hphase])]
      exact h
    · rw [result?, calls_step_of_ne hsame]
      exact h

/-- A turn of a call that gives up in the end does not change the store. -/
theorem Lawful.store_step_of_isExceeded {invocations : List Invocation} {after : List Nat}
    (h : fleet.Lawful source invocations)
    (hexceeded : (((fleet.step source index).follow source after).result? index).any isExceeded) :
    (fleet.step source index).store = fleet.store := by
  rcases h.step_cases index with ⟨hstore, -⟩ | ⟨call, request, hcall, hrequest, hcalls, hturn⟩
  · exact hstore
  · refine hturn.store_eq fun outcome hphase => ?_
    -- A success would have stayed.
    have hnext : (fleet.step source index).result? index = some (.ok outcome) := by
      rw [result?, hcalls, List.getElem?_set_self (List.getElem?_eq_some_iff.1 hcall).1,
        Option.bind_some, Call.result?, hphase]
    rw [result?_follow hnext after] at hexceeded
    cases hexceeded

theorem follow_of_all_ended {turns : List Nat}
    (h : ∀ index ∈ turns, (fleet.result? index).isSome) : fleet.follow source turns =
      ⟨fleet.store, fleet.calls, fleet.steps + turns.length⟩ := by
  induction turns generalizing fleet with
  | nil => rfl
  | cons turn turns ih =>
    obtain ⟨result, hresult⟩ := Option.isSome_iff_exists.1 (h turn List.mem_cons_self)
    obtain ⟨call, hcall, hphase⟩ := exists_of_result?_eq hresult
    have hstep : fleet.step source turn = ⟨fleet.store, fleet.calls, fleet.steps + 1⟩ :=
      step_of_ended hcall (by rw [Call.request?, hphase])
    have hrest : ∀ index ∈ turns, ((fleet.step source turn).result? index).isSome := by
      intro index hindex
      rw [hstep]
      exact h index (List.mem_cons_of_mem _ hindex)
    show (fleet.step source turn).follow source turns = _
    rw [ih hrest, hstep, List.length_cons, Nat.add_assoc, Nat.add_comm 1]

end Runs

/-- A fleet of calls is linearizable. Whatever turns have been taken, there is an order of the calls
that have ended otherwise than for want of attempts, such that

* a call that had ended before another took its first turn comes first,
* run alone, one after another in that order, the calls have the same results, but for the numbers
  of attempts, and leave the same records, but for the tokens, and
* no turn of a call that gives up has changed the store. -/
theorem linearizable {source : Source} {store : MemoryStore} {invocations : List Invocation}
    (hsound : store.Sound) (hfresh : source.Fresh store invocations) (turns : List Nat) :
    let first := start store invocations
    let fleet := first.follow source turns
    ∃ order : List Nat, order.Nodup ∧ (∀ index, index ∈ order ↔ fleet.isSettled index) ∧
      (∀ before after one other, turns = before ++ after → one ∈ before →
        (first.follow source before).isSettled one → other ∉ before → other ∈ order →
        [one, other].Sublist order) ∧
      (∀ alone : Source,
        (first.follow alone (first.serial order)).store.withoutTokens =
            fleet.store.withoutTokens ∧
          ∀ index ∈ order, ((first.follow alone (first.serial order)).result? index).map verdict =
            (fleet.result? index).map verdict) ∧
      ∀ before index after, turns = before ++ index :: after →
        (fleet.result? index).any isExceeded →
        (first.follow source (before ++ [index])).store = (first.follow source before).store := by
  intro first fleet
  have hlawful := lawful_start hsound hfresh
  -- A call that was refused at once takes its place when it gets a turn, or at the end.
  let refused := (List.range invocations.length).filter fun index =>
    index ∉ turns ∧ first.isSettled index
  have hrefused : ∀ index ∈ refused, (fleet.result? index).isSome := by
    intro index hmem
    obtain ⟨call, result, hcall, hphase, -⟩ :=
      exists_of_isSettled (of_decide_eq_true (List.mem_filter.1 hmem).2).2
    have hresult : first.result? index = some result := by
      rw [result?, hcall, Option.bind_some, Call.result?, hphase]
    rw [result?_follow hresult turns]
    rfl
  have hsame : first.follow source (turns ++ refused) =
      ⟨fleet.store, fleet.calls, fleet.steps + refused.length⟩ := by
    rw [follow_append]
    exact follow_of_all_ended hrefused
  have hresult : ∀ index, (first.follow source (turns ++ refused)).result? index =
      fleet.result? index := fun index => by rw [hsame]; rfl
  have hlinear : ∀ alone, Linear alone first (turns ++ refused)
      (first.follow source (turns ++ refused)) (ending source (turns ++ refused) first []) :=
    fun alone => (linear_start alone hsound).follow hlawful hfresh.distinct (turns ++ refused)
  have hmem : ∀ index, index ∈ ending source (turns ++ refused) first [] ↔
      fleet.isSettled index := by
    intro index
    rw [(hlinear source).mem, isSettled, hresult, ← isSettled]
    refine and_iff_right_of_imp fun hnow => ?_
    by_cases hin : index ∈ turns
    · exact List.mem_append_left _ hin
    · -- Without a turn the call is what it was at first.
      have hidle : fleet.result? index = first.result? index := by
        rw [result?, result?, calls_follow_of_not_mem hin]
      rw [isSettled, hidle, ← isSettled] at hnow
      obtain ⟨call, result, hcall, -⟩ := exists_of_isSettled hnow
      have hlt : index < invocations.length := by
        have hlt' := (List.getElem?_eq_some_iff.1 hcall).1
        rwa [show first.calls = invocations.map Invocation.call from rfl, List.length_map] at hlt'
      exact List.mem_append_right _
        (List.mem_filter.2 ⟨List.mem_range.2 hlt, decide_eq_true ⟨hin, hnow⟩⟩)
  refine ⟨ending source (turns ++ refused) first [], (hlinear source).nodup, hmem, ?_,
    fun alone => ⟨?_, fun index hindex => ?_⟩, ?_⟩
  · intro before after one other hturns hone hsettled hother hlast
    have hbefore := (linear_start source hsound).follow hlawful hfresh.distinct before
    have hfirst : one ∈ ending source before first [] := (hbefore.mem one).2 ⟨hone, hsettled⟩
    have hlater : other ∉ ending source before first [] := fun hin =>
      hother ((hbefore.mem other).1 hin).1
    rw [hturns, List.append_assoc, ending_append] at hlast ⊢
    exact sublist_ending hfirst hlater hlast
  · rw [(hlinear alone).store, hsame]
  · rw [(hlinear alone).results index hindex, hresult]
  · intro before index after hturns hexceeded
    obtain ⟨hbefore, -⟩ := hlawful.follow hfresh.distinct before
    have hend : fleet = ((first.follow source before).step source index).follow source after := by
      show first.follow source turns = _
      rw [hturns, follow_append]
      rfl
    rw [hend] at hexceeded
    rw [follow_append]
    exact hbefore.store_step_of_isExceeded hexceeded

theorem linearizable_rivals : MemoryStore.empty.Sound ∧
    Source.unary.Fresh .empty Invocation.rivals ∧ ∀ turns, ∃ order : List Nat, order.Nodup ∧
      ∀ index, index ∈ order ↔
        ((start .empty Invocation.rivals).follow Source.unary turns).isSettled index := by
  refine ⟨MemoryStore.sound_empty, Source.unary_fresh_rivals, fun turns => ?_⟩
  obtain ⟨order, hnodup, hmem, -⟩ :=
    linearizable MemoryStore.sound_empty Source.unary_fresh_rivals turns
  exact ⟨order, hnodup, hmem⟩

end Fleet

end RevisionLedger
