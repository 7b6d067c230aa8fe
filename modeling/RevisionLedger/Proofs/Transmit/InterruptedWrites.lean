import RevisionLedger.Proofs.Transmit.Deadlines

/-!
# Interrupted writes

A write takes effect at one moment and is answered at another. If the context finishes in between,
the call is cancelled and the write stays. It is also applied if the store goes on by itself after
its caller has left, whenever the context finishes. In all other cases an interrupted write is
dropped before it takes effect (`Timeline.interrupted_write`).
-/

namespace RevisionLedger

/-! ## 1. How far an errand comes -/

namespace Errand

variable {σ : Type} [RecordStore σ]

/-- The stages that were passed while the call waited. -/
def passed (errand : Errand σ) : List Stage :=
  errand.stages.take (errand.stages.length - errand.left.length)

/-- The stages that have been passed in the end. A store that goes on by itself passes them all. -/
def lasting (errand : Errand σ) : List Stage :=
  if errand.course.carriesOn then errand.stages else errand.passed

/-- The context lets an errand get through the stages that it passed. If any are left, the first of
them is a wait that the context ends. -/
inductive Reaches (errand : Errand σ) : Prop
  | done : errand.passed = errand.stages → errand.left = [] →
    Situation.Gets errand.request errand.passed errand.start errand.reached → errand.Reaches
  | cut {durationMs momentMs : Nat} {rest : List Stage} {here : Situation σ} :
    errand.stages = errand.passed ++ .wait durationMs :: rest →
    errand.left = .wait durationMs :: rest →
    Situation.Gets errand.request errand.passed errand.start here →
    here.budget.EndsWait here.nowMs durationMs momentMs →
    errand.reached = { here with nowMs := momentMs } → errand.Reaches

theorem reaches (errand : Errand σ) : errand.Reaches := by
  rcases errand.start.pass_cases errand.request errand.stages with ⟨there, hgets, hpass⟩ |
    ⟨lead, durationMs, rest, here, momentMs, hstages, hgets, hcut, hpass⟩
  · have hleft : errand.left = [] := by rw [left, hpass]
    have hpassed : errand.passed = errand.stages := by
      rw [passed, hleft, List.length_nil, Nat.sub_zero, List.take_length]
    refine .done hpassed hleft ?_
    rw [hpassed, reached, hpass]
    exact hgets
  · have hleft : errand.left = .wait durationMs :: rest := by rw [left, hpass]
    have hpassed : errand.passed = lead := by
      rw [passed, hleft, hstages, List.length_append, Nat.add_sub_cancel, List.take_left]
    refine .cut ?_ hleft ?_ (Budget.endsWait_of_interruption? hcut) (by rw [reached, hpass])
    · rw [hpassed, hstages]
    · rw [hpassed]
      exact hgets

theorem passed_append_left (errand : Errand σ) : errand.passed ++ errand.left = errand.stages := by
  cases errand.reaches with
  | done hpassed hleft => rw [hpassed, hleft, List.append_nil]
  | cut hstages hleft => rw [hleft, hstages]

/-- What an errand makes of the store is what its lasting stages make of it. -/
theorem store_after (errand : Errand σ) : errand.after.store =
    errand.lasting.foldl (Stage.change errand.request) errand.start.store := by
  have hreached : errand.reached.store =
      errand.passed.foldl (Stage.change errand.request) errand.start.store := by
    cases errand.reaches with
    | done _ _ hgets => exact hgets.store_eq
    | cut _ _ hgets _ hreached =>
      rw [hreached]
      exact hgets.store_eq
  unfold after lasting
  split
  · rw [← errand.passed_append_left, List.foldl_append, ← hreached]
  · exact hreached

variable {errand : Errand σ} {lead tail : List Stage}

/-- The effect of a write is left or was passed, with the stages before it. -/
theorem effect_cases (hstages : errand.stages = lead ++ .effect :: tail) :
    (∃ more, lead = errand.passed ++ more ∧ errand.left = more ++ .effect :: tail) ∨
      ∃ more, errand.passed = lead ++ .effect :: more ∧ tail = more ++ errand.left := by
  have hsplit := errand.passed_append_left.trans hstages
  rcases List.append_eq_append_iff.1 hsplit with ⟨more, hlead, hleft⟩ | ⟨more, hpassed, htail⟩
  · exact Or.inl ⟨more, hlead, hleft⟩
  · cases more with
    | nil =>
      -- The first of the stages that are left is no effect.
      cases errand.reaches with
      | done _ hleft => rw [hleft] at htail; cases htail
      | cut _ hleft => rw [hleft] at htail; cases htail
    | cons stage more =>
      obtain ⟨rfl, hmore⟩ := List.cons.inj htail
      exact Or.inr ⟨more, hpassed, hmore⟩

theorem effect_mem_passed_iff (hstages : errand.stages = lead ++ .effect :: tail)
    (hlead : .effect ∉ lead) : .effect ∈ errand.passed ↔
      ∃ here, Situation.Gets errand.request lead errand.start here := by
  rcases effect_cases hstages with ⟨more, rfl, hleft⟩ | ⟨more, hpassed, -⟩
  · refine iff_of_false (fun hmem => hlead (List.mem_append_left _ hmem)) ?_
    -- Had it got so far, no more than the tail would be left.
    rintro ⟨here, hgets⟩
    have htail : errand.left =
        (here.undergo errand.request .effect |>.pass errand.request tail).1 := by
      rw [left, hstages, hgets.pass_append]
      rfl
    have hlength := Situation.length_pass_le errand.request tail
      (here.undergo errand.request .effect)
    rw [← htail, hleft, List.length_append, List.length_cons] at hlength
    omega
  · refine iff_of_true ?_ ?_
    · rw [hpassed]
      exact List.mem_append_right _ List.mem_cons_self
    · cases errand.reaches with
      | done _ _ hgets | cut _ _ hgets =>
        rw [hpassed] at hgets
        exact hgets.exists_of_append

theorem effect_mem_lasting_iff (hstages : errand.stages = lead ++ .effect :: tail)
    (hlead : .effect ∉ lead) : .effect ∈ errand.lasting ↔ errand.course.carriesOn ∨
      ∃ here, Situation.Gets errand.request lead errand.start here := by
  rw [← effect_mem_passed_iff hstages hlead, lasting]
  split
  · rename_i hcarries
    refine iff_of_true ?_ (Or.inl hcarries)
    rw [hstages]
    exact List.mem_append_right _ List.mem_cons_self
  · rename_i hcarries
    exact (or_iff_right hcarries).symm

theorem nowMs_reached_ge (errand : Errand σ) :
    errand.start.nowMs + totalMs errand.passed ≤ errand.reached.nowMs := by
  cases errand.reaches with
  | done _ _ hgets => exact Nat.le_of_eq hgets.nowMs_eq.symm
  | cut _ _ hgets hends hreached =>
    rw [hreached, ← hgets.nowMs_eq]
    exact hends.from_le

/-- The call goes on no earlier than a write takes effect that does so, and no later than it was to
do so otherwise. -/
theorem effect_time (hstages : errand.stages = lead ++ .effect :: tail) (hlead : .effect ∉ lead) :
    (.effect ∈ errand.passed → errand.start.nowMs + totalMs lead ≤ errand.reached.nowMs) ∧
      (.effect ∉ errand.passed → errand.reached.nowMs ≤ errand.start.nowMs + totalMs lead) := by
  rcases effect_cases hstages with ⟨more, rfl, hleft⟩ | ⟨more, hpassed, -⟩
  · refine ⟨fun hmem => absurd (List.mem_append_left _ hmem) hlead, fun _ => ?_⟩
    cases errand.reaches with
    | done _ hnil =>
      rw [hnil] at hleft
      exact absurd hleft.symm (List.append_ne_nil_of_right_ne_nil _ (List.cons_ne_nil _ _))
    | @cut durationMs momentMs rest here _ hwait hgets hends hreached =>
      -- The wait that was cut short is one of those before the effect.
      rw [hwait] at hleft
      cases more with
      | nil => cases hleft
      | cons stage more =>
        obtain ⟨rfl, -⟩ := List.cons.inj hleft
        have hle := hends.le
        rw [hgets.nowMs_eq] at hle
        rw [hreached, totalMs_append, totalMs, Stage.durationMs]
        show momentMs ≤ _
        omega
  · have hge := errand.nowMs_reached_ge
    rw [hpassed, totalMs_append] at hge
    refine ⟨fun _ => by omega, fun hnot => absurd ?_ hnot⟩
    rw [hpassed]
    exact List.mem_append_right _ List.mem_cons_self

/-- A write that is answered as soon as it takes effect does not do so if it is cut short. -/
theorem effect_not_mem_passed (hstages : errand.stages = lead ++ .effect :: tail)
    (hlead : .effect ∉ lead) (htail : ∀ durationMs, .wait durationMs ∉ tail)
    (hcut : errand.left ≠ []) : .effect ∉ errand.passed := by
  rcases effect_cases hstages with ⟨more, rfl, -⟩ | ⟨more, -, hmore⟩
  · exact fun hmem => hlead (List.mem_append_left _ hmem)
  · cases errand.reaches with
    | done _ hnil => exact absurd hnil hcut
    | @cut durationMs _ _ _ _ hwait =>
      have hmem : .wait durationMs ∈ tail := by
        rw [hmore, hwait]
        exact List.mem_append_right _ List.mem_cons_self
      exact absurd hmem (htail durationMs)

end Errand

/-! ## 2. Cancelled calls -/

namespace Timeline

variable {σ : Type} [RecordStore σ]

/-- What becomes of the request that a cancelled call was waiting for. If there was one, then it is
the last, and the only one that was cut short. The store is what the stages make of it that the
request passes in the end. A write takes effect exactly if the store goes on by itself or the
context lets the request get as far as that; so if the context finished later than the write was to
take effect it does, if earlier it does not. It never does where the store goes with its caller and
has nothing to wait for between the effect and the answer. -/
theorem interrupted_write (invocation : Invocation) (now : Situation σ)
    (courses : List (Course × Chance))
    (hcancelled : ((start invocation.call now).run courses).call.isCancelled) :
    let timeline := (start invocation.call now).run courses
    (timeline.withheld.isSome ∧ ∀ errand ∈ timeline.errands, errand.left = []) ∨
      ∃ answered errand, timeline.errands = answered ++ [errand] ∧
        (∀ other ∈ answered, other.left = []) ∧ errand.left ≠ [] ∧
        timeline.now.store =
          errand.lasting.foldl (Stage.change errand.request) errand.start.store ∧
        ∀ {lead tail}, errand.stages = lead ++ .effect :: tail → .effect ∉ lead →
          (.effect ∈ errand.lasting ↔ errand.course.carriesOn ∨
            ∃ here, Situation.Gets errand.request lead errand.start here) ∧
          (.effect ∈ errand.passed → errand.start.nowMs + totalMs lead ≤ timeline.now.nowMs) ∧
          (.effect ∉ errand.passed → timeline.now.nowMs ≤ errand.start.nowMs + totalMs lead) ∧
          ((∀ durationMs, .wait durationMs ∉ tail) → .effect ∉ errand.passed) := by
  intro timeline
  have hkept : timeline.Kept := (kept_start invocation now).run courses
  have hcancelled : timeline.call.isCancelled := hcancelled
  clear_value timeline
  cases hkept with
  | going _ hgoing => exact absurd hcancelled (ne_true_of_eq_false hgoing)
  | withheld hall => exact Or.inl ⟨rfl, hall⟩
  | @cut call answered errand hall hcut =>
    refine Or.inr ⟨answered, errand, rfl, hall, hcut, errand.store_after, ?_⟩
    intro lead tail hstages hlead
    have htime := Errand.effect_time hstages hlead
    rw [← errand.nowMs_after] at htime
    exact ⟨Errand.effect_mem_lasting_iff hstages hlead, htime.1, htime.2,
      fun htail => Errand.effect_not_mem_passed hstages hlead htail hcut⟩

/-- The context of a tag is cancelled as its update begins, over a store that goes on by itself: the
update takes effect all the same. -/
theorem interrupted_write_carried_on :
    let record := (PartialResult.single ⟨"4f1c"⟩ ⟨2024, 17⟩ ⟨"10-200"⟩ .empty ⟨""⟩).toRecord
    let invocation : Invocation := .tag ⟨{}, "Hash-index"⟩ ⟨"4f1c"⟩ "v6"
    let now : Situation MemoryStore := ⟨MemoryStore.empty.write record.key record, 0, {}⟩
    let lookUp : Course := ⟨[.effect], .ok [record], false⟩
    let update : Course := ⟨[.cancel, .wait 0, .effect], .ok [], true⟩
    let timeline := (start invocation.call now).run [(lookUp, ⟨⟨"x"⟩, 0⟩), (update, ⟨⟨"y"⟩, 0⟩)]
    let tagging : Errand MemoryStore := ⟨.update record.key
      ⟨.empty, some true, some "v6", none, ⟨"x"⟩⟩ record.versionToken, update, now⟩
    timeline.call.isCancelled ∧ timeline.errands.getLast? = some tagging ∧
      .effect ∈ tagging.lasting := by
  intro record invocation now lookUp update timeline tagging
  have hcancelled : timeline.call.isCancelled := by decide +kernel
  have htagging : timeline.errands =
      [⟨.query "Hash-index" ⟨"4f1c"⟩, lookUp, now⟩] ++ [tagging] := rfl
  refine ⟨hcancelled, by rw [htagging]; rfl, ?_⟩
  rcases interrupted_write invocation now _ hcancelled with ⟨hwithheld, -⟩ |
    ⟨answered, errand, herrands, -, -, -, heffect⟩
  · exact absurd hwithheld (by decide +kernel)
  · obtain ⟨-, hlast⟩ := List.append_inj' (herrands.symm.trans htagging) rfl
    obtain rfl := List.singleton_inj.1 hlast
    have hstages : tagging.stages = [.cancel, .wait 0] ++ .effect :: [] := rfl
    exact (heffect hstages (by simp)).1.2 (Or.inl rfl)

/-- The context of a send is past its deadline before the store has answered the put, which has
taken effect by then. The send reports that it is cancelled, and its record is there. -/
theorem interrupted_write_applied :
    let incoming : PartialResult := .single ⟨"4f1c"⟩ ⟨2024, 17⟩ ⟨"10-200"⟩ .empty ⟨""⟩
    let invocation : Invocation := .send ⟨{}, "Hash-index"⟩ incoming
    let now : Situation MemoryStore := ⟨.empty, 0, { deadlineMs := some 1000 }⟩
    let lookUp : Course := ⟨[.effect], .ok [], false⟩
    let put : Course := ⟨[.effect, .wait 2000], .ok [], false⟩
    let timeline := (start invocation.call now).run [(lookUp, ⟨⟨"x"⟩, 0⟩), (put, ⟨⟨"x"⟩, 0⟩)]
    timeline.call.isCancelled ∧ now.store.get? ⟨2024, 17⟩ = none ∧
      timeline.now.store.get? ⟨2024, 17⟩ = some incoming.toRecord := by
  intro incoming invocation now lookUp put timeline
  have hstore : timeline.now.store = now.store.write ⟨2024, 17⟩ incoming.toRecord := by
    decide +kernel
  refine ⟨by decide +kernel, rfl, ?_⟩
  rw [hstore]
  exact MemoryStore.get?_write_self _ _ _

end Timeline

end RevisionLedger
