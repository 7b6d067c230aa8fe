import RevisionLedger.Proofs.Transmit.Timeline

/-!
# Deadlines

The context of a call bounds the whole of it. Nothing is started once the context is done. A wait is
cut short at the first moment of it by which the context has finished (`Budget.EndsWait`), and then
the call is cancelled there and then, and starts nothing any more. So no call outlives its context:
it returns by the moment at which the context finishes, or at once if that lies in the past
(`Timeline.bounded_by_context`).
-/

namespace RevisionLedger

/-! ## 1. Waits -/

namespace Budget

/-- The context has finished by a moment: it is cancelled, or its deadline or the time of its
cancellation has come. -/
def FinishedBy (budget : Budget) (momentMs : Nat) : Prop :=
  budget.cancelled ∨ (∃ timeMs ∈ budget.deadlineMs, timeMs ≤ momentMs) ∨
    ∃ timeMs ∈ budget.cancelAtMs, timeMs ≤ momentMs

/-- The context ends a wait at the first moment of it by which it has finished. At its last moment a
wait ends by itself, unless the deadline has come or it is the first moment, too. -/
structure EndsWait (budget : Budget) (fromMs durationMs momentMs : Nat) : Prop where
  from_le : fromMs ≤ momentMs
  finished : budget.FinishedBy momentMs
  first : ∀ earlierMs, fromMs ≤ earlierMs → earlierMs < momentMs → ¬budget.FinishedBy earlierMs
  inside : momentMs < fromMs + durationMs ∨ momentMs = fromMs ∨
    momentMs = fromMs + durationMs ∧ ∃ timeMs ∈ budget.deadlineMs, timeMs ≤ momentMs

variable {budget : Budget} {fromMs durationMs momentMs : Nat}

theorem EndsWait.unique {otherMs : Nat} (h : budget.EndsWait fromMs durationMs momentMs)
    (hother : budget.EndsWait fromMs durationMs otherMs) : momentMs = otherMs :=
  Nat.le_antisymm (Nat.le_of_not_lt fun hlt => h.first _ hother.from_le hlt hother.finished)
    (Nat.le_of_not_lt fun hlt => hother.first _ h.from_le hlt h.finished)

theorem EndsWait.le (h : budget.EndsWait fromMs durationMs momentMs) :
    momentMs ≤ fromMs + durationMs := by
  rcases h.inside with hinside | hinside | ⟨hinside, -⟩ <;> omega

-- In each of the next three the budget is taken apart, for what cuts a wait short depends on which
-- limits there are.

theorem endsWait_of_interruption?
    (h : budget.interruption? fromMs (fromMs + durationMs) = some momentMs) :
    budget.EndsWait fromMs durationMs momentMs := by
  obtain ⟨cancelled, cancelAt, deadline⟩ := budget
  unfold interruption? at h
  constructor <;> cases cancelled <;> cases cancelAt <;> cases deadline <;>
    simp [Option.filter, FinishedBy] at h ⊢ <;> grind

theorem not_endsWait_of_interruption?
    (h : budget.interruption? fromMs (fromMs + durationMs) = none) :
    ¬budget.EndsWait fromMs durationMs momentMs := by
  rintro ⟨-, hfinished, -, hinside⟩
  obtain ⟨cancelled, cancelAt, deadline⟩ := budget
  unfold interruption? at h
  cases cancelled <;> cases cancelAt <;> cases deadline <;>
    simp [Option.filter, FinishedBy] at h hfinished hinside <;> grind

/-- A wait that runs to its end is over before the context finishes. -/
theorem FinishedBy.le_of_interruption? (hfinished : budget.FinishedBy momentMs)
    (h : budget.interruption? fromMs (fromMs + durationMs) = none) :
    fromMs + durationMs ≤ momentMs := by
  obtain ⟨cancelled, cancelAt, deadline⟩ := budget
  unfold interruption? at h
  cases cancelled <;> cases cancelAt <;> cases deadline <;>
    simp [Option.filter, FinishedBy] at h hfinished <;> grind

theorem interruption?_eq_some_iff :
    budget.interruption? fromMs (fromMs + durationMs) = some momentMs ↔
      budget.EndsWait fromMs durationMs momentMs := by
  refine ⟨endsWait_of_interruption?, fun h => ?_⟩
  cases hcut : budget.interruption? fromMs (fromMs + durationMs) with
  | none => exact absurd h (not_endsWait_of_interruption? hcut)
  | some otherMs => rw [(endsWait_of_interruption? hcut).unique h]

theorem FinishedBy.mono {laterMs : Nat} (h : budget.FinishedBy momentMs)
    (hle : momentMs ≤ laterMs) : budget.FinishedBy laterMs := by
  rcases h with h | ⟨timeMs, htime, hmoment⟩ | ⟨timeMs, htime, hmoment⟩
  · exact Or.inl h
  · exact Or.inr (Or.inl ⟨timeMs, htime, Nat.le_trans hmoment hle⟩)
  · exact Or.inr (Or.inr ⟨timeMs, htime, Nat.le_trans hmoment hle⟩)

theorem finishedBy_of_isDone (h : budget.isDone momentMs) : budget.FinishedBy momentMs := by
  rcases Bool.or_eq_true_iff.1 h with hcancelled | hdeadline
  · exact Or.inl hcancelled
  · obtain ⟨timeMs, htime, hle⟩ := (Option.any_eq_true _ _).1 hdeadline
    exact Or.inr (Or.inl ⟨timeMs, htime, of_decide_eq_true hle⟩)

theorem FinishedBy.limit (h : budget.FinishedBy momentMs) (stage : Stage) :
    (stage.limit budget).FinishedBy momentMs := by
  cases stage with
  | cancel => exact Or.inl rfl
  | wait | rival | effect => exact h

end Budget

/-! ## 2. The time of a request -/

namespace Situation

variable {σ : Type}

/-- A situation is no later than a moment, unless it is where a call began, and the context has
finished by that moment. -/
structure Within (here : Situation σ) (momentMs startMs : Nat) : Prop where
  finished : here.budget.FinishedBy momentMs
  le : here.nowMs ≤ max momentMs startMs

variable {here : Situation σ} {momentMs startMs : Nat}

theorem Within.cut (h : here.Within momentMs startMs) {durationMs timeMs : Nat}
    (hcut : here.interruption? (.wait durationMs) = some timeMs) :
    ({ here with nowMs := timeMs }).Within momentMs startMs := by
  refine ⟨h.finished, Nat.le_of_not_lt fun hlt => ?_⟩
  -- Otherwise the context would have finished before, and within the wait.
  exact (Budget.endsWait_of_interruption? hcut).first _ h.le hlt
    (h.finished.mono (Nat.le_max_left _ _))

variable [RecordStore σ]

theorem Within.undergo (h : here.Within momentMs startMs) (request : Request) {stage : Stage}
    (hgoing : here.interruption? stage = none) :
    (here.undergo request stage).Within momentMs startMs := by
  refine ⟨h.finished.limit stage, ?_⟩
  cases stage with
  | wait durationMs =>
    exact Nat.le_trans (h.finished.le_of_interruption? hgoing) (Nat.le_max_left _ _)
  | cancel | rival | effect => exact h.le

theorem Within.pass (h : here.Within momentMs startMs) (request : Request) (stages : List Stage) :
    (here.pass request stages).2.Within momentMs startMs := by
  induction stages generalizing here with
  | nil => exact h
  | cons stage stages ih =>
    cases hcut : here.interruption? stage with
    | none =>
      simp only [Situation.pass, hcut]
      exact ih (h.undergo request hcut)
    | some timeMs =>
      simp only [Situation.pass, hcut]
      cases stage with
      | wait durationMs => exact h.cut hcut
      | cancel | rival | effect => cases hcut

end Situation

/-! ## 3. The time of a call -/

namespace Timeline

variable {σ : Type} [RecordStore σ]

theorem within_run {timeline : Timeline σ} {momentMs startMs : Nat}
    (h : timeline.now.Within momentMs startMs) (courses : List (Course × Chance)) :
    (timeline.run courses).now.Within momentMs startMs := by
  refine run_induction (motive := fun timeline => timeline.now.Within momentMs startMs) ?_ ?_ h
    courses
  · exact fun h _ _ => h
  · intro timeline errand chance hwithin hrequest hstart hgoing
    have hreached : errand.reached.Within momentMs startMs := by
      rw [← hstart] at hwithin
      exact hwithin.pass errand.request errand.stages
    constructor
    · simpa using hreached.finished
    · simpa using hreached.le

theorem forall_going_run {timeline : Timeline σ}
    (h : ∀ errand ∈ timeline.errands, errand.start.budget.isDone errand.start.nowMs = false)
    (courses : List (Course × Chance)) : ∀ errand ∈ (timeline.run courses).errands,
      errand.start.budget.isDone errand.start.nowMs = false := by
  refine run_induction (motive := fun timeline => ∀ errand ∈ timeline.errands,
    errand.start.budget.isDone errand.start.nowMs = false) ?_ ?_ h courses
  · exact fun h _ _ => h
  · intro timeline errand chance hall hrequest hstart hgoing other hother
    rcases List.mem_append.1 hother with hother | hother
    · exact hall other hother
    · rw [List.mem_singleton.1 hother, hstart]
      exact hgoing

/-- Nothing but a context that has finished cancels a call. -/
theorem Kept.finishedBy {timeline : Timeline σ} (h : timeline.Kept)
    (hcancelled : timeline.call.isCancelled) :
    timeline.now.budget.FinishedBy timeline.now.nowMs := by
  cases h with
  | going _ hgoing => exact absurd hcancelled (ne_true_of_eq_false hgoing)
  | withheld _ hdone => exact Budget.finishedBy_of_isDone hdone
  | @cut call errands errand hall hleft =>
    show errand.after.budget.FinishedBy errand.after.nowMs
    rw [Errand.nowMs_after, Errand.budget_after, Errand.reached]
    rcases errand.start.pass_cases errand.request errand.stages with ⟨_, -, hpass⟩ |
      ⟨_, _, _, _, _, -, -, hcut, hpass⟩
    · rw [Errand.left, hpass] at hleft
      exact absurd rfl hleft
    · rw [hpass]
      exact (Budget.endsWait_of_interruption? hcut).finished

/-- The context bounds the call, whatever the store does and however long it takes. No request is
started while the context is done. If the context ends a wait of a request, then this request is the
last one, and the call is cancelled at that very moment; a call is not cancelled otherwise unless
its context has finished. The call goes on no longer than to any moment by which its context
finishes, unless it began later than that. -/
theorem bounded_by_context (invocation : Invocation) (now : Situation σ)
    (courses : List (Course × Chance)) :
    let timeline := (start invocation.call now).run courses
    (∀ errand ∈ timeline.errands, errand.start.budget.isDone errand.start.nowMs = false) ∧
      (∀ {before errand after}, timeline.errands = before ++ errand :: after →
        ∀ {lead durationMs rest here momentMs}, errand.stages = lead ++ .wait durationMs :: rest →
          Situation.Gets errand.request lead errand.start here →
          here.budget.EndsWait here.nowMs durationMs momentMs →
          after = [] ∧ timeline.call.isCancelled ∧ timeline.now.nowMs = momentMs) ∧
      (timeline.call.isCancelled → timeline.now.budget.FinishedBy timeline.now.nowMs) ∧
      (∀ {momentMs}, now.budget.FinishedBy momentMs →
        timeline.now.nowMs ≤ max momentMs now.nowMs) ∧
      (invocation.call.rank ≤ courses.length → timeline.call.result?.isSome) := by
  intro timeline
  have hkept : timeline.Kept := (kept_start invocation now).run courses
  refine ⟨forall_going_run (fun _ h => absurd h List.not_mem_nil) courses, ?_, hkept.finishedBy,
    ?_, fun h => result?_run h⟩
  · intro before errand after herrands lead durationMs rest here momentMs hstages hgets hends
    have hcut : here.interruption? (.wait durationMs) = some momentMs :=
      Budget.interruption?_eq_some_iff.2 hends
    have hpass : errand.start.pass errand.request errand.stages =
        (.wait durationMs :: rest, { here with nowMs := momentMs }) := by
      rw [hstages, hgets.pass_append]
      simp only [Situation.pass, hcut]
    have hleft : errand.left ≠ [] := by
      rw [Errand.left, hpass]
      exact List.cons_ne_nil _ _
    obtain ⟨hafter, hcancelled, hnow, -⟩ := hkept.of_left_ne_nil herrands hleft
    refine ⟨hafter, hcancelled, ?_⟩
    rw [hnow, Errand.nowMs_after, Errand.reached, hpass]
  · intro momentMs hfinished
    exact (within_run ⟨hfinished, Nat.le_max_right _ _⟩ courses).le

/-- The answer to a look-up would come ten milliseconds after its start, three milliseconds after
the deadline of the send. -/
theorem bounded_by_context_waiting :
    let invocation : Invocation := .send ⟨{}, "Hash-index"⟩
      (.single ⟨"4f1c"⟩ ⟨2024, 17⟩ ⟨"10-200"⟩ .empty ⟨""⟩)
    let now : Situation MemoryStore := ⟨.empty, 0, { deadlineMs := some 7 }⟩
    let slow : Course := ⟨[.wait 5, .effect, .wait 5], .ok [], false⟩
    let timeline := (start invocation.call now).run [(slow, ⟨⟨"x"⟩, 0⟩)]
    timeline.errands.length = 1 ∧ timeline.call.isCancelled ∧ timeline.now.nowMs = 7 := by
  intro invocation now slow timeline
  let lookUp : Errand MemoryStore := ⟨.query "Hash-index" ⟨"4f1c"⟩, slow, now⟩
  let here : Situation MemoryStore := ⟨.empty, 5, { deadlineMs := some 7 }⟩
  have herrands : timeline.errands = [] ++ lookUp :: [] := rfl
  have hstages : lookUp.stages = [.wait 5, .effect] ++ .wait 5 :: [] := rfl
  have hgets : Situation.Gets lookUp.request [.wait 5, .effect] lookUp.start here :=
    .cons rfl (.cons rfl .nil)
  have hends : here.budget.EndsWait here.nowMs 5 7 := Budget.interruption?_eq_some_iff.1 rfl
  obtain ⟨-, hcut, -⟩ := bounded_by_context invocation now [(slow, ⟨⟨"x"⟩, 0⟩)]
  obtain ⟨-, hcancelled, htime⟩ := hcut herrands hstages hgets hends
  exact ⟨rfl, hcancelled, htime⟩

end Timeline

end RevisionLedger
