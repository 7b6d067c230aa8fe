import RevisionLedger.Proofs.Transmit.Honesty
import RevisionLedger.Transmit.Rehearsal

/-!
# Conversations

The store behind a call may answer as it likes, and its caller's context may finish at any time.
What the call does is then told by the answers alone: `Call.hear` is the call after a number of
them, `Call.exchanges` is what was said. As many answers as the rank of a call are enough to end it
(`Call.result?_hear`). Nothing is lost by looking at answers only, for a rehearsal in virtual time
is a conversation too (`Scene.exists_hear`).
-/

namespace RevisionLedger

/-- A request and its answer, with what the step had of randomness. -/
structure Exchange where
  request : Request
  answer : Answer
  chance : Chance

/-- The conflict that a write was refused with. -/
def Exchange.conflict? (exchange : Exchange) : Option StoreError :=
  match exchange.answer with
  | .failed error =>
    if exchange.request.isWrite && error.kind = .conflict then some error else none
  | .ended | .done _ => none

theorem Exchange.conflict?_of_read {request : Request} {answer : Answer} {chance : Chance}
    (h : request.isWrite = false) : (Exchange.mk request answer chance).conflict? = none := by
  unfold conflict?
  cases answer <;> simp [h]

theorem Exchange.conflict?_of_write {request : Request} {chance : Chance} (h : request.isWrite)
    (error : StoreError) : (Exchange.mk request (.failed error) chance).conflict? =
      if error.kind = .conflict then some error else none := by
  simp [conflict?, h]

/-- The number of updates in a conversation. -/
def updates (log : List Exchange) : Nat := log.countP fun exchange => exchange.request.isUpdate

theorem updates_append (log more : List Exchange) :
    updates (log ++ more) = updates log + updates more :=
  List.countP_append

theorem updates_singleton (exchange : Exchange) :
    updates [exchange] = if exchange.request.isUpdate then 1 else 0 :=
  List.countP_singleton

namespace Call

/-! ## 1. What is said -/

/-- The call after a number of answers. -/
def hear (call : Call) (heard : List (Answer × Chance)) : Call :=
  heard.foldl (fun call told => call.resume told.1 told.2) call

/-- The conversation that a number of answers make. A call that has ended asks for nothing. -/
def exchanges (call : Call) : List (Answer × Chance) → List Exchange
  | [] => []
  | (answer, chance) :: heard =>
    match call.request? with
    | none => []
    | some request => ⟨request, answer, chance⟩ :: (call.resume answer chance).exchanges heard

theorem hear_of_ended {call : Call} (h : call.request? = none) (heard : List (Answer × Chance)) :
    call.hear heard = call := by
  induction heard with
  | nil => rfl
  | cons told heard ih =>
    show (call.resume told.1 told.2).hear heard = call
    rw [resume_of_request?_eq_none h]
    exact ih

theorem exchanges_of_ended {call : Call} (h : call.request? = none)
    (heard : List (Answer × Chance)) : call.exchanges heard = [] := by
  cases heard with
  | nil => rfl
  | cons told heard => simp only [exchanges, h]

theorem exchanges_cons {call : Call} {request : Request} (h : call.request? = some request)
    (answer : Answer) (chance : Chance) (heard : List (Answer × Chance)) :
    call.exchanges ((answer, chance) :: heard) =
      ⟨request, answer, chance⟩ :: (call.resume answer chance).exchanges heard := by
  simp only [exchanges, h]

/-- What a turn of the conversation preserves holds at its end. -/
theorem hear_induction {motive : Call → List Exchange → Prop}
    (step : ∀ {call log request}, motive call log → call.request? = some request →
      ∀ answer chance, motive (call.resume answer chance) (log ++ [⟨request, answer, chance⟩]))
    {call : Call} {log : List Exchange} (h : motive call log) (heard : List (Answer × Chance)) :
    motive (call.hear heard) (log ++ call.exchanges heard) := by
  -- What was said before is part of the statement, for it is what the next turn adds to.
  induction heard generalizing call log with
  | nil =>
    rw [exchanges, List.append_nil]
    exact h
  | cons told heard ih =>
    obtain ⟨answer, chance⟩ := told
    cases hrequest : call.request? with
    | none =>
      rw [hear_of_ended hrequest, exchanges_of_ended hrequest, List.append_nil]
      exact h
    | some request =>
      have hnext := ih (step h hrequest answer chance)
      rw [exchanges_cons hrequest]
      rw [List.append_assoc] at hnext
      exact hnext

theorem sameTask_hear (call : Call) (heard : List (Answer × Chance)) :
    call.SameTask (call.hear heard) := by
  induction heard generalizing call with
  | nil => exact .refl call
  | cons told heard ih => exact (call.sameTask_resume told.1 told.2).trans (ih _)

/-- Answers enough end a call, whatever they are. -/
theorem result?_hear {call : Call} {heard : List (Answer × Chance)}
    (h : call.rank ≤ heard.length) : (call.hear heard).result?.isSome := by
  -- Every answer that is heard lowers the rank of a call that waits.
  induction heard generalizing call with
  | nil =>
    have hrank : call.rank = 0 := Nat.le_zero.1 h
    show call.result?.isSome
    unfold rank at hrank
    unfold result?
    split at hrank
    case h_6 hphase => rw [hphase]; rfl
    all_goals omega
  | cons told heard ih =>
    cases hrequest : call.request? with
    | none =>
      rw [hear_of_ended hrequest]
      exact request?_eq_none_iff.1 hrequest
    | some request =>
      have hlt := call.rank_resume_lt told.1 told.2 (by rw [hrequest]; rfl)
      exact ih (Nat.le_of_lt_succ (Nat.lt_of_lt_of_le hlt h))

/-- Every race of a conversation that was lost has cost one of the rounds. -/
theorem counts_resume {call : Call} {log : List Exchange} {request : Request}
    (h : call.phase.Counts call.rounds (updates log)) (hrequest : call.request? = some request)
    (answer : Answer) (chance : Chance) :
    (call.resume answer chance).phase.Counts (call.resume answer chance).rounds
      (updates (log ++ [⟨request, answer, chance⟩])) := by
  have hfollows := follows_resume (by rw [hrequest]; rfl) answer chance
  rw [rounds_resume, updates_append, updates_singleton]
  exact hfollows.counts hrequest h

/-! ## 2. Writes come from the intent -/

/-- A call whose next write comes from its intent, whatever it was computed from. -/
structure Sincere (call : Call) : Prop where
  creates : ∀ {record}, call.phase = .opening record ∨ call.phase = .creating record →
    call.intent.Creates record
  drafts : ∀ {later copy delta}, call.phase = .writing later copy delta →
    ∃ token, call.intent.delta copy token = .ok delta

theorem Sincere.resume {call : Call} (h : call.Sincere) (answer : Answer) (chance : Chance) :
    (call.resume answer chance).Sincere := by
  cases hrequest : call.request? with
  | none =>
    rw [resume_of_request?_eq_none hrequest]
    exact h
  | some request =>
    have hfollows := follows_resume (by rw [hrequest]; rfl) answer chance
    constructor
    · intro record hphase
      rw [intent_resume]
      rcases hphase with hphase | hphase
      -- No call comes back to the look-up that it began with.
      · exact absurd hphase (phase_resume_ne_opening (by rw [hrequest]; rfl) answer chance record)
      · rw [hphase] at hfollows
        cases hfollows with
        | creating hopening => exact h.creates (Or.inl hopening)
    · intro later copy delta hphase
      rw [intent_resume]
      rw [hphase] at hfollows
      cases hfollows with
      | writing hreading hdelta => exact ⟨chance.token, hdelta⟩

end Call

theorem Invocation.sincere_call (invocation : Invocation) : invocation.call.Sincere := by
  rcases invocation.call_cases with ⟨_, _, herror⟩ | ⟨_, _, _, -, -, hstart⟩ | ⟨_, _, _, hstart⟩
  · constructor
    · rw [herror]
      rintro record (h | h) <;> cases h
    · rw [herror]
      intro later copy delta h
      cases h
  · rw [hstart]
    constructor
    · rintro record (h | h) <;> cases h
      rfl
    · intro later copy delta h
      cases h
  · rw [hstart]
    constructor
    · rintro record (h | h) <;> cases h
    · intro later copy delta h
      cases h

theorem Invocation.counts_call (invocation : Invocation) :
    invocation.call.phase.Counts invocation.call.rounds 0 := by
  rcases invocation.call_cases with ⟨_, _, herror⟩ | ⟨_, _, _, -, -, hstart⟩ |
    ⟨transmitter, _, _, hstart⟩
  · rw [herror]
    trivial
  · rw [hstart]
    rfl
  · rw [hstart]
    show 0 + (transmitter.policy.rounds - 1) + 1 = transmitter.policy.rounds
    have hpos : 1 ≤ transmitter.policy.rounds := Nat.le_max_left 1 _
    omega

/-! ## 3. Rehearsals -/

/-- A rehearsal ends a call by a conversation. -/
theorem Scene.exists_hear {σ : Type} [RecordStore σ] (call : Call) (scene : Scene σ) :
    ∃ heard, (scene.play call).1 = call.hear heard ∧ (call.hear heard).result?.isSome := by
  fun_induction Scene.play call scene with
  | case1 call scene hrequest =>
    exact ⟨[], rfl, Call.request?_eq_none_iff.1 hrequest⟩
  | case2 call scene request hrequest answer next hanswer hlt ih =>
    obtain ⟨heard, hplay, hended⟩ := ih
    exact ⟨(answer, scene.chance call) :: heard, hplay, hended⟩

end RevisionLedger
