import RevisionLedger.Proofs.Transmit.Conversation

/-!
# Timelines

A call in virtual time, over a store that takes as long as it likes. While a store call is under
way its caller waits, the context may be cancelled, others may write, and at some moment the request
takes effect (`Stage`). The context cuts a wait short when it finishes; a store call that is cut
short is dropped, unless the store goes on by itself (`Course`).

`Timeline.run` plays a call against any list of courses, so nothing is assumed of the store, of its
delays or of the pauses that are drawn. Nothing is started once the context has finished. What was
started is kept (`Errand`); only the last errand can have been cut short, and then the call is
cancelled there and then (`Timeline.Kept`). A rehearsal is a timeline (`Scene.exists_timeline`).
-/

namespace RevisionLedger

/-! ## 1. Stages -/

/-- What happens while a request is under way. -/
inductive Stage
  /-- The caller has to wait, even if for no time at all. -/
  | wait (durationMs : Nat)
  /-- The context of the caller is cancelled. -/
  | cancel
  /-- Another writer gets in. -/
  | rival (write : DirectWrite)
  /-- The request takes effect. -/
  | effect

/-- How a store serves a request that is not cut short. -/
structure Course where
  stages : List Stage
  reply : Except StoreError (List Record)
  /-- Whether the store goes on when its caller has left. -/
  carriesOn : Bool := false

/-- A store, the time, and what limits the call. -/
structure Situation (σ : Type) where
  store : σ
  nowMs : Nat
  budget : Budget

/-- What a request makes of a store. One that is refused leaves it as it is. -/
def Request.performOn {σ : Type} [RecordStore σ] (request : Request) (store : σ) : σ :=
  match request with
  | .put record => (RecordStore.put store record).toOption.getD store
  | .update key delta expected => (RecordStore.update store key delta expected).toOption.getD store
  | .query _ _ | .pause _ => store

namespace Stage

def durationMs : Stage → Nat
  | .wait durationMs => durationMs
  | .cancel | .rival _ | .effect => 0

/-- What limits the call after a stage. -/
def limit (budget : Budget) : Stage → Budget
  | .cancel => { budget with cancelled := true }
  | .wait _ | .rival _ | .effect => budget

/-- What a stage of a request makes of the store. -/
def change {σ : Type} [RecordStore σ] (request : Request) (store : σ) : Stage → σ
  | .wait _ | .cancel => store
  | .rival write => (write.perform store).toOption.getD store
  | .effect => request.performOn store

end Stage

def totalMs : List Stage → Nat
  | [] => 0
  | stage :: stages => stage.durationMs + totalMs stages

theorem totalMs_append (stages more : List Stage) :
    totalMs (stages ++ more) = totalMs stages + totalMs more := by
  induction stages with
  | nil => exact (Nat.zero_add _).symm
  | cons stage stages ih => rw [List.cons_append, totalMs, ih, totalMs, Nat.add_assoc]

namespace Situation

variable {σ : Type} [RecordStore σ] {request : Request} {here there : Situation σ}

/-- When the context cuts a stage short. Only a wait can be cut short. -/
def interruption? (here : Situation σ) : Stage → Option Nat
  | .wait durationMs => here.budget.interruption? here.nowMs (here.nowMs + durationMs)
  | .cancel | .rival _ | .effect => none

/-- The situation after a stage of a request. -/
def undergo (request : Request) (here : Situation σ) (stage : Stage) : Situation σ :=
  ⟨stage.change request here.store, here.nowMs + stage.durationMs, stage.limit here.budget⟩

/-- Goes through the stages of a request until the context finishes, and gives what is left of
them: the wait that was cut short, and all after it. -/
def pass (request : Request) : List Stage → Situation σ → List Stage × Situation σ
  | [], here => ([], here)
  | stage :: stages, here =>
    match here.interruption? stage with
    | some timeMs => (stage :: stages, { here with nowMs := timeMs })
    | none => pass request stages (here.undergo request stage)

/-- The context lets a request get through stages. -/
inductive Gets (request : Request) : List Stage → Situation σ → Situation σ → Prop
  | nil {here : Situation σ} : Gets request [] here here
  | cons {stage : Stage} {stages : List Stage} {here there : Situation σ} :
    here.interruption? stage = none → Gets request stages (here.undergo request stage) there →
    Gets request (stage :: stages) here there

theorem Gets.pass_append {lead : List Stage} (h : Gets request lead here there)
    (rest : List Stage) : pass request (lead ++ rest) here = pass request rest there := by
  induction h with
  | nil => rfl
  | cons hgoing hgets ih => simp only [List.cons_append, pass, hgoing, ih]

/-- A request gets through all of its stages, or up to a wait that is cut short. -/
theorem pass_cases (request : Request) (stages : List Stage) (here : Situation σ) :
    (∃ there, Gets request stages here there ∧ pass request stages here = ([], there)) ∨
      ∃ lead durationMs rest there timeMs, stages = lead ++ .wait durationMs :: rest ∧
        Gets request lead here there ∧ there.interruption? (.wait durationMs) = some timeMs ∧
        pass request stages here = (.wait durationMs :: rest, { there with nowMs := timeMs }) := by
  induction stages generalizing here with
  | nil => exact Or.inl ⟨here, .nil, rfl⟩
  | cons stage stages ih =>
    cases hcut : here.interruption? stage with
    | some timeMs =>
      -- The split is on what kind of stage this is, since only waits are cut short.
      cases stage with
      | wait durationMs =>
        refine Or.inr ⟨[], durationMs, stages, here, timeMs, rfl, .nil, hcut, ?_⟩
        simp only [pass, hcut]
      | cancel | rival write | effect => cases hcut
    | none =>
      simp only [pass, hcut]
      rcases ih (here.undergo request stage) with ⟨there, hgets, hpass⟩ | ⟨lead, durationMs, rest,
        there, timeMs, rfl, hgets, htime, hpass⟩
      · exact Or.inl ⟨there, .cons hcut hgets, hpass⟩
      · exact Or.inr ⟨stage :: lead, durationMs, rest, there, timeMs, rfl, .cons hcut hgets, htime,
          hpass⟩

theorem gets_iff {stages : List Stage} :
    Gets request stages here there ↔ here.pass request stages = ([], there) := by
  constructor
  · intro h
    have hpass := h.pass_append []
    rwa [List.append_nil] at hpass
  · intro h
    rcases pass_cases request stages here with ⟨_, hgets, hpass⟩ | ⟨_, _, _, _, _, _, -, -, hpass⟩
    · rw [hpass] at h
      cases h
      exact hgets
    · rw [hpass] at h
      cases h

theorem Gets.append {lead rest : List Stage} {pause : Situation σ}
    (h : Gets request lead here pause) (hrest : Gets request rest pause there) :
    Gets request (lead ++ rest) here there := by
  rw [gets_iff, h.pass_append]
  exact gets_iff.1 hrest

theorem Gets.exists_of_append {lead rest : List Stage}
    (h : Gets request (lead ++ rest) here there) : ∃ pause, Gets request lead here pause := by
  induction lead generalizing here with
  | nil => exact ⟨here, .nil⟩
  | cons stage lead ih =>
    cases h with
    | cons hgoing hgets =>
      obtain ⟨pause, hpause⟩ := ih hgets
      exact ⟨pause, .cons hgoing hpause⟩

theorem length_pass_le (request : Request) (stages : List Stage) (here : Situation σ) :
    (here.pass request stages).1.length ≤ stages.length := by
  induction stages generalizing here with
  | nil => exact Nat.le_refl _
  | cons stage stages ih =>
    unfold pass
    split
    · exact Nat.le_refl _
    · exact Nat.le_succ_of_le (ih _)

theorem Gets.store_eq {lead : List Stage} (h : Gets request lead here there) :
    there.store = lead.foldl (Stage.change request) here.store := by
  induction h with
  | nil => rfl
  | cons hgoing hgets ih => exact ih

theorem Gets.nowMs_eq {lead : List Stage} (h : Gets request lead here there) :
    there.nowMs = here.nowMs + totalMs lead := by
  induction h with
  | nil => rfl
  | cons hgoing hgets ih => rw [ih, totalMs, undergo, Nat.add_assoc]

end Situation

/-! ## 2. Errands -/

namespace Answer

/-- What a call hears of a store that answers. -/
def ofReply : Except StoreError (List Record) → Answer
  | .ok records => .done records
  | .error error => .failed error

theorem ofReply_ne_ended (reply : Except StoreError (List Record)) : ofReply reply ≠ .ended := by
  cases reply <;> exact Answer.noConfusion

theorem exists_reply {answer : Answer} (h : answer ≠ .ended) : ∃ reply, answer = ofReply reply := by
  cases answer with
  | ended => exact absurd rfl h
  | failed error => exact ⟨.error error, rfl⟩
  | done records => exact ⟨.ok records, rfl⟩

end Answer

/-- A request that was started, with the situation that it was started in. -/
structure Errand (σ : Type) where
  request : Request
  course : Course
  start : Situation σ

namespace Errand

variable {σ : Type}

/-- The stages of an errand. A pause is a wait, unless it takes no time. -/
def stages (errand : Errand σ) : List Stage :=
  match errand.request with
  | .pause durationMs => if durationMs = 0 then [] else [.wait durationMs]
  | .query _ _ | .put _ | .update _ _ _ => errand.course.stages

variable [RecordStore σ]

/-- The stages that were not passed; none unless the errand was cut short. -/
def left (errand : Errand σ) : List Stage :=
  (errand.start.pass errand.request errand.stages).1

/-- The situation when the call goes on. -/
def reached (errand : Errand σ) : Situation σ :=
  (errand.start.pass errand.request errand.stages).2

def answer (errand : Errand σ) : Answer :=
  if errand.left.isEmpty then .ofReply errand.course.reply else .ended

theorem answer_eq_ended_iff {errand : Errand σ} : errand.answer = .ended ↔ errand.left ≠ [] := by
  unfold answer
  cases errand.left with
  | nil => exact ⟨fun h => absurd h (Answer.ofReply_ne_ended _), fun h => absurd rfl h⟩
  | cons stage stages => exact ⟨fun _ => List.cons_ne_nil _ _, fun _ => rfl⟩

/-- The situation when the call goes on, with all that a store still does that goes on by itself. -/
def after (errand : Errand σ) : Situation σ :=
  if errand.course.carriesOn then
    { errand.reached with
      store := errand.left.foldl (Stage.change errand.request) errand.reached.store }
  else errand.reached

@[simp] theorem nowMs_after (errand : Errand σ) : errand.after.nowMs = errand.reached.nowMs := by
  unfold after
  split <;> rfl

@[simp] theorem budget_after (errand : Errand σ) :
    errand.after.budget = errand.reached.budget := by
  unfold after
  split <;> rfl

end Errand

/-! ## 3. Cancelled calls -/

namespace Call

/-- Whether a call ended because its context finished first. -/
def isCancelled (call : Call) : Bool :=
  match call.result? with
  | some (.error (.cancelled _ _)) => true
  | _ => false

theorem resume_ended {call : Call} (h : call.request?.isSome) (chance : Chance) :
    call.resume .ended chance = call.cancel := by
  unfold resume
  split
  case h_6 hphase => exact absurd hphase (phase_ne_finished h _)
  all_goals rfl

/-- Nothing but the end of its context cancels a call. -/
theorem isCancelled_resume {call : Call} (hwaits : call.request?.isSome) {answer : Answer}
    (h : answer ≠ .ended) (chance : Chance) :
    (call.resume answer chance).isCancelled = false := by
  have hfollows := follows_resume hwaits answer chance
  unfold isCancelled result?
  generalize (call.resume answer chance).phase = phase at hfollows
  cases hfollows with
  | ended => exact absurd rfl h
  | refused | ambiguous | creating | found | created | beaten | missing | skipped | writing
  | updated | vanished | exhausted | lost | rested => rfl

end Call

theorem Invocation.isCancelled_call (invocation : Invocation) :
    invocation.call.isCancelled = false := by
  unfold Call.isCancelled Call.result?
  rcases invocation.call_cases with ⟨_, _, herror⟩ | ⟨_, _, _, -, -, hstart⟩ | ⟨_, _, _, hstart⟩
  · rw [herror]
  all_goals
    rw [hstart]
    rfl

/-! ## 4. Timelines -/

/-- A call in its time. -/
structure Timeline (σ : Type) where
  call : Call
  now : Situation σ
  /-- The requests that were started, the first one first. -/
  errands : List (Errand σ)
  /-- The request that was due when the context was found to have finished. -/
  withheld : Option Request

namespace Timeline

variable {σ : Type}

/-- A call before its first request. -/
def start (call : Call) (now : Situation σ) : Timeline σ := ⟨call, now, [], none⟩

variable [RecordStore σ]

/-- One request of the call. Nothing is started once the context has finished. -/
def step (timeline : Timeline σ) (next : Course × Chance) : Timeline σ :=
  match timeline.call.request? with
  | none => timeline
  | some request =>
    if timeline.now.budget.isDone timeline.now.nowMs then
      { timeline with call := timeline.call.resume .ended next.2, withheld := some request }
    else
      let errand : Errand σ := ⟨request, next.1, timeline.now⟩
      { timeline with
        call := timeline.call.resume errand.answer next.2
        now := errand.after
        errands := timeline.errands ++ [errand] }

section Steps

variable {timeline : Timeline σ} {request : Request}

theorem step_of_ended (h : timeline.call.request? = none) (next : Course × Chance) :
    timeline.step next = timeline := by
  simp only [step, h]

theorem step_of_done (h : timeline.call.request? = some request)
    (hdone : timeline.now.budget.isDone timeline.now.nowMs) (next : Course × Chance) :
    timeline.step next =
      { timeline with call := timeline.call.resume .ended next.2, withheld := some request } := by
  simp only [step, h, hdone, if_true]

theorem step_of_going (h : timeline.call.request? = some request)
    (hgoing : timeline.now.budget.isDone timeline.now.nowMs = false) (next : Course × Chance) :
    timeline.step next =
      let errand : Errand σ := ⟨request, next.1, timeline.now⟩
      { timeline with
        call := timeline.call.resume errand.answer next.2
        now := errand.after
        errands := timeline.errands ++ [errand] } := by
  simp only [step, h, hgoing, Bool.false_eq_true, if_false]

end Steps

/-- The requests of the call that a list of courses serves. -/
def run (courses : List (Course × Chance)) (timeline : Timeline σ) : Timeline σ :=
  courses.foldl step timeline

/-- What is preserved where a request is withheld, and where one is started, holds in the end. -/
theorem run_induction {motive : Timeline σ → Prop}
    (withheld : ∀ {timeline : Timeline σ} {request : Request}, motive timeline →
      timeline.call.request? = some request → timeline.now.budget.isDone timeline.now.nowMs →
      motive { timeline with call := timeline.call.cancel, withheld := some request })
    (started : ∀ {timeline : Timeline σ} (errand : Errand σ) (chance : Chance), motive timeline →
      timeline.call.request? = some errand.request → errand.start = timeline.now →
      timeline.now.budget.isDone timeline.now.nowMs = false →
      motive { timeline with
        call := timeline.call.resume errand.answer chance
        now := errand.after
        errands := timeline.errands ++ [errand] })
    {timeline : Timeline σ} (h : motive timeline) (courses : List (Course × Chance)) :
    motive (timeline.run courses) := by
  induction courses generalizing timeline with
  | nil => exact h
  | cons next courses ih =>
    show motive ((timeline.step next).run courses)
    apply ih
    cases hrequest : timeline.call.request? with
    | none =>
      rw [step_of_ended hrequest]
      exact h
    | some request =>
      cases hdone : timeline.now.budget.isDone timeline.now.nowMs with
      | true =>
        rw [step_of_done hrequest hdone, Call.resume_ended (by rw [hrequest]; rfl)]
        exact withheld h hrequest hdone
      | false =>
        rw [step_of_going hrequest hdone]
        exact started ⟨request, next.1, timeline.now⟩ next.2 h hrequest rfl hdone

/-- A timeline is a conversation. -/
theorem exists_hear (timeline : Timeline σ) (courses : List (Course × Chance)) :
    ∃ heard, heard.length = courses.length ∧
      (timeline.run courses).call = timeline.call.hear heard := by
  induction courses generalizing timeline with
  | nil => exact ⟨[], rfl, rfl⟩
  | cons next courses ih =>
    obtain ⟨heard, hlength, hcall⟩ := ih (timeline.step next)
    obtain ⟨answer, hanswer⟩ : ∃ answer,
        (timeline.step next).call = timeline.call.resume answer next.2 := by
      unfold step
      split
      · rename_i hended
        exact ⟨.ended, (Call.resume_of_request?_eq_none hended _ _).symm⟩
      · split
        · exact ⟨_, rfl⟩
        · exact ⟨_, rfl⟩
    refine ⟨(answer, next.2) :: heard, congrArg Nat.succ hlength, ?_⟩
    rw [hanswer] at hcall
    exact hcall

/-- Courses enough end a call, whatever they are. -/
theorem result?_run {timeline : Timeline σ} {courses : List (Course × Chance)}
    (h : timeline.call.rank ≤ courses.length) : (timeline.run courses).call.result?.isSome := by
  obtain ⟨heard, hlength, hcall⟩ := timeline.exists_hear courses
  rw [hcall]
  exact Call.result?_hear (by rwa [hlength])

/-! ## 5. What is cut short -/

/-- How a timeline stands between two requests. -/
inductive Kept : Timeline σ → Prop
  | going {call : Call} {now : Situation σ} {errands : List (Errand σ)} :
    (∀ errand ∈ errands, errand.left = []) → call.isCancelled = false →
    Kept ⟨call, now, errands, none⟩
  | withheld {call : Call} {now : Situation σ} {errands : List (Errand σ)} {request : Request} :
    (∀ errand ∈ errands, errand.left = []) → now.budget.isDone now.nowMs →
    Kept ⟨call.cancel, now, errands, some request⟩
  | cut {call : Call} {errands : List (Errand σ)} {errand : Errand σ} :
    (∀ errand ∈ errands, errand.left = []) → errand.left ≠ [] →
    Kept ⟨call.cancel, errand.after, errands ++ [errand], none⟩

/-- A call that is cancelled stays so, hence only the last errand can have been cut short. -/
theorem Kept.run {timeline : Timeline σ} (h : timeline.Kept) (courses : List (Course × Chance)) :
    (timeline.run courses).Kept := by
  refine run_induction ?_ ?_ h courses
  · intro timeline request hkept hrequest hdone
    cases hkept with
    | going hall hcall => exact .withheld hall hdone
    -- Here the call is cancelled already, and has no request any more.
    | withheld | cut => cases hrequest
  · intro timeline errand chance hkept hrequest hstart hdone
    have hwaits : timeline.call.request?.isSome := by rw [hrequest]; rfl
    cases hkept with
    | going hall hcall =>
      by_cases hleft : errand.left = []
      · have hanswer : errand.answer ≠ .ended := fun h => Errand.answer_eq_ended_iff.1 h hleft
        refine .going (fun other hother => ?_) (Call.isCancelled_resume hwaits hanswer chance)
        rcases List.mem_append.1 hother with hother | hother
        · exact hall other hother
        · exact List.mem_singleton.1 hother ▸ hleft
      · simp only [Errand.answer_eq_ended_iff.2 hleft, Call.resume_ended hwaits]
        exact .cut hall hleft
    | withheld | cut => cases hrequest

/-- Where an errand was cut short the call has ended. -/
theorem Kept.of_left_ne_nil {timeline : Timeline σ} (h : timeline.Kept)
    {before after : List (Errand σ)} {errand : Errand σ}
    (herrands : timeline.errands = before ++ errand :: after) (hleft : errand.left ≠ []) :
    after = [] ∧ timeline.call.isCancelled ∧ timeline.now = errand.after ∧
      timeline.withheld = none := by
  have hmem : errand ∈ timeline.errands := by
    rw [herrands]
    exact List.mem_append_right _ List.mem_cons_self
  cases h with
  | going hall | withheld hall => exact absurd (hall errand hmem) hleft
  | @cut call answered last hall hcut =>
    rcases List.eq_nil_or_concat after with rfl | ⟨rest, final, rfl⟩
    · obtain ⟨-, hlast⟩ := List.append_inj' herrands rfl
      cases hlast
      exact ⟨rfl, rfl, rfl, rfl⟩
    · -- If any errand came after it, it would be one of those that were not cut short.
      rw [List.concat_eq_append, ← List.cons_append, ← List.append_assoc] at herrands
      obtain ⟨rfl, -⟩ := List.append_inj' herrands rfl
      exact absurd (hall errand (List.mem_append_right _ List.mem_cons_self)) hleft

theorem kept_start (invocation : Invocation) (now : Situation σ) :
    (start invocation.call now).Kept :=
  .going (fun _ h => absurd h List.not_mem_nil) invocation.isCancelled_call

end Timeline

end RevisionLedger
