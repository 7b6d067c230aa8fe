import RevisionLedger.Proofs.Transmit.Timeline

/-!
# Rehearsals are timelines

A rehearsal has a store, a time and a budget, as a situation has; the rest of its scene are notes.
Every part of a rehearsal goes through stages of the request that it serves, one after the other,
and does no more to the situation than they do (`Play.Staged`). So what a rehearsal comes to, and
the store calls that it logs, are those of a timeline (`Scene.exists_timeline`).
-/

namespace RevisionLedger

variable {σ : Type}

namespace Scene

/-- The situation of a scene. -/
def situation (scene : Scene σ) : Situation σ := ⟨scene.store, scene.nowMs, scene.budget⟩

variable [RecordStore σ]

theorem log_write (write : DirectWrite) (scene : Scene σ) :
    (scene.write write).1.log = scene.log := by
  simp only [Scene.write]
  split <;> rfl

theorem situation_write (request : Request) (write : DirectWrite) (scene : Scene σ) :
    (scene.write write).1.situation = scene.situation.undergo request (.rival write) := by
  simp only [Scene.write, Situation.undergo, Stage.change, situation, name]
  cases write.perform scene.store <;> rfl

theorem perform_spec (request : Request) (scene : Scene σ) :
    (scene.perform request).2 ≠ .ended ∧ (scene.perform request).1.log = scene.log ∧
      (scene.perform request).1.situation = scene.situation.undergo request .effect := by
  rcases request with ⟨index, hash⟩ | record | ⟨key, delta, expected⟩ | durationMs
  all_goals simp only [perform, Situation.undergo, Stage.change, situation, Request.performOn]
  · cases RecordStore.query scene.store hash <;> exact ⟨Answer.noConfusion, rfl, rfl⟩
  · cases RecordStore.put scene.store record <;> exact ⟨Answer.noConfusion, rfl, rfl⟩
  · cases RecordStore.update scene.store key delta expected <;>
      exact ⟨Answer.noConfusion, rfl, rfl⟩
  · exact ⟨Answer.noConfusion, trivial, rfl⟩

end Scene

namespace Play

/-! ## 1. Parts of a rehearsal -/

theorem bind_apply {α β : Type} (play : Play σ α) (next : α → Play σ β) (scene : Scene σ) :
    (play >>= next) scene =
      match play scene with
      | (some value, there) => next value there
      | (none, there) => (none, there) := by
  simp only [bind, OptionT.bind, OptionT.mk, StateT.bind]
  cases play scene with
  | mk value there => cases value <;> rfl

variable [RecordStore σ] {α β : Type} {request : Request}

/-- How a part of a rehearsal ends: past all of its stages and with a value, or cut short. -/
inductive Ends (request : Request) (post : α → Prop) (scene : Scene σ) :
    Option α × Scene σ → Prop
  | passed {stages : List Stage} {there : Scene σ} {value : α} :
    Situation.Gets request stages scene.situation there.situation → there.log = scene.log →
    post value → Ends request post scene (some value, there)
  | cut {stages left : List Stage} {there : Scene σ} :
    scene.situation.pass request stages = (left, there.situation) → left ≠ [] →
    there.log = scene.log → Ends request post scene (none, there)

/-- A part of a rehearsal goes through stages of a request, whatever the scene is, and no value
that it gives breaks the postcondition. -/
def Staged (request : Request) (post : α → Prop) (play : Play σ α) : Prop :=
  ∀ scene, Ends request post scene (play scene)

theorem staged_pure {post : α → Prop} {value : α} (h : post value) :
    Staged request post (pure value : Play σ α) :=
  fun _ => .passed .nil rfl h

/-- What is done at once is a stage if it does the same to the situation. -/
theorem staged_of_stage {post : α → Prop} {play : Play σ α} (stage : Stage)
    (hinstant : ∀ here : Situation σ, here.interruption? stage = none)
    (hplay : ∀ scene, ∃ value there, play scene = (some value, there) ∧ post value ∧
      there.log = scene.log ∧ there.situation = scene.situation.undergo request stage) :
    Staged request post play := by
  intro scene
  obtain ⟨value, there, hvalue, hpost, hlog, hthere⟩ := hplay scene
  have hgets : Situation.Gets request [stage] scene.situation there.situation := by
    rw [hthere]
    exact .cons (hinstant _) .nil
  rw [hvalue]
  exact .passed hgets hlog hpost

theorem Staged.bind {post : α → Prop} {goal : β → Prop} {play : Play σ α} {next : α → Play σ β}
    (h : Staged request post play)
    (hnext : ∀ value, post value → Staged request goal (next value)) :
    Staged request goal (play >>= next) := by
  intro scene
  rw [bind_apply]
  have hfirst := h scene
  generalize play scene = reached at hfirst
  cases hfirst with
  | cut hpass hleft hlog => exact .cut hpass hleft hlog
  | @passed stages there value hgets hlog hpost =>
    have hsecond := hnext value hpost there
    show Ends request goal scene (next value there)
    generalize next value there = ended at hsecond
    cases hsecond with
    | cut hpass hleft hmore =>
      exact .cut ((hgets.pass_append _).trans hpass) hleft (hmore.trans hlog)
    | passed hrest hmore hgoal => exact .passed (hgets.append hrest) (hmore.trans hlog) hgoal

theorem Staged.andThen {goal : β → Prop} {play : Play σ Unit} {next : Play σ β}
    (h : Staged request (fun _ => True) play) (hnext : Staged request goal next) :
    Staged request goal (do play; next) :=
  h.bind fun _ _ => hnext

theorem staged_wait (durationMs : Nat) :
    Staged request (fun _ => True) (wait durationMs : Play σ Unit) := by
  intro scene
  simp only [wait]
  split
  · rename_i timeMs htime
    have hpass : scene.situation.pass request [.wait durationMs] =
        ([.wait durationMs], { scene.situation with nowMs := timeMs }) := by
      simp only [Situation.pass, Situation.interruption?, Scene.situation, htime]
    exact .cut hpass (List.cons_ne_nil _ _) rfl
  · rename_i hgoing
    have hinstant : scene.situation.interruption? (.wait durationMs) = none := hgoing
    exact .passed (.cons hinstant .nil) rfl trivial

theorem staged_sleep (durationMs : Nat) :
    Staged request (fun _ => True) (sleep durationMs : Play σ Unit) := by
  unfold sleep
  split
  · exact staged_pure trivial
  · exact staged_wait durationMs

theorem staged_settle : Staged request (fun _ => True) (settle : Play σ Unit) := by
  unfold settle
  split
  · exact staged_wait 0
  · exact staged_pure trivial

theorem staged_race (writes : List DirectWrite) :
    Staged request (fun _ => True) (race writes : Play σ Unit) := by
  induction writes with
  | nil => exact staged_pure trivial
  | cons write writes ih =>
    have hwrite : Staged request (fun _ => True)
        (modify fun scene => (scene.write write).1 : Play σ Unit) :=
      staged_of_stage (.rival write) (fun _ => rfl) fun scene =>
        ⟨(), _, rfl, trivial, scene.log_write write, scene.situation_write request write⟩
    exact hwrite.andThen (staged_settle.andThen ih)

theorem staged_call (request : Request) :
    Staged request (· ≠ .ended) (call request : Play σ Answer) := by
  have hperform : Staged request (· ≠ .ended)
      (modifyGet fun scene => (scene.perform request).swap : Play σ Answer) :=
    staged_of_stage .effect (fun _ => rfl) fun scene =>
      ⟨_, _, rfl, scene.perform_spec request⟩
  exact hperform.bind fun answer hanswer => staged_settle.andThen (staged_pure hanswer)

theorem staged_serve (request : Request) (incident : Incident) :
    Staged request (· ≠ .ended) (serve request incident : Play σ Answer) := by
  have hsleep : Staged request (fun _ => True) (sleep incident.afterMs : Play σ Unit) :=
    staged_sleep incident.afterMs
  have hcancel : Staged request (fun _ => True)
      (modify fun scene => { scene with budget := { scene.budget with cancelled := true } } :
        Play σ Unit) :=
    staged_of_stage .cancel (fun _ => rfl) fun scene =>
      ⟨(), _, rfl, trivial, rfl, rfl⟩
  unfold serve
  -- What comes after a cancellation is the same as without one.
  extract_lets rest
  have hrest : Staged request (· ≠ .ended) (rest ()) := by
    refine (staged_sleep _).andThen ((staged_race _).andThen ?_)
    split
    · exact staged_pure Answer.noConfusion
    · have hcall : Staged request (fun _ => True) (discard (call request) : Play σ Unit) :=
        (staged_call request).bind fun _ _ => staged_pure trivial
      exact hcall.andThen (hsleep.andThen (staged_pure Answer.noConfusion))
    · exact hsleep.andThen (staged_pure Answer.noConfusion)
    · exact (staged_call request).bind fun answer hanswer => hsleep.andThen (staged_pure hanswer)
  split
  · exact hcancel.andThen hrest
  · exact hrest

end Play

/-! ## 2. Rehearsals -/

namespace Errand

variable {request : Request}

theorem stages_of_store (h : ∀ durationMs, request ≠ .pause durationMs) (course : Course)
    (start : Situation σ) : stages ⟨request, course, start⟩ = course.stages := by
  cases request with
  | pause durationMs => exact absurd rfl (h durationMs)
  | query | put | update => rfl

variable [RecordStore σ]

/-- What the log of the store calls has of an errand. A pause is not a store call. -/
def logged? (errand : Errand σ) : Option LoggedCall :=
  match errand.request with
  | .pause _ => none
  | .query _ _ | .put _ | .update _ _ _ =>
    some ⟨errand.request, if errand.left.isEmpty then some errand.answer else none⟩

theorem logged?_of_store (h : ∀ durationMs, request ≠ .pause durationMs) (course : Course)
    (start : Situation σ) : logged? ⟨request, course, start⟩ = some ⟨request,
      if (left ⟨request, course, start⟩).isEmpty then some (answer ⟨request, course, start⟩)
      else none⟩ := by
  cases request with
  | pause durationMs => exact absurd rfl (h durationMs)
  | query | put | update => rfl

end Errand

variable [RecordStore σ]

/-- An errand that comes to what a request comes to in a scene. -/
structure Errand.Depicts (errand : Errand σ) (scene : Scene σ) (answer : Answer)
    (there : Scene σ) : Prop where
  answer_eq : answer = errand.answer
  after_eq : there.situation = errand.after
  log_eq : there.log = errand.logged?.toList ++ scene.log

namespace Scene

theorem serve_eq (request : Request) (scene : Scene σ) :
    ∃ incident entered, entered.situation = scene.situation ∧ entered.log = scene.log ∧
      scene.serve request =
        let (answer, there) := Play.serve request incident entered
        (answer, { there with log := ⟨request, answer⟩ :: there.log }) := by
  refine ⟨(scene.script.take request).1, { (writtenKey? request).elim scene scene.name with
    script := (scene.script.take request).2 }, ?_, ?_, rfl⟩ <;> cases writtenKey? request <;> rfl

theorem depicts_serve {request : Request} (hrequest : ∀ durationMs, request ≠ .pause durationMs)
    (scene : Scene σ) : ∃ course, Errand.Depicts ⟨request, course, scene.situation⟩ scene
      ((scene.serve request).1.getD .ended) (scene.serve request).2 := by
  obtain ⟨incident, entered, hsituation, hlog, hserve⟩ := scene.serve_eq request
  have hends := Play.staged_serve request incident entered
  rw [hserve]
  generalize Play.serve request incident entered = ended at hends
  rw [← hsituation]
  have hstages (course) := Errand.stages_of_store hrequest course entered.situation
  have hlogged (course) := Errand.logged?_of_store hrequest course entered.situation
  cases hends with
  | @passed stages there answer hgets hmore hanswer =>
    obtain ⟨reply, rfl⟩ := Answer.exists_reply hanswer
    have hpass := Situation.gets_iff.1 hgets
    refine ⟨⟨stages, reply, false⟩, ?_, ?_, ?_⟩
    · simp only [Errand.answer, Errand.left, hstages, hpass]
      rfl
    · simp only [Errand.after, Errand.reached, hstages, hpass]
      rfl
    · simp only [hlogged, Errand.answer, Errand.left, hstages, hpass, hmore, hlog]
      rfl
  | @cut stages left there hpass hleft hmore =>
    obtain ⟨stage, rest, rfl⟩ := List.exists_cons_of_ne_nil hleft
    refine ⟨⟨stages, .ok [], false⟩, ?_, ?_, ?_⟩
    · simp only [Errand.answer, Errand.left, hstages, hpass]
      rfl
    · simp only [Errand.after, Errand.reached, hstages, hpass]
      rfl
    · simp only [hlogged, Errand.answer, Errand.left, hstages, hpass, hmore, hlog]
      rfl

theorem depicts_pause (durationMs : Nat) (scene : Scene σ) :
    Errand.Depicts ⟨.pause durationMs, ⟨[], .ok [], false⟩, scene.situation⟩ scene
      (((Play.sleep durationMs scene).1.map fun () => Answer.done []).getD .ended)
      (Play.sleep durationMs scene).2 := by
  by_cases hzero : durationMs = 0
  · rw [hzero]
    exact ⟨rfl, rfl, rfl⟩
  · have hstages (start : Situation σ) :
        Errand.stages ⟨.pause durationMs, ⟨[], .ok [], false⟩, start⟩ = [.wait durationMs] :=
      if_neg hzero
    have hsleep : (Play.sleep durationMs : Play σ Unit) = Play.wait durationMs := if_neg hzero
    rw [hsleep]
    cases hcut : scene.budget.interruption? scene.nowMs (scene.nowMs + durationMs) <;>
      constructor <;>
      simp only [Play.wait, hcut, Errand.answer, Errand.after, Errand.reached, Errand.left, hstages,
        Situation.pass, Situation.interruption?, Scene.situation] <;>
      rfl

theorem depicts_answer (request : Request) {scene : Scene σ}
    (h : scene.budget.isDone scene.nowMs = false) :
    ∃ course, Errand.Depicts ⟨request, course, scene.situation⟩ scene (scene.answer request).1
      (scene.answer request).2 := by
  unfold answer
  rw [h]
  cases request with
  | query index hash => exact depicts_serve (fun _ => Request.noConfusion) scene
  | put record => exact depicts_serve (fun _ => Request.noConfusion) scene
  | update key delta expected => exact depicts_serve (fun _ => Request.noConfusion) scene
  | pause durationMs => exact ⟨_, depicts_pause durationMs scene⟩

end Scene

/-- A timeline that has come as far as a call in a scene. -/
structure Timeline.Depicts (timeline : Timeline σ) (call : Call) (scene : Scene σ) : Prop where
  call_eq : timeline.call = call
  now_eq : timeline.now = scene.situation
  log_eq : scene.log = (timeline.errands.filterMap Errand.logged?).reverse

theorem Timeline.Depicts.play {timeline : Timeline σ} {call : Call} {scene : Scene σ}
    (h : timeline.Depicts call scene) :
    ∃ courses, (timeline.run courses).Depicts (scene.play call).1 (scene.play call).2 := by
  fun_induction Scene.play call scene generalizing timeline with
  | case1 call scene hrequest => exact ⟨[], h⟩
  | case2 call scene request hrequest answer next hanswer hlt ih =>
    have hstep : ∃ course, (timeline.step (course, scene.chance call)).Depicts
        (call.resume answer (scene.chance call)) { next with tokens := next.tokens + 1 } := by
      obtain ⟨rfl, hnow, hlog⟩ := h
      cases hdone : scene.budget.isDone scene.nowMs with
      | true =>
        simp only [Scene.answer, hdone, if_true] at hanswer
        cases hanswer
        refine ⟨⟨[], .ok [], false⟩, ?_⟩
        rw [Timeline.step_of_done hrequest (by rw [hnow]; exact hdone)]
        exact ⟨rfl, hnow, hlog⟩
      | false =>
        obtain ⟨course, hheard, hafter, hmore⟩ := Scene.depicts_answer request hdone
        rw [hanswer, ← hnow] at hheard hafter hmore
        refine ⟨course, ?_⟩
        rw [Timeline.step_of_going hrequest (by rw [hnow]; exact hdone)]
        refine ⟨congrArg (timeline.call.resume · _) hheard.symm, hafter.symm, ?_⟩
        have hlast (errand : Errand σ) :
            ([errand].filterMap Errand.logged?).reverse = errand.logged?.toList := by
          rw [List.filterMap_cons]
          cases errand.logged? <;> rfl
        show next.log = _
        rw [hmore, hlog, List.filterMap_append, List.reverse_append, hlast]
    obtain ⟨course, hstep⟩ := hstep
    obtain ⟨courses, hcourses⟩ := ih hstep
    exact ⟨(course, scene.chance call) :: courses, hcourses⟩

/-- What a rehearsal comes to is what a timeline comes to. -/
theorem Scene.exists_timeline (call : Call) (budget : Budget) (script : Script) (scene : Scene σ) :
    ∃ courses,
      let timeline := (Timeline.start call ⟨scene.store, scene.nowMs, budget⟩).run courses
      let rehearsal := scene.rehearse call budget script
      rehearsal.1 = timeline.call ∧ rehearsal.2.2.situation = timeline.now ∧
        rehearsal.2.1 = timeline.errands.filterMap Errand.logged? := by
  have hstart : (Timeline.start call ⟨scene.store, scene.nowMs, budget⟩).Depicts call
      { scene with budget, script, log := [] } := ⟨rfl, rfl, rfl⟩
  obtain ⟨courses, hplay⟩ := hstart.play
  refine ⟨courses, hplay.call_eq.symm, hplay.now_eq.symm, ?_⟩
  show List.reverse _ = _
  rw [hplay.log_eq, List.reverse_reverse]

end RevisionLedger
