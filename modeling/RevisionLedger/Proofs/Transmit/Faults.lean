import RevisionLedger.Proofs.Transmit.Honesty

/-!
# Calls over a store that fails

Between a call and its store requests and answers may get lost. A request may fail before it takes
effect or after, its caller may be told any error, or may have left; a write that its caller has
given up on may take effect at any later time, or never. Only a write that took effect is reported
as done, and a query answers with the records of some moment while it was under way.

Whatever happens, no update is lost and the first writer of a setting wins
(`World.first_writer_wins`).
-/

namespace RevisionLedger

/-! ## 1. Clients -/

/-- A call at work. -/
structure Client where
  call : Call
  /-- What the store made of the current request, until the call gets to know it. -/
  settled : Option Answer
  /-- Writes that were given up on and may still take effect. -/
  stray : List Request

/-- What can happen to a call at work. -/
inductive Move
  /-- The store carries out the current request. -/
  | serve
  /-- The call gets the answer of the store. -/
  | reply
  /-- The call gets an error instead. -/
  | fail (error : StoreError)
  /-- The caller leaves. -/
  | drop
  /-- A write that was given up on takes effect. -/
  | land (place : Nat)

namespace Client

/-- A call before anything has happened. -/
def idle (call : Call) : Client := ⟨call, none, []⟩

/-- The stray writes once the current request is given up on. -/
def givenUp (client : Client) : List Request :=
  match client.settled, client.call.request? with
  | none, some request => if request.isWrite then client.stray ++ [request] else client.stray
  | _, _ => client.stray

/-- Hands the call an answer that is not the one of the store. -/
def tell (client : Client) (answer : Answer) (chance : Chance) : Client :=
  ⟨client.call.resume answer chance, none, client.givenUp⟩

/-- What becomes of a client and the store. -/
def move (client : Client) (store : MemoryStore) (chance : Chance) : Move → MemoryStore × Client
  | .serve =>
    match client.settled, client.call.request? with
    | none, some request =>
      let (store, answer) := Fleet.serve store request
      (store, { client with settled := some answer })
    | _, _ => (store, client)
  | .reply =>
    match client.settled with
    | some answer =>
      (store, { client with call := client.call.resume answer chance, settled := none })
    | none => (store, client)
  | .fail error => (store, client.tell (.failed error) chance)
  | .drop => (store, client.tell .ended chance)
  | .land place =>
    match client.stray[place]? with
    | some request =>
      ((Fleet.serve store request).1, { client with stray := client.stray.eraseIdx place })
    | none => (store, client)

/-- A client whose call is honest, was not lied to, and has left no groundless write behind. -/
structure Honest (source : Source) (store : MemoryStore) (versions : List Record)
    (client : Client) : Prop where
  call : client.call.Honest source store versions
  settled : ∀ {answer}, client.settled = some answer → ∃ request,
    client.call.request? = some request ∧
      answer.Honest store versions client.call.revision client.call.intent request
  stray : ∀ request ∈ client.stray, client.call.intent.IsFor client.call.revision ∧
    Backed source store versions client.call.revision client.call.intent request

theorem sameTask_move (client : Client) (store : MemoryStore) (chance : Chance) (what : Move) :
    client.call.SameTask (client.move store chance what).2.call := by
  cases what with
  | serve =>
    dsimp only [move]
    split <;> exact .refl _
  | reply =>
    dsimp only [move]
    split
    · exact Call.sameTask_resume ..
    · exact .refl _
  | fail error => exact Call.sameTask_resume ..
  | drop => exact Call.sameTask_resume ..
  | land place =>
    dsimp only [move]
    split <;> exact .refl _

/-! ## 2. What a move does -/

section Moves

variable {source : Source} {step : Nat} {store : MemoryStore} {versions : List Record}
  {client : Client}

theorem honest_idle {call : Call} (h : call.Honest source store versions) :
    (idle call).Honest source store versions where
  call := h
  settled hsettled := by cases hsettled
  stray request hmem := absurd hmem List.not_mem_nil

theorem Honest.mono {later : MemoryStore} {versions' : List Record}
    (h : client.Honest source store versions) (hgrows : store.Grows later)
    (hsub : versions ⊆ versions') : client.Honest source later versions' where
  call := h.call.mono hgrows hsub
  settled hsettled := by
    obtain ⟨request, hrequest, hanswer⟩ := h.settled hsettled
    exact ⟨request, hrequest, hanswer.mono hgrows hsub⟩
  stray request hmem := by
    obtain ⟨hfor, hbacked⟩ := h.stray request hmem
    exact ⟨hfor, hbacked.mono hgrows hsub⟩

/-- Whatever is given up on had its reasons. -/
theorem Honest.givenUp (h : client.Honest source store versions) :
    ∀ request ∈ client.givenUp, client.call.intent.IsFor client.call.revision ∧
      Backed source store versions client.call.revision client.call.intent request := by
  intro request hmem
  unfold Client.givenUp at hmem
  split at hmem
  · rename_i asked hsettled hasked
    split at hmem
    · rcases List.mem_append.1 hmem with hold | hnew
      · exact h.stray request hold
      · obtain rfl := List.mem_singleton.1 hnew
        exact ⟨h.call.isFor_of_waits (by rw [hasked]; rfl), h.call.backed hasked⟩
    · exact h.stray request hmem
  · exact h.stray request hmem

/-- A client stays honest when its call takes in an answer that does not lie, whatever part of the
writes it gives up on. -/
theorem Honest.hear (h : client.Honest source store versions)
    (hdistinct : source.Distinct)
    (hfenced : Fenced source step store versions) {answer : Answer}
    (hanswer : ∀ {request}, client.call.request? = some request →
      answer.Honest store versions client.call.revision client.call.intent request)
    {stray : List Request} (hstray : stray ⊆ client.givenUp) :
    ∃ versions', versions ⊆ versions' ∧ Fenced source (step + 1) store versions' ∧
      (Client.mk (client.call.resume answer (source step client.call)) none stray).Honest source
        store versions' := by
  cases hrequest : client.call.request? with
  | none =>
    rw [Call.resume_of_request?_eq_none hrequest]
    refine ⟨versions, List.Subset.refl _, hfenced.mono (Nat.le_succ step), h.call, ?_, ?_⟩
    · intro answer hsettled
      cases hsettled
    · exact fun request hmem => h.givenUp request (hstray hmem)
  | some request =>
    obtain ⟨versions', hsub, hfenced', hcall⟩ :=
      h.call.resume hdistinct hfenced hrequest (hanswer hrequest)
    refine ⟨versions', hsub, hfenced', hcall, ?_, ?_⟩
    · intro answer hsettled
      cases hsettled
    · intro request hmem
      obtain ⟨hfor, hbacked⟩ := h.givenUp request (hstray hmem)
      rw [Call.intent_resume, Call.revision_resume]
      exact ⟨hfor, hbacked.mono (.refl store) hsub⟩

/-- One move: the store changes as the call would have it, and its client stays honest. -/
theorem Honest.move (h : client.Honest source store versions)
    (hdistinct : source.Distinct)
    (hsound : store.Sound) (hfenced : Fenced source step store versions) (what : Move) :
    let next := client.move store (source step client.call) what
    next.1.Sound ∧ store.Grows next.1 ∧
      Change store client.call.revision client.call.intent next.1 ∧
      ∃ versions', versions ⊆ versions' ∧ Fenced source (step + 1) next.1 versions' ∧
        next.2.Honest source next.1 versions' := by
  have hstill : ∃ versions', versions ⊆ versions' ∧ Fenced source (step + 1) store versions' ∧
      client.Honest source store versions' :=
    ⟨versions, List.Subset.refl _, hfenced.mono (Nat.le_succ step), h⟩
  -- The store changes only when it serves a request, be it the current one or a stray one.
  cases what with
  | serve =>
    dsimp only [Client.move]
    split
    · rename_i request hsettled hrequest
      have hfor := h.call.isFor_of_waits (by rw [hrequest]; rfl)
      have hbacked := h.call.backed hrequest
      obtain ⟨hsound', hgrows, versions', hsub, hfenced', hanswer⟩ :=
        serve_spec hsound hfenced hfor hbacked
      have hclient := h.mono hgrows hsub
      refine ⟨hsound', hgrows, (serve_effect hfenced hfor hbacked).change, versions', hsub,
        hfenced'.mono (Nat.le_succ step), hclient.call, ?_, hclient.stray⟩
      intro answer hanswered
      cases hanswered
      exact ⟨request, hrequest, hanswer⟩
    · exact ⟨hsound, .refl store, .none, hstill⟩
  | reply =>
    dsimp only [Client.move]
    split
    · rename_i answer hsettled
      obtain ⟨request, hrequest, hanswer⟩ := h.settled hsettled
      refine ⟨hsound, .refl store, .none, h.hear hdistinct hfenced ?_ ?_⟩
      · intro asked hasked
        obtain rfl := Option.some.inj (hasked.symm.trans hrequest)
        exact hanswer
      · -- A request that was answered is not given up on.
        rw [Client.givenUp, hsettled]
        exact List.Subset.refl _
    · exact ⟨hsound, .refl store, .none, hstill⟩
  | fail error =>
    -- An error has neither records nor an effect to lie about.
    refine ⟨hsound, .refl store, .none, h.hear hdistinct hfenced (fun _ => ?_)
      (List.Subset.refl _)⟩
    constructor <;> intro records hdone <;> cases hdone
  | drop =>
    refine ⟨hsound, .refl store, .none, h.hear hdistinct hfenced (fun _ => ?_)
      (List.Subset.refl _)⟩
    constructor <;> intro records hdone <;> cases hdone
  | land place =>
    dsimp only [Client.move]
    split
    · rename_i request hplace
      obtain ⟨hfor, hbacked⟩ := h.stray request (List.mem_of_getElem? hplace)
      obtain ⟨hsound', hgrows, versions', hsub, hfenced', -⟩ :=
        serve_spec hsound hfenced hfor hbacked
      have hclient := h.mono hgrows hsub
      exact ⟨hsound', hgrows, (serve_effect hfenced hfor hbacked).change, versions', hsub,
        hfenced'.mono (Nat.le_succ step), hclient.call, hclient.settled,
        fun request hmem => hclient.stray request (List.mem_of_mem_eraseIdx hmem)⟩
    · exact ⟨hsound, .refl store, .none, hstill⟩

end Moves

end Client

/-! ## 3. Worlds -/

/-- Clients over one store. -/
structure World where
  store : MemoryStore
  clients : List Client
  /-- The number of moves made so far. -/
  steps : Nat

namespace World

/-- Invocations over a store, before anything has happened. -/
def start (store : MemoryStore) (invocations : List Invocation) : World :=
  ⟨store, invocations.map fun invocation => Client.idle invocation.call, 0⟩

/-- One move of the client at an index. -/
def step (source : Source) (world : World) (event : Nat × Move) : World :=
  match world.clients[event.1]? with
  | none => world
  | some client =>
    let (store, client) := client.move world.store (source world.steps client.call) event.2
    ⟨store, world.clients.set event.1 client, world.steps + 1⟩

/-- The moves of a list, in that order. -/
def run (source : Source) (events : List (Nat × Move)) (world : World) : World :=
  events.foldl (step source) world

/-- What holds at all times. -/
structure Lawful (source : Source) (invocations : List Invocation) (world : World) : Prop where
  sound : world.store.Sound
  honest : ∃ versions, Fenced source world.steps world.store versions ∧
    ∀ client ∈ world.clients, client.Honest source world.store versions
  own : ∀ {index : Nat} {client : Client}, world.clients[index]? = some client →
    ∃ invocation : Invocation, invocations[index]? = some invocation ∧
      invocation.call.SameTask client.call

theorem lawful_start {source : Source} {store : MemoryStore} {invocations : List Invocation}
    (hsound : store.Sound) (hfresh : source.Fresh store invocations) :
    (start store invocations).Lawful source invocations where
  sound := hsound
  honest := by
    refine ⟨_, Fenced.of_store hsound hfresh.stored, fun client hclient => ?_⟩
    obtain ⟨invocation, hmem, rfl⟩ := List.mem_map.1 hclient
    exact Client.honest_idle (Call.honest_start fun hsend => hfresh.supplied (hsend ▸ hmem))
  own {index client} hclient := by
    rw [show (start store invocations).clients = invocations.map _ from rfl,
      List.getElem?_map] at hclient
    obtain ⟨invocation, hinvocation, rfl⟩ := Option.map_eq_some_iff.1 hclient
    exact ⟨invocation, hinvocation, .refl _⟩

section Steps

variable {source : Source} {invocations : List Invocation} {world : World}

/-- One move. -/
theorem Lawful.step (h : world.Lawful source invocations)
    (hdistinct : source.Distinct)
    (event : Nat × Move) :
    (world.step source event).Lawful source invocations ∧
      world.store.Grows (world.step source event).store ∧
      ((world.step source event).store = world.store ∨
        ∃ invocation : Invocation, invocations[event.1]? = some invocation ∧
          Change world.store invocation.call.revision invocation.call.intent
            (world.step source event).store) := by
  unfold World.step
  split
  · exact ⟨h, .refl _, Or.inl rfl⟩
  · rename_i client hclient
    obtain ⟨versions, hfenced, hhonest⟩ := h.honest
    obtain ⟨hsound, hgrows, hchange, versions', hsub, hfenced', hnext⟩ :=
      (hhonest client (List.mem_of_getElem? hclient)).move hdistinct h.sound hfenced event.2
    obtain ⟨invocation, hinvocation, htask⟩ := h.own hclient
    refine ⟨⟨hsound, ⟨versions', hfenced', fun other hother => ?_⟩, fun {index other} hother => ?_⟩,
      hgrows, Or.inr ⟨invocation, hinvocation, ?_⟩⟩
    · rcases List.mem_or_eq_of_mem_set hother with hold | rfl
      · exact (hhonest other hold).mono hgrows hsub
      · exact hnext
    · rcases getElem?_set_cases hother with ⟨rfl, rfl⟩ | ⟨-, hother⟩
      · exact ⟨invocation, hinvocation, htask.trans (Client.sameTask_move ..)⟩
      · exact h.own hother
    · rw [← htask.2.1, ← htask.2.2]
      exact hchange

/-- A run. -/
theorem Lawful.run (h : world.Lawful source invocations)
    (hdistinct : source.Distinct)
    (events : List (Nat × Move)) :
    (world.run source events).Lawful source invocations ∧
      world.store.Grows (world.run source events).store := by
  induction events generalizing world with
  | nil => exact ⟨h, .refl _⟩
  | cons event events ih =>
    obtain ⟨hstep, hgrows, -⟩ := h.step hdistinct event
    obtain ⟨hrun, hgrows'⟩ := ih hstep
    exact ⟨hrun, hgrows.trans hgrows'⟩

end Steps

/-- No update is lost, and the first writer of a setting wins. In every state that a run reaches

* no two records have one hash, and each stands under its own key,
* every record stays under its key with its hash, its settings and their metrics,
* every move leaves the store as it is, or writes what an invocation makes of the record that is
  replaced, or creates the record of a revision that has none, and
* a call that reports success has its setting or its label recorded. -/
theorem first_writer_wins {source : Source} {store : MemoryStore} {invocations : List Invocation}
    (hsound : store.Sound) (hfresh : source.Fresh store invocations)
    (events : List (Nat × Move)) :
    let world := (start store invocations).run source events
    world.store.Sound ∧ (∀ hash, (world.store.query hash).length ≤ 1) ∧
      (∀ further, world.store.Grows (world.run source further).store) ∧
      (∀ event, (world.step source event).store = world.store ∨
        ∃ invocation : Invocation, invocations[event.1]? = some invocation ∧
          Change world.store invocation.call.revision invocation.call.intent
            (world.step source event).store) ∧
      ∀ (index : Nat) (invocation : Invocation) (client : Client) (outcome : Outcome),
        invocations[index]? = some invocation → world.clients[index]? = some client →
        client.call.result? = some (.ok outcome) →
        Truthful world.store invocation.call.revision invocation.call.intent outcome := by
  intro world
  obtain ⟨hlawful, -⟩ := (lawful_start hsound hfresh).run hfresh.distinct events
  refine ⟨hlawful.sound, hlawful.sound.query_length_le, fun further => ?_, fun event => ?_, ?_⟩
  · exact (hlawful.run hfresh.distinct further).2
  · exact (hlawful.step hfresh.distinct event).2.2
  · intro index invocation client outcome hinvocation hclient hresult
    obtain ⟨versions, -, hhonest⟩ := hlawful.honest
    obtain ⟨own, hown, htask⟩ := hlawful.own hclient
    obtain rfl : own = invocation := Option.some.inj (hown.symm.trans hinvocation)
    have hphase : client.call.phase = .finished (.ok outcome) := by
      unfold Call.result? at hresult
      split at hresult <;> cases hresult
      assumption
    rw [← htask.2.1, ← htask.2.2]
    exact (hhonest client (List.mem_of_getElem? hclient)).call.truthful hphase

theorem first_writer_wins_rivals : MemoryStore.empty.Sound ∧
    Source.unary.Fresh .empty Invocation.rivals ∧
    ∀ events hash, (((start .empty Invocation.rivals).run Source.unary events).store.query
      hash).length ≤ 1 :=
  ⟨MemoryStore.sound_empty, Source.unary_fresh_rivals, fun events hash =>
    (first_writer_wins MemoryStore.sound_empty Source.unary_fresh_rivals events).2.1 hash⟩

end World

end RevisionLedger
