import Mathlib.Data.List.Infix
import Mathlib.Logic.Relation
import RevisionLedger.Transmit.Context

/-!
# Families of contexts

A pool knows a family by a number. Here a family is what the history of a run says it is: those
contexts and tokens that are linked by steps in which one got the cancellation of another
(`ContextPool.SameFamily`). The history also says who cancelled (`ContextPool.Cancelled`) and which
deadline was last set for a context (`ContextPool.HasDeadline`).

The numbers agree with the history (`sameFamily_iff`, `mem_cancelled_run_iff`, `hasDeadline_iff`),
so a context is done exactly if someone of its family cancelled or its deadline is reached. No
action changes a context that is there, and a cancellation is seen in one family only
(`ContextPool.done_iff_cancelled_or_due`).
-/

namespace RevisionLedger

namespace ContextPool

/-! ## 1. Holders of a cancellation -/

/-- Whoever has a cancellation: a context or a token. -/
inductive Holder
  | context (index : Nat)
  | token (index : Nat)
deriving DecidableEq, Repr

/-- Whether a holder has been made. -/
def Has (pool : ContextPool) : Holder → Prop
  | .context index => index < pool.contexts.length
  | .token index => index < pool.tokens.length

/-- The family of a holder that has been made. -/
def family? (pool : ContextPool) : Holder → Option Nat
  | .context index => pool.contexts[index]?.map CallContext.family
  | .token index => pool.tokens[index]?

theorem has_iff {pool : ContextPool} {holder : Holder} :
    pool.Has holder ↔ ∃ family, pool.family? holder = some family := by
  rw [← Option.isSome_iff_exists]
  cases holder <;> simp [Has, family?]

namespace Action

/-- The holder whose cancellation an action gives to another. -/
def source? : Action → Option Holder
  | .clone index | .withDeadline index _ | .withTimeout index _ | .shareToken index =>
    some (.context index)
  | .withToken index => some (.token index)
  | .fresh | .cancel _ | .cancelToken _ | .advance _ => none

/-- The holder by which an action cancels. -/
def canceller? : Action → Option Holder
  | .cancel index => some (.context index)
  | .cancelToken index => some (.token index)
  | _ => none

/-- How many families an action makes. -/
def families : Action → Nat
  | .fresh => 1
  | _ => 0

def durationMs : Action → Nat
  | .advance durationMs => durationMs
  | _ => 0

end Action

/-- The holder that an action makes, if it makes one. -/
def next (pool : ContextPool) : Action → Holder
  | .shareToken _ => .token pool.tokens.length
  | _ => .context pool.contexts.length

/-! ## 2. What one action does -/

/-- The context that an action adds. -/
def added? (pool : ContextPool) : Action → Option CallContext
  | .clone index => pool.contexts[index]?
  | .withDeadline index deadlineMs =>
    pool.contexts[index]?.map ({ · with deadlineMs := some deadlineMs })
  | .withTimeout index durationMs =>
    pool.contexts[index]?.map ({ · with deadlineMs := some (pool.nowMs + durationMs) })
  | .fresh => some ⟨pool.families, none⟩
  | .withToken index => pool.tokens[index]?.map (⟨·, none⟩)
  | .shareToken _ | .cancel _ | .cancelToken _ | .advance _ => none

/-- The family of the token that an action adds. -/
def shared? (pool : ContextPool) : Action → Option Nat
  | .shareToken index => pool.family? (.context index)
  | _ => none

/-- An action adds at most one context, one token and one cancelled family, and changes nothing that
is there. -/
theorem act_eq (pool : ContextPool) (action : Action) : pool.act action = {
    contexts := pool.contexts ++ (pool.added? action).toList
    tokens := pool.tokens ++ (pool.shared? action).toList
    cancelled := (action.canceller?.bind pool.family?).toList ++ pool.cancelled
    families := pool.families + action.families
    nowMs := pool.nowMs + action.durationMs } := by
  cases action with
  | clone index | withDeadline index _ | withTimeout index _ | shareToken index | cancel index =>
    cases h : pool.contexts[index]? <;>
      simp [act, derive, add, cancelFamily, added?, shared?, family?, Action.canceller?,
        Action.families, Action.durationMs, h]
  | withToken index | cancelToken index =>
    cases h : pool.tokens[index]? <;>
      simp [act, add, cancelFamily, added?, shared?, family?, Action.canceller?, Action.families,
        Action.durationMs, h]
  | fresh | advance _ =>
    simp [act, add, added?, shared?, Action.canceller?, Action.families, Action.durationMs]

/-- The family that the holder gets which an action makes. -/
def given? (pool : ContextPool) : Action → Option Nat
  | .fresh => some pool.families
  | action => action.source?.bind pool.family?

theorem given?_of_source? {pool : ContextPool} {action : Action} {source : Holder}
    (h : action.source? = some source) : pool.given? action = pool.family? source := by
  cases action <;> cases h <;> rfl

theorem given?_cases {pool : ContextPool} {action : Action} {family : Nat}
    (h : pool.given? action = some family) : (action = .fresh ∧ family = pool.families) ∨
      ∃ source, action.source? = some source ∧ pool.family? source = some family := by
  cases action with
  | fresh => exact Or.inl ⟨rfl, (Option.some.inj h).symm⟩
  | _ => exact Or.inr (Option.bind_eq_some_iff.1 h)

theorem added?_family_iff {pool : ContextPool} {action : Action} {index family : Nat} :
    (index = pool.contexts.length ∧
        ∃ context, pool.added? action = some context ∧ context.family = family) ↔
      .context index = pool.next action ∧ pool.given? action = some family := by
  cases action <;> simp [added?, next, given?, Action.source?, family?]

theorem shared?_eq_some_iff {pool : ContextPool} {action : Action} {index family : Nat} :
    (index = pool.tokens.length ∧ pool.shared? action = some family) ↔
      .token index = pool.next action ∧ pool.given? action = some family := by
  cases action <;> simp [shared?, next, given?, Action.source?]

theorem getElem?_append_toList {α : Type} {values : List α} {added : Option α} {index : Nat}
    {value : α} : (values ++ added.toList)[index]? = some value ↔
      values[index]? = some value ∨ index = values.length ∧ added = some value := by
  cases added with
  | none => simp
  | some last => grind

/-- A holder keeps its family, and one that is made gets that of its source. -/
theorem family?_act_eq_some_iff {pool : ContextPool} {action : Action} {holder : Holder}
    {family : Nat} : (pool.act action).family? holder = some family ↔
      pool.family? holder = some family ∨
        holder = pool.next action ∧ pool.given? action = some family := by
  rw [act_eq]
  cases holder with
  | context index =>
    rw [← added?_family_iff]
    simp only [family?, Option.map_eq_some_iff, getElem?_append_toList]
    grind
  | token index =>
    rw [← shared?_eq_some_iff]
    exact getElem?_append_toList

/-! ## 3. Runs -/

/-- What a pool may have become: what was there has stayed as it was. -/
structure Later (earlier later : ContextPool) : Prop where
  contexts : earlier.contexts <+: later.contexts
  family? : ∀ {holder family}, earlier.family? holder = some family →
    later.family? holder = some family
  cancelled : earlier.cancelled ⊆ later.cancelled
  nowMs : earlier.nowMs ≤ later.nowMs

namespace Later

theorem refl (pool : ContextPool) : pool.Later pool :=
  ⟨List.prefix_refl _, id, List.Subset.refl _, Nat.le_refl _⟩

theorem trans {a b c : ContextPool} (hab : a.Later b) (hbc : b.Later c) : a.Later c where
  contexts := hab.contexts.trans hbc.contexts
  family? h := hbc.family? (hab.family? h)
  cancelled := List.Subset.trans hab.cancelled hbc.cancelled
  nowMs := hab.nowMs.trans hbc.nowMs

theorem act (pool : ContextPool) (action : Action) : pool.Later (pool.act action) where
  contexts := by rw [act_eq]; exact List.prefix_append _ _
  family? h := family?_act_eq_some_iff.2 (Or.inl h)
  cancelled := by rw [act_eq]; exact List.subset_append_right _ _
  nowMs := by rw [act_eq]; exact Nat.le_add_right _ _

theorem run (pool : ContextPool) (actions : List Action) : pool.Later (pool.run actions) := by
  induction actions generalizing pool with
  | nil => exact refl pool
  | cons action actions ih => exact (act pool action).trans (ih (pool.act action))

theorem has {earlier later : ContextPool} (h : earlier.Later later) {holder : Holder}
    (hhas : earlier.Has holder) : later.Has holder := by
  obtain ⟨family, hfamily⟩ := has_iff.1 hhas
  exact has_iff.2 ⟨family, h.family? hfamily⟩

end Later

theorem run_append (pool : ContextPool) (actions more : List Action) :
    pool.run (actions ++ more) = (pool.run actions).run more :=
  List.foldl_append

theorem run_append_singleton (pool : ContextPool) (actions : List Action) (action : Action) :
    pool.run (actions ++ [action]) = (pool.run actions).act action :=
  run_append pool actions [action]

/-! ## 4. What the history of a run says -/

/-- A run came to a pool and did an action to it. -/
def Step (actions : List Action) (pool : ContextPool) (action : Action) : Prop :=
  ∃ earlier, earlier ++ [action] <+: actions ∧ pool = empty.run earlier

/-- A step gave the cancellation of one holder to another. -/
def Linked (actions : List Action) (old new : Holder) : Prop :=
  ∃ pool action, Step actions pool action ∧ action.source? = some old ∧ pool.Has old ∧
    new = pool.next action

/-- Holders that are linked, be it through others. -/
def SameFamily (actions : List Action) : Holder → Holder → Prop :=
  Relation.EqvGen (Linked actions)

/-- A step cancelled by a holder. -/
def Cancelled (actions : List Action) (holder : Holder) : Prop :=
  ∃ pool action, Step actions pool action ∧ action.canceller? = some holder ∧ pool.Has holder

/-- The deadline that was last set for a context or, if none was set for it, that of the context it
was cloned from. -/
inductive HasDeadline (actions : List Action) : Nat → Nat → Prop
  | withDeadline {pool : ContextPool} {index deadlineMs : Nat}
      (hstep : Step actions pool (.withDeadline index deadlineMs))
      (hindex : index < pool.contexts.length) :
      HasDeadline actions pool.contexts.length deadlineMs
  | withTimeout {pool : ContextPool} {index durationMs : Nat}
      (hstep : Step actions pool (.withTimeout index durationMs))
      (hindex : index < pool.contexts.length) :
      HasDeadline actions pool.contexts.length (pool.nowMs + durationMs)
  | clone {pool : ContextPool} {index deadlineMs : Nat} (hstep : Step actions pool (.clone index))
      (hindex : index < pool.contexts.length) (h : HasDeadline actions index deadlineMs) :
      HasDeadline actions pool.contexts.length deadlineMs

theorem step_append_singleton {actions : List Action} {last action : Action} {pool : ContextPool} :
    Step (actions ++ [last]) pool action ↔
      Step actions pool action ∨ pool = empty.run actions ∧ action = last := by
  simp only [Step, List.prefix_concat_iff]
  constructor
  · rintro ⟨earlier, hlast | hearlier, rfl⟩
    · obtain ⟨rfl, hsame⟩ := List.append_inj' hlast rfl
      exact Or.inr ⟨rfl, List.singleton_inj.1 hsame⟩
    · exact Or.inl ⟨earlier, hearlier, rfl⟩
  · rintro (⟨earlier, hearlier, rfl⟩ | ⟨rfl, rfl⟩)
    · exact ⟨earlier, Or.inr hearlier, rfl⟩
    · exact ⟨actions, Or.inl rfl, rfl⟩

namespace Step

variable {actions : List Action} {pool : ContextPool} {action : Action}

theorem append_singleton (h : Step actions pool action) (last : Action) :
    Step (actions ++ [last]) pool action :=
  step_append_singleton.2 (Or.inl h)

theorem last (actions : List Action) (action : Action) :
    Step (actions ++ [action]) (empty.run actions) action :=
  step_append_singleton.2 (Or.inr ⟨rfl, rfl⟩)

theorem later (h : Step actions pool action) : (pool.act action).Later (empty.run actions) := by
  obtain ⟨earlier, ⟨rest, rfl⟩, rfl⟩ := h
  rw [run_append, run_append_singleton]
  exact Later.run _ rest

end Step

theorem SameFamily.append_singleton {actions : List Action} {a b : Holder}
    (h : SameFamily actions a b) (last : Action) : SameFamily (actions ++ [last]) a b :=
  Relation.EqvGen.mono (fun _ _ ⟨pool, action, hstep, hrest⟩ =>
    ⟨pool, action, hstep.append_singleton last, hrest⟩) a b h

theorem HasDeadline.append_singleton {actions : List Action} {index deadlineMs : Nat}
    (h : HasDeadline actions index deadlineMs) (last : Action) :
    HasDeadline (actions ++ [last]) index deadlineMs := by
  induction h with
  | withDeadline hstep hindex => exact .withDeadline (hstep.append_singleton last) hindex
  | withTimeout hstep hindex => exact .withTimeout (hstep.append_singleton last) hindex
  | clone hstep hindex _ ih => exact .clone (hstep.append_singleton last) hindex ih

/-! ## 5. The pool agrees with the history -/

theorem family?_of_linked {actions : List Action} {old new : Holder} (h : Linked actions old new) :
    (empty.run actions).family? old = (empty.run actions).family? new := by
  obtain ⟨pool, action, hstep, hsource, hhas, rfl⟩ := h
  obtain ⟨family, hfamily⟩ := has_iff.1 hhas
  have hnew : (pool.act action).family? (pool.next action) = some family :=
    family?_act_eq_some_iff.2 (Or.inr ⟨rfl, (given?_of_source? hsource).trans hfamily⟩)
  have hold : (pool.act action).family? old = some family := (Later.act pool action).family? hfamily
  rw [hstep.later.family? hnew, hstep.later.family? hold]

theorem SameFamily.family?_eq {actions : List Action} {a b : Holder} (h : SameFamily actions a b) :
    (empty.run actions).family? a = (empty.run actions).family? b := by
  induction h with
  | rel old new hlinked => exact family?_of_linked hlinked
  | refl _ => rfl
  | symm _ _ _ ih => exact ih.symm
  | trans _ _ _ _ _ ihab ihbc => exact ihab.trans ihbc

theorem family?_empty {holder : Holder} {family : Nat} (h : empty.family? holder = some family) :
    holder = .token 0 ∧ family = 0 := by
  cases holder with
  | context index => simp [family?, empty] at h
  | token index =>
    cases index with
    | zero => simpa [family?, empty, eq_comm] using h
    | succ index => simp [family?, empty] at h

/-- No holder has the family that is to be made next. -/
theorem family?_lt_families {actions : List Action} {holder : Holder} {family : Nat}
    (h : (empty.run actions).family? holder = some family) :
    family < (empty.run actions).families := by
  induction actions using List.reverseRecOn generalizing holder with
  | nil =>
    obtain ⟨-, rfl⟩ := family?_empty h
    exact Nat.zero_lt_one
  | append_singleton actions last ih =>
    rw [run_append_singleton] at h ⊢
    have hfamilies : ((empty.run actions).act last).families =
        (empty.run actions).families + last.families := by rw [act_eq]
    rw [hfamilies]
    rcases family?_act_eq_some_iff.1 h with hold | ⟨-, hgiven⟩
    · exact Nat.lt_add_right _ (ih hold)
    · rcases given?_cases hgiven with ⟨rfl, rfl⟩ | ⟨source, -, hsource⟩
      · exact Nat.lt_succ_self _
      · exact Nat.lt_add_right _ (ih hsource)

/-- After a step a holder is linked to one of its family that was there before, unless the step
made the family. -/
theorem exists_elder {actions : List Action} {last : Action} {holder : Holder} {family : Nat}
    (h : (empty.run (actions ++ [last])).family? holder = some family) :
    (family = (empty.run actions).families ∧ holder = (empty.run actions).next last) ∨
      ∃ elder, (empty.run actions).family? elder = some family ∧
        SameFamily (actions ++ [last]) elder holder := by
  rw [run_append_singleton] at h
  rcases family?_act_eq_some_iff.1 h with hold | ⟨rfl, hgiven⟩
  · exact Or.inr ⟨holder, hold, Relation.EqvGen.refl _⟩
  · rcases given?_cases hgiven with ⟨-, hfamily⟩ | ⟨source, hsource, hfamily⟩
    · exact Or.inl ⟨hfamily, rfl⟩
    · exact Or.inr ⟨source, hfamily, Relation.EqvGen.rel _ _
        ⟨_, last, Step.last actions last, hsource, has_iff.2 ⟨family, hfamily⟩, rfl⟩⟩

/-- Holders of one number are linked. -/
theorem sameFamily_of_family? {actions : List Action} {a b : Holder} {family : Nat}
    (ha : (empty.run actions).family? a = some family)
    (hb : (empty.run actions).family? b = some family) : SameFamily actions a b := by
  -- Induction on the steps: the holders are linked as those are that they got the number from.
  induction actions using List.reverseRecOn generalizing a b with
  | nil =>
    rw [(family?_empty ha).1, (family?_empty hb).1]
    exact Relation.EqvGen.refl _
  | append_singleton actions last ih =>
    rcases exists_elder ha with ⟨hfamily, rfl⟩ | ⟨elderA, helderA, hlinkA⟩
    · rcases exists_elder hb with ⟨-, rfl⟩ | ⟨elderB, helderB, -⟩
      · exact Relation.EqvGen.refl _
      · exact absurd hfamily (family?_lt_families helderB).ne
    · rcases exists_elder hb with ⟨hfamily, rfl⟩ | ⟨elderB, helderB, hlinkB⟩
      · exact absurd hfamily (family?_lt_families helderA).ne
      · -- Both were linked to their elders by the last step, and the elders to each other before.
        have hlink := (ih helderA helderB).append_singleton last
        exact (hlinkA.symm _ _).trans _ _ _ (hlink.trans _ _ _ hlinkB)

theorem sameFamily_iff {actions : List Action} {a b : Holder} {family : Nat}
    (ha : (empty.run actions).family? a = some family) :
    SameFamily actions a b ↔ (empty.run actions).family? b = some family :=
  ⟨fun h => h.family?_eq.symm.trans ha, sameFamily_of_family? ha⟩

theorem Cancelled.append_singleton {actions : List Action} {holder : Holder}
    (h : Cancelled actions holder) (last : Action) : Cancelled (actions ++ [last]) holder := by
  obtain ⟨pool, action, hstep, hrest⟩ := h
  exact ⟨pool, action, hstep.append_singleton last, hrest⟩

theorem Cancelled.has {actions : List Action} {holder : Holder} (h : Cancelled actions holder) :
    (empty.run actions).Has holder := by
  obtain ⟨pool, action, hstep, -, hhas⟩ := h
  exact ((Later.act pool action).trans hstep.later).has hhas

theorem mem_cancelled_act_iff {pool : ContextPool} {action : Action} {family : Nat} :
    family ∈ (pool.act action).cancelled ↔ family ∈ pool.cancelled ∨
      ∃ holder, action.canceller? = some holder ∧ pool.family? holder = some family := by
  rw [act_eq, List.mem_append, Option.mem_toList, Option.bind_eq_some_iff, or_comm]

/-- The cancelled numbers are those of the holders by which a step cancelled. -/
theorem mem_cancelled_run_iff {actions : List Action} {family : Nat} :
    family ∈ (empty.run actions).cancelled ↔
      ∃ holder, Cancelled actions holder ∧ (empty.run actions).family? holder = some family := by
  constructor
  · intro h
    induction actions using List.reverseRecOn with
    | nil => cases h
    | append_singleton actions last ih =>
      have hlater := Later.act (empty.run actions) last
      rw [run_append_singleton] at h ⊢
      rcases mem_cancelled_act_iff.1 h with hold | ⟨holder, hcanceller, hfamily⟩
      · obtain ⟨holder, hcancelled, hfamily⟩ := ih hold
        exact ⟨holder, hcancelled.append_singleton last, hlater.family? hfamily⟩
      · exact ⟨holder, ⟨_, last, Step.last actions last, hcanceller, has_iff.2 ⟨family, hfamily⟩⟩,
          hlater.family? hfamily⟩
  · rintro ⟨holder, ⟨pool, action, hstep, hcanceller, hhas⟩, hfamily⟩
    -- The holder had its family when it cancelled, and has kept it since.
    obtain ⟨found, hfound⟩ := has_iff.1 hhas
    have hlater := (Later.act pool action).trans hstep.later
    obtain rfl : found = family := Option.some.inj ((hlater.family? hfound).symm.trans hfamily)
    exact hstep.later.cancelled (mem_cancelled_act_iff.2 (Or.inr ⟨holder, hcanceller, hfound⟩))

theorem Later.getElem? {earlier later : ContextPool} (h : earlier.Later later) {index : Nat}
    (hindex : index < earlier.contexts.length) :
    later.contexts[index]? = earlier.contexts[index]? := by
  obtain ⟨rest, hrest⟩ := h.contexts
  rw [← hrest, List.getElem?_append_left hindex]

theorem Step.getElem?_next {actions : List Action} {pool : ContextPool} {action : Action}
    (h : Step actions pool action) {context : CallContext}
    (hadded : pool.added? action = some context) :
    (empty.run actions).contexts[pool.contexts.length]? = some context := by
  have hnext : (pool.act action).contexts[pool.contexts.length]? = some context := by
    rw [act_eq]
    exact getElem?_append_toList.2 (Or.inr ⟨rfl, hadded⟩)
  rw [h.later.getElem? (List.getElem?_eq_some_iff.1 hnext).1, hnext]

/-- The deadline in a context is the one that was last set. -/
theorem hasDeadline_iff {actions : List Action} {index deadlineMs : Nat} :
    HasDeadline actions index deadlineMs ↔ ∃ context,
      (empty.run actions).contexts[index]? = some context ∧
        context.deadlineMs = some deadlineMs := by
  constructor
  · intro h
    induction h with
    | withDeadline hstep hindex | withTimeout hstep hindex =>
      exact ⟨_, hstep.getElem?_next
        (Option.map_eq_some_iff.2 ⟨_, List.getElem?_eq_getElem hindex, rfl⟩), rfl⟩
    | clone hstep hindex _ ih =>
      obtain ⟨context, hcontext, hdeadline⟩ := ih
      have hlater := (Later.act _ _).trans hstep.later
      rw [hlater.getElem? hindex] at hcontext
      exact ⟨context, hstep.getElem?_next hcontext, hdeadline⟩
  · rintro ⟨context, hcontext, hdeadline⟩
    induction actions using List.reverseRecOn generalizing index context with
    | nil => simp [run, empty] at hcontext
    | append_singleton actions last ih =>
      rw [run_append_singleton, act_eq] at hcontext
      rcases getElem?_append_toList.1 hcontext with hold | ⟨rfl, hadded⟩
      · exact (ih context hold hdeadline).append_singleton last
      -- The last step made the context: one case for each way in which it may have a deadline.
      have hstep := Step.last actions last
      cases last with
      | clone source =>
        exact .clone hstep (List.getElem?_eq_some_iff.1 hadded).1
          ((ih context hadded hdeadline).append_singleton _)
      | withDeadline source deadline =>
        obtain ⟨parent, hparent, rfl⟩ := Option.map_eq_some_iff.1 hadded
        cases hdeadline
        exact .withDeadline hstep (List.getElem?_eq_some_iff.1 hparent).1
      | withTimeout source duration =>
        obtain ⟨parent, hparent, rfl⟩ := Option.map_eq_some_iff.1 hadded
        cases hdeadline
        exact .withTimeout hstep (List.getElem?_eq_some_iff.1 hparent).1
      | fresh =>
        cases hadded
        cases hdeadline
      | withToken source =>
        obtain ⟨family, -, rfl⟩ := Option.map_eq_some_iff.1 hadded
        cases hdeadline
      | shareToken _ | cancel _ | cancelToken _ | advance _ => cases hadded

/-! ## 6. Which contexts are done -/

theorem isDone_iff {pool : ContextPool} {context : CallContext} : pool.isDone context ↔
    context.family ∈ pool.cancelled ∨
      ∃ deadlineMs, context.deadlineMs = some deadlineMs ∧ deadlineMs ≤ pool.nowMs := by
  cases h : context.deadlineMs <;> simp [isDone, h]

theorem getElem?_done_eq_true_iff {pool : ContextPool} {index : Nat} :
    pool.done[index]? = some true ↔
      ∃ context, pool.contexts[index]? = some context ∧ pool.isDone context := by
  simp [done]

theorem Later.done {earlier later : ContextPool} (h : earlier.Later later) {index : Nat}
    (hdone : earlier.done[index]? = some true) : later.done[index]? = some true := by
  obtain ⟨context, hcontext, hcontextDone⟩ := getElem?_done_eq_true_iff.1 hdone
  refine getElem?_done_eq_true_iff.2 ⟨context, ?_, isDone_iff.2 ?_⟩
  · rw [h.getElem? (List.getElem?_eq_some_iff.1 hcontext).1, hcontext]
  · rcases isDone_iff.1 hcontextDone with hcancelled | ⟨deadlineMs, hdeadline, hle⟩
    · exact Or.inl (h.cancelled hcancelled)
    · exact Or.inr ⟨deadlineMs, hdeadline, hle.trans h.nowMs⟩

theorem done_run_iff {actions : List Action} {index : Nat} :
    (empty.run actions).done[index]? = some true ↔
      (∃ holder, Cancelled actions holder ∧ SameFamily actions holder (.context index)) ∨
        ∃ deadlineMs, HasDeadline actions index deadlineMs ∧
          deadlineMs ≤ (empty.run actions).nowMs := by
  rw [getElem?_done_eq_true_iff]
  constructor
  · rintro ⟨context, hcontext, hdone⟩
    rcases isDone_iff.1 hdone with hcancelled | ⟨deadlineMs, hdeadline, hle⟩
    · obtain ⟨holder, hcancelled, hholder⟩ := mem_cancelled_run_iff.1 hcancelled
      exact Or.inl ⟨holder, hcancelled,
        (sameFamily_iff hholder).2 (Option.map_eq_some_iff.2 ⟨context, hcontext, rfl⟩)⟩
    · exact Or.inr ⟨deadlineMs, hasDeadline_iff.2 ⟨context, hcontext, hdeadline⟩, hle⟩
  · rintro (⟨holder, hcancelled, hsame⟩ | ⟨deadlineMs, hdeadline, hle⟩)
    · obtain ⟨family, hholder⟩ := has_iff.1 hcancelled.has
      obtain ⟨context, hcontext, rfl⟩ :=
        Option.map_eq_some_iff.1 ((sameFamily_iff hholder).1 hsame)
      exact ⟨context, hcontext,
        isDone_iff.2 (Or.inl (mem_cancelled_run_iff.2 ⟨holder, hcancelled, hholder⟩))⟩
    · obtain ⟨context, hcontext, hcontextDeadline⟩ := hasDeadline_iff.1 hdeadline
      exact ⟨context, hcontext, isDone_iff.2 (Or.inr ⟨deadlineMs, hcontextDeadline, hle⟩)⟩

/-- An action by which nobody cancels and no time passes leaves the answers as they are. -/
theorem done_act {pool : ContextPool} {action : Action} (hcanceller : action.canceller? = none)
    (hduration : action.durationMs = 0) : pool.done <+: (pool.act action).done := by
  rw [act_eq, hcanceller, hduration]
  exact ⟨_, List.map_append.symm⟩

/-! ## 7. Cancelling one family -/

/-- Pools that differ at most in whether a family is cancelled. -/
structure AlikeBut (family : Option Nat) (a b : ContextPool) : Prop where
  same : b = { a with cancelled := b.cancelled }
  cancelled : ∀ other, family ≠ some other → (other ∈ a.cancelled ↔ other ∈ b.cancelled)

theorem act_withCancelled (pool : ContextPool) (cancelled : List Nat) (action : Action) :
    { pool with cancelled }.act action =
      { pool.act action with
        cancelled := (action.canceller?.bind pool.family?).toList ++ cancelled } := by
  rw [act_eq, act_eq]
  cases action <;> rfl

namespace AlikeBut

variable {family : Option Nat} {a b : ContextPool}

theorem act (h : AlikeBut family a b) (action : Action) :
    AlikeBut family (a.act action) (b.act action) := by
  have hact : b.act action = { a.act action with
      cancelled := (action.canceller?.bind a.family?).toList ++ b.cancelled } := by
    rw [← act_withCancelled, ← h.same]
  constructor
  · rw [hact]
  · intro other hother
    rw [hact, act_eq, List.mem_append, List.mem_append, h.cancelled other hother]

theorem run (h : AlikeBut family a b) (actions : List Action) :
    AlikeBut family (a.run actions) (b.run actions) := by
  induction actions generalizing a b with
  | nil => exact h
  | cons action actions ih => exact ih (h.act action)

theorem done (h : AlikeBut family a b) {index : Nat}
    (hfamily : ∀ other, a.family? (.context index) = some other → family ≠ some other) :
    b.done[index]? = a.done[index]? := by
  have hcontexts : b.contexts = a.contexts := by rw [h.same]
  have hnow : b.nowMs = a.nowMs := by rw [h.same]
  rw [ContextPool.done, ContextPool.done, List.getElem?_map, List.getElem?_map, hcontexts]
  cases hcontext : a.contexts[index]? with
  | none => rfl
  | some context =>
    have hother := hfamily context.family (Option.map_eq_some_iff.2 ⟨context, hcontext, rfl⟩)
    refine congrArg some (Bool.eq_iff_iff.2 ?_)
    rw [isDone_iff, isDone_iff, hnow, h.cancelled context.family hother]

end AlikeBut

/-- Only the family of the holder by which an action cancels may differ. -/
theorem alikeBut_act {pool : ContextPool} {action : Action} {holder : Holder}
    (h : action.canceller? = some holder) :
    AlikeBut (pool.family? holder) pool (pool.act action) := by
  constructor
  · rw [act_eq]
    cases action <;> cases h <;> simp [added?, shared?, Action.families, Action.durationMs]
  · intro other hother
    rw [mem_cancelled_act_iff, h]
    refine ⟨Or.inl, ?_⟩
    rintro (hmem | ⟨_, ⟨⟩, hfamily⟩)
    · exact hmem
    · exact absurd hfamily hother

/-- What is done later to the one pool and to the other finds the same contexts of other families
done. -/
theorem done_run_act {actions later : List Action} {action : Action} {holder : Holder} {index : Nat}
    (h : action.canceller? = some holder)
    (hother : ¬SameFamily (actions ++ later) holder (.context index)) :
    (((empty.run actions).act action).run later).done[index]? =
      ((empty.run actions).run later).done[index]? := by
  refine ((alikeBut_act h).run later).done fun family hcontext hholder => hother ?_
  rw [← run_append] at hcontext
  refine sameFamily_of_family? ?_ hcontext
  rw [run_append]
  exact (Later.run _ later).family? hholder

/-! ## 8. The answers -/

theorem trace_eq (pool : ContextPool) (actions : List Action) :
    pool.trace actions = actions.inits.tail.map fun steps => (pool.run steps).done := by
  induction actions generalizing pool with
  | nil => rfl
  | cons action actions ih =>
    -- The shortest beginning of the steps that follow is none of them.
    have hinits : actions.inits = [] :: actions.inits.tail := by cases actions <;> simp
    rw [trace, ih, List.inits_cons, List.tail_cons, hinits]
    simp [run, Function.comp_def]

/-- The answer after each step is that of a run from the empty pool. -/
theorem trace_initial (shared : Bool) (actions : List Action) :
    (initial shared).trace actions = actions.inits.tail.map fun steps =>
      (empty.run ((if shared then .withToken 0 else .fresh) :: steps)).done :=
  trace_eq (initial shared) actions

/-- After any steps a context is done exactly if one of them cancelled by a member of its family, or
the deadline that was last set for it is reached. It then stays done. Cancelling makes no difference
to another family, now or later, and setting a deadline none to the contexts that are there, which
no step ever changes. -/
theorem done_iff_cancelled_or_due (actions : List Action) :
    let pool := empty.run actions
    (∀ index, pool.done[index]? = some true ↔
      (∃ holder, Cancelled actions holder ∧ SameFamily actions holder (.context index)) ∨
        ∃ deadlineMs, HasDeadline actions index deadlineMs ∧ deadlineMs ≤ pool.nowMs) ∧
      (∀ (index : Nat) later, pool.done[index]? = some true →
        (pool.run later).done[index]? = some true) ∧
      (∀ (index : Nat) action holder later, action.canceller? = some holder →
        ¬SameFamily (actions ++ later) holder (.context index) →
        ((pool.act action).run later).done[index]? = (pool.run later).done[index]?) ∧
      (∀ index ms, pool.done <+: (pool.act (.withDeadline index ms)).done ∧
        pool.done <+: (pool.act (.withTimeout index ms)).done) ∧
      ∀ later, pool.contexts <+: (pool.run later).contexts := by
  intro pool
  refine ⟨fun index => done_run_iff, fun index later => (Later.run pool later).done, ?_, ?_,
    fun later => (Later.run pool later).contexts⟩
  · intro index action holder later hcanceller hother
    exact done_run_act hcanceller hother
  · intro index ms
    exact ⟨done_act rfl rfl, done_act rfl rfl⟩

/-- Two contexts share the token that is there at first, one by way of the other, and one is of a
family of its own. -/
theorem done_iff_cancelled_or_due_shared :
    let actions : List Action := [.withToken 0, .fresh, .withTimeout 0 100, .shareToken 2]
    let cancelled := actions ++ [.cancelToken 1]
    let later : List Action := [.clone 1, .advance 100]
    ((empty.run cancelled).done[0]? = some true ∧
        ((empty.run cancelled).run later).done[0]? = some true) ∧
      ¬SameFamily (actions ++ later) (.token 1) (.context 3) ∧
        (((empty.run actions).act (.cancelToken 1)).run later).done[3]? =
          ((empty.run actions).run later).done[3]? := by
  intro actions cancelled later
  have hdone : (empty.run cancelled).done[0]? = some true := by decide
  have hother : ¬SameFamily (actions ++ later) (.token 1) (.context 3) := fun h =>
    absurd h.family?_eq (by decide)
  obtain ⟨-, hstays, -⟩ := done_iff_cancelled_or_due cancelled
  obtain ⟨-, -, hapart, -⟩ := done_iff_cancelled_or_due actions
  exact ⟨⟨hdone, hstays 0 later hdone⟩, hother,
    hapart 3 (.cancelToken 1) (.token 1) later rfl hother⟩

end ContextPool

end RevisionLedger
