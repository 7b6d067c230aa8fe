/-!
# Call contexts

A context carries a cancellation that it shares with its family, and a deadline of its own. A clone
of a context, and a context that is derived from it with another deadline, are of its family, and so
is every token that a context hands out, with the contexts that are made of the token. Cancelling
any member cancels them all, and nothing undoes it.
-/

namespace RevisionLedger

/-- A context: its family and its deadline, in milliseconds. -/
structure CallContext where
  family : Nat
  deadlineMs : Option Nat
deriving DecidableEq, Repr

/-- The contexts made so far and the tokens that are held apart from them, in the order of their
making. -/
structure ContextPool where
  contexts : List CallContext
  /-- The families of the tokens. -/
  tokens : List Nat
  /-- The families that are cancelled. -/
  cancelled : List Nat
  /-- The number of families made so far; the next one gets it as its name. -/
  families : Nat
  nowMs : Nat
deriving Repr

namespace ContextPool

/-- What is done to contexts and tokens. Each is named by its index among its kind. -/
inductive Action
  | clone (index : Nat)
  | withDeadline (index : Nat) (deadlineMs : Nat)
  /-- Derives a context whose deadline is so many milliseconds away. Times have no greatest one
  here; where a clock has one, a deadline beyond it stops the caller before there is a context. -/
  | withTimeout (index : Nat) (durationMs : Nat)
  /-- Makes a context of a new family. -/
  | fresh
  /-- Makes a context of the family of a token. -/
  | withToken (index : Nat)
  /-- Has a context hand out its token. -/
  | shareToken (index : Nat)
  | cancel (index : Nat)
  | cancelToken (index : Nat)
  | advance (durationMs : Nat)
deriving Repr

/-- Cancels by the token that is there at first. -/
def Action.cancelHeld : Action := .cancelToken 0

/-- No context, and a token that contexts can be made of. -/
def empty : ContextPool := ⟨[], [0], [], 1, 0⟩

/-- Whether a context is cancelled or past its deadline. -/
def isDone (pool : ContextPool) (context : CallContext) : Bool :=
  pool.cancelled.contains context.family || context.deadlineMs.any (· ≤ pool.nowMs)

def add (pool : ContextPool) (context : CallContext) : ContextPool :=
  { pool with contexts := pool.contexts ++ [context] }

/-- Adds a context of the family of another, with a deadline of its own. -/
def derive (pool : ContextPool) (index deadlineMs : Nat) : ContextPool :=
  (pool.contexts[index]?).elim pool fun context =>
    pool.add { context with deadlineMs := some deadlineMs }

def cancelFamily (pool : ContextPool) (family : Nat) : ContextPool :=
  { pool with cancelled := family :: pool.cancelled }

/-- The pool after an action. An index that names nothing changes nothing. -/
def act (pool : ContextPool) : Action → ContextPool
  | .clone index => (pool.contexts[index]?).elim pool pool.add
  | .withDeadline index deadlineMs => pool.derive index deadlineMs
  | .withTimeout index durationMs => pool.derive index (pool.nowMs + durationMs)
  | .fresh => { pool.add ⟨pool.families, none⟩ with families := pool.families + 1 }
  | .withToken index => (pool.tokens[index]?).elim pool fun family => pool.add ⟨family, none⟩
  | .shareToken index =>
    (pool.contexts[index]?).elim pool fun context =>
      { pool with tokens := pool.tokens ++ [context.family] }
  | .cancel index =>
    (pool.contexts[index]?).elim pool fun context => pool.cancelFamily context.family
  | .cancelToken index => (pool.tokens[index]?).elim pool pool.cancelFamily
  | .advance durationMs => { pool with nowMs := pool.nowMs + durationMs }

/-- One context without a deadline, made of the token or of a family of its own. -/
def initial (shared : Bool) : ContextPool := empty.act (if shared then .withToken 0 else .fresh)

def done (pool : ContextPool) : List Bool := pool.contexts.map pool.isDone

/-- The pool after a list of actions. -/
def run (pool : ContextPool) (actions : List Action) : ContextPool := actions.foldl act pool

/-- Which contexts are done after each of a list of actions. -/
def trace (pool : ContextPool) : List Action → List (List Bool)
  | [] => []
  | action :: actions =>
    let pool := pool.act action
    pool.done :: pool.trace actions

end ContextPool

end RevisionLedger
