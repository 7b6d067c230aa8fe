/-!
# The budget of one call

A caller may cancel a call, have another task cancel it at a later time, or set it a deadline. A
call looks at its budget before it starts anything, and is interrupted while it waits.
-/

namespace RevisionLedger

/-- What limits one call. Times are in milliseconds. -/
structure Budget where
  /-- Whether the call is cancelled. -/
  cancelled : Bool := false
  /-- When another task cancels the call. -/
  cancelAtMs : Option Nat := none
  deadlineMs : Option Nat := none
deriving DecidableEq, Repr

namespace Budget

/-- Whether nothing may be started any more. A cancellation by another task shows only once that
task has run, which is while the call waits. -/
def isDone (budget : Budget) (nowMs : Nat) : Bool :=
  budget.cancelled || budget.deadlineMs.any (· ≤ nowMs)

/-- When a wait that would end at `wakeMs` is cut short. A deadline at the very end of the wait cuts
it short, a cancellation at the very end does not, unless it is due as the wait begins. -/
def interruption? (budget : Budget) (nowMs wakeMs : Nat) : Option Nat :=
  if budget.cancelled || budget.cancelAtMs.any (· ≤ nowMs) then some nowMs
  else
    match budget.deadlineMs.filter (· ≤ wakeMs), budget.cancelAtMs.filter (· < wakeMs) with
    | some deadline, some cancel => some (max nowMs (min deadline cancel))
    | some time, none | none, some time => some (max nowMs time)
    | none, none => none

end Budget

end RevisionLedger
