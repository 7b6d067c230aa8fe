import RevisionLedger.Entropy

/-!
# Retry policy

How often a call tries a conditional update, and how long it pauses after a lost race. Pauses are
drawn evenly from zero to a threshold; a policy with a seed draws the same pauses for every call.
-/

namespace RevisionLedger

/-- How a call deals with lost races. -/
structure RetryPolicy where
  /-- The greatest number of update attempts of one call. -/
  maxAttempts : UInt32 := 5
  /-- The longest pause between two attempts, in milliseconds. -/
  thresholdMs : UInt64 := 60000
  /-- The seed of the pauses, if they are to be the same for every call. -/
  seed : Option UInt64 := none
deriving DecidableEq, Repr

namespace RetryPolicy

/-- The number of rounds of a call, of which there is at least one. -/
def rounds (policy : RetryPolicy) : Nat := max 1 policy.maxAttempts.toNat

/-- The pause, in milliseconds, that a random word stands for. -/
def delayMs (policy : RetryPolicy) (draw : UInt64) : Nat :=
  draw.toNat % (policy.thresholdMs.toNat + 1)

theorem delayMs_le (policy : RetryPolicy) (draw : UInt64) :
    policy.delayMs draw ≤ policy.thresholdMs.toNat :=
  Nat.le_of_lt_succ (Nat.mod_lt _ (Nat.succ_pos _))

/-- The random word behind a pause of one call; `entropy` seeds a policy without a seed. -/
def draw (policy : RetryPolicy) (entropy : UInt64) (index : Nat) : UInt64 :=
  Entropy.word (policy.seed.getD entropy) index

/-- The first pauses of one call. -/
def delays (policy : RetryPolicy) (entropy : UInt64) (count : Nat) : List Nat :=
  (List.range count).map fun index => policy.delayMs (policy.draw entropy index)

end RetryPolicy

end RevisionLedger
