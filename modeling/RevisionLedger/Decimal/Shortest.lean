import RevisionLedger.Binary64

/-!
# The shortest decimal of a double

Every real number of a small interval around a finite double rounds to that double. `shortest`
looks for the coarsest decimal grid with a point in the interval, and takes the point nearest to
the double. Only the two neighbours of the double on each grid need a look: if any point of a grid
lies in the interval, one of them does.

All arithmetic is on natural numbers, in a common unit of the double and the grid.
-/

namespace RevisionLedger

/-- The decimal number `significand * 10 ^ exponent`. -/
structure Decimal where
  significand : Nat
  exponent : Int
deriving DecidableEq, Repr

namespace Decimal

/-- Which of two equally near decimals is taken. -/
inductive Tie
  /-- The one with an even last digit. -/
  | toEven
  /-- The greater one. -/
  | up
deriving DecidableEq, Repr

/-- A positive double between its rounding bounds, all three in one unit, beside the step of a
decimal grid in that unit. -/
structure Interval where
  low : Nat
  value : Nat
  high : Nat
  /-- Whether the bounds themselves round to the double. -/
  closed : Bool
  step : Nat
deriving Repr

/-- Whether a number in the interval's unit rounds to the double. -/
def Interval.holds (interval : Interval) (x : Nat) : Bool :=
  if interval.closed then interval.low ≤ x && x ≤ interval.high
  else interval.low < x && x < interval.high

/-- The interval of `|x|` against the grid of the multiples of `10 ^ exponent`.

The double is `4m` quarter steps of its binary exponent. Its neighbours are four quarters away,
except that the lower one is two quarters away where the exponent changes. -/
def intervalAt (x : Binary64) (exponent : Int) : Interval :=
  let m := x.significand
  let q := x.binaryExponent - 2
  let binary := Nat.pow 2 q.toNat * Nat.pow 10 (-exponent).toNat
  let decimal := Nat.pow 10 exponent.toNat * Nat.pow 2 (-q).toNat
  let below := if m = Binary64.leadingBit ∧ -1076 < q then 1 else 2
  { low := (4 * m - below) * binary
    value := 4 * m * binary
    high := (4 * m + 2) * binary
    closed := m % 2 == 0
    step := decimal }

/-- The grid point that stands for the double, as a multiple of the step, if the grid has one. -/
def Interval.pick? (interval : Interval) (tie : Tie) : Option Nat :=
  let floor := interval.value / interval.step
  let below := interval.holds (floor * interval.step)
  let above := interval.holds ((floor + 1) * interval.step)
  if below && above then
    let toFloor := interval.value - floor * interval.step
    let toCeiling := (floor + 1) * interval.step - interval.value
    if toFloor < toCeiling then some floor
    else if toCeiling < toFloor then some (floor + 1)
    else if tie = .toEven ∧ floor % 2 = 0 then some floor
    else some (floor + 1)
  else if below then some floor
  else if above then some (floor + 1)
  else none

/-- The greatest `k` with `10 ^ k ≤ |x|`, for a finite `x` other than zero.

The binary logarithm gives `k` to within one. -/
def leadingPower (x : Binary64) : Int :=
  let e := (x.significand.log2 : Int) + x.binaryExponent
  let guess := e * 30103 / 100000
  let reached (k : Int) : Bool := let grid := intervalAt x k; grid.step ≤ grid.value
  if reached (guess + 1) then guess + 1 else if reached guess then guess else guess - 1

/-- Searches the grids from the one of the leading power downward, at most `grids` of them; if none
has a point in the interval, the last one gives its nearest point below. -/
def search (x : Binary64) (tie : Tie) : Nat → Int → Decimal
  | 0, exponent =>
    let interval := intervalAt x exponent
    ⟨interval.value / interval.step, exponent⟩
  | grids + 1, exponent =>
    match (intervalAt x exponent).pick? tie with
    | some multiple => ⟨multiple, exponent⟩
    | none => search x tie grids (exponent - 1)

/-- Moves the zeros at the end of a significand into the exponent. -/
def trim : Nat → Decimal → Decimal
  | 0, d => d
  | fuel + 1, d =>
    if d.significand ≠ 0 ∧ d.significand % 10 = 0 then
      trim fuel ⟨d.significand / 10, d.exponent + 1⟩
    else d

/-- The shortest decimal that rounds to `|x|`, nearest to it among those of its length. Seventeen
digits tell any two doubles apart, so seventeen grids suffice. -/
def shortest (x : Binary64) (tie : Tie) : Decimal :=
  if x.isZero then ⟨0, 0⟩ else trim 20 (search x tie 17 (leadingPower x))

end Decimal

end RevisionLedger
