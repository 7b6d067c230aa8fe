/-!
# Double-precision numbers as bit patterns

A `Binary64` is its 64 bits, so equality tells the two zeros and the NaNs apart. The numeric
comparison `lt`, under which the zeros are equal and a NaN is neither above nor below anything, and
the total order by `orderKey`, which places every bit pattern, are both read off the bits.

`ofRatio` rounds a quotient of natural numbers to the nearest double, a tie to the even one; every
conversion from a whole or decimal number goes through it.
-/

namespace RevisionLedger

/-- A double-precision number, given by its bits: sign, eleven of exponent, fifty-two of
fraction. -/
structure Binary64 where
  bits : UInt64
deriving DecidableEq, Inhabited, Repr

namespace Binary64

/-! ## 1. Fields -/

/-- Whether the sign bit is set. -/
def negative (x : Binary64) : Bool := x.bits >>> 63 == 1

/-- The bits without the sign: they ascend with the magnitude. -/
def magnitudeBits (x : Binary64) : UInt64 := x.bits &&& 0x7fffffffffffffff

/-- The magnitude bits of infinity; all greater ones are NaNs. -/
def infinityBits : UInt64 := 0x7ff0000000000000

def isNaN (x : Binary64) : Bool := infinityBits < x.magnitudeBits

def isInfinite (x : Binary64) : Bool := x.magnitudeBits == infinityBits

def isFinite (x : Binary64) : Bool := x.magnitudeBits < infinityBits

def isZero (x : Binary64) : Bool := x.magnitudeBits == 0

def neg (x : Binary64) : Binary64 := ⟨x.bits ^^^ 0x8000000000000000⟩

/-- Gives a magnitude a sign. -/
def signed (negative : Bool) (x : Binary64) : Binary64 := if negative then x.neg else x

def zero : Binary64 := ⟨0⟩

def one : Binary64 := ⟨0x3ff0000000000000⟩

def infinity : Binary64 := ⟨infinityBits⟩

/-- The quiet NaN without a sign. -/
def nan : Binary64 := ⟨0x7ff8000000000000⟩

/-- What an operation without a defined value yields: the quiet NaN with its sign set. -/
def invalid : Binary64 := nan.neg

/-- The place of the leading bit of a significand, which is `2 ^ 52`. The bit is not stored: a
double whose exponent field is not zero has it. -/
def leadingBit : Nat := 0x10000000000000

/-- The significand `m` of a finite magnitude `m * 2 ^ q`. -/
def significand (x : Binary64) : Nat :=
  let magnitude := x.magnitudeBits.toNat
  if magnitude < leadingBit then magnitude else magnitude % leadingBit + leadingBit

/-- The binary exponent `q` of a finite magnitude `m * 2 ^ q`. -/
def binaryExponent (x : Binary64) : Int :=
  let exponent : Nat := x.magnitudeBits.toNat / leadingBit
  if exponent = 0 then -1074 else (exponent : Int) - 1075

/-! ## 2. Order -/

/-- The place of a bit pattern in the total order: negative numbers come first and descend with
their magnitude, positive ones follow and ascend, NaNs stand at the two ends. -/
def orderKey (x : Binary64) : UInt64 :=
  if x.negative then ~~~x.bits else x.bits ^^^ 0x8000000000000000

/-- The magnitude with its sign, as a whole number that ascends with the value. -/
def signedMagnitude (x : Binary64) : Int :=
  if x.negative then -(x.magnitudeBits.toNat : Int) else x.magnitudeBits.toNat

/-- Numeric order: no NaN takes part, and the zeros are equal. -/
def lt (x y : Binary64) : Bool :=
  !x.isNaN && !y.isNaN && x.signedMagnitude < y.signedMagnitude

/-- Numeric equality: a NaN equals nothing, and the zeros are equal. -/
def numericEq (x y : Binary64) : Bool :=
  !x.isNaN && !y.isNaN && x.signedMagnitude == y.signedMagnitude

/-! ## 3. Rounding -/

/-- The quotient rounded to the nearest natural number, a tie to the even one. -/
def roundQuotient (num den : Nat) : Nat :=
  let quotient := num / den
  let twice := 2 * (num % den)
  if twice > den ∨ (twice = den ∧ quotient % 2 = 1) then quotient + 1 else quotient

/-- The greatest `e` with `2 ^ e ≤ num / den`, for positive `num` and `den`. -/
def quotientLog2 (num den : Nat) : Int :=
  let e : Int := (num.log2 : Int) - den.log2
  let reached := if 0 ≤ e then den <<< e.toNat ≤ num else den ≤ num <<< (-e).toNat
  if reached then e else e - 1

/-- The double nearest to `num / den`, a tie to the even one; infinity past the greatest.

The significand has 53 bits, fewer at the least exponent. Adding it to the exponent field carries
by itself when rounding reaches the next power of two. -/
def ofRatio (num den : Nat) : Binary64 :=
  if num = 0 ∨ den = 0 then zero
  else
    let q := max (quotientLog2 num den - 52) (-1074)
    if q > 971 then infinity
    else
      let significand :=
        if 0 ≤ q then roundQuotient num (den <<< q.toNat)
        else roundQuotient (num <<< (-q).toNat) den
      let bits := (q + 1074).toNat * leadingBit + significand
      if infinityBits.toNat ≤ bits then infinity else ⟨UInt64.ofNat bits⟩

def ofNat (n : Nat) : Binary64 := ofRatio n 1

def ofInt (n : Int) : Binary64 := signed (n < 0) (ofNat n.natAbs)

/-- The double nearest to `significand * 10 ^ exponent`.

Past four hundred places on either side the answer is infinity or zero whatever the digits are. -/
def ofDecimal (significand : Nat) (exponent : Int) : Binary64 :=
  if significand = 0 then zero
  else if 400 < exponent then infinity
  else if exponent < -400 - (significand.log2 : Int) then zero
  else if 0 ≤ exponent then ofRatio (significand * Nat.pow 10 exponent.toNat) 1
  else ofRatio significand (Nat.pow 10 (-exponent).toNat)

/-! ## 4. Arithmetic -/

def toFloat (x : Binary64) : Float := Float.ofBits x.bits

/-- A result of an operation on numbers; one that is no number is `invalid`. -/
def ofResult (result : Float) : Binary64 :=
  if result.isNaN then invalid else ⟨result.toBits⟩

/-- Applies an operation to two numbers; a NaN passes through, the left one first. -/
def combine (operation : Float → Float → Float) (x y : Binary64) : Binary64 :=
  if x.isNaN then x
  else if y.isNaN then y
  else ofResult (operation x.toFloat y.toFloat)

def add (x y : Binary64) : Binary64 := combine (· + ·) x y

def sub (x y : Binary64) : Binary64 := combine (· - ·) x y

def mul (x y : Binary64) : Binary64 := combine (· * ·) x y

def div (x y : Binary64) : Binary64 := combine (· / ·) x y

def sqrt (x : Binary64) : Binary64 := if x.isNaN then x else ofResult x.toFloat.sqrt

/-- The sum from left to right; of no numbers it is negative zero, the neutral element. -/
def sum (xs : List Binary64) : Binary64 := xs.foldl add zero.neg

/-! ## 5. Spot values -/

example : ofNat 1 = one := by decide
example : ofRatio 1 3 = ⟨0x3fd5555555555555⟩ := by decide
example : ofNat (2 * leadingBit + 1) = ofNat (2 * leadingBit) := by decide
example : ofRatio 1 (1 <<< 1074) = ⟨1⟩ := by decide +kernel
example : ofNat (1 <<< 1024) = infinity := by decide +kernel

end Binary64

end RevisionLedger
