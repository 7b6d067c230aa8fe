import RevisionLedger.Decimal.Shortest

/-!
# Number texts

A `Layout` says how a text format writes a double: which powers of ten are written out in full,
what marks an exponent, what is written for zero, for a whole number and for what is no number.
`Layout.write` writes the shortest decimal of the double in that layout.
-/

namespace RevisionLedger.Decimal

/-- The choices of a number format. -/
structure Layout where
  /-- Which of two equally near shortest decimals is written. -/
  tie : Tie
  /-- Whether a number whose first digit stands at this power of ten is written without exponent. -/
  positional : Int → Bool
  /-- What follows a whole number written without exponent. -/
  wholeSuffix : String
  /-- Whether an exponent that is not negative bears a sign. -/
  exponentPlus : Bool
  /-- Whether a negative zero shows its sign. -/
  zeroSign : Bool
  nan : String
  infinity : String
  negativeInfinity : String

/-- The decimal digits of a number, the first one first. -/
def digitsOf (n : Nat) : List Char := Nat.toDigits 10 n

/-- Digits written out in full, the first one standing at the given power of ten. -/
def positionalText (digits : List Char) (power : Int) (wholeSuffix : String) : String :=
  if power < 0 then
    "0." ++ String.ofList (List.replicate ((-power).toNat - 1) '0' ++ digits)
  else
    let whole := power.toNat + 1
    if digits.length ≤ whole then
      String.ofList (digits ++ List.replicate (whole - digits.length) '0') ++ wholeSuffix
    else
      String.ofList (digits.take whole ++ '.' :: digits.drop whole)

/-- Digits with a point after the first one and the power of ten of the first one. -/
def exponentText (digits : List Char) (power : Int) (exponentPlus : Bool) : String :=
  let mantissa := digits.take 1 ++ if digits.length ≤ 1 then [] else '.' :: digits.drop 1
  let sign := if power < 0 then "-" else if exponentPlus then "+" else ""
  String.ofList mantissa ++ "e" ++ sign ++ String.ofList (digitsOf power.natAbs)

/-- The text of a double's magnitude; the double is finite. -/
def Layout.writeMagnitude (layout : Layout) (x : Binary64) : String :=
  let decimal := shortest x layout.tie
  let digits := digitsOf decimal.significand
  let power := decimal.exponent + digits.length - 1
  if layout.positional power then positionalText digits power layout.wholeSuffix
  else exponentText digits power layout.exponentPlus

def Layout.write (layout : Layout) (x : Binary64) : String :=
  if x.isNaN then layout.nan
  else if x.isInfinite then if x.negative then layout.negativeInfinity else layout.infinity
  else
    let signed := x.negative && (layout.zeroSign || !x.isZero)
    (if signed then "-" else "") ++ layout.writeMagnitude x

/-- Numbers in messages: always written out in full. -/
def plain : Layout where
  tie := .up
  positional _ := true
  wholeSuffix := ""
  exponentPlus := false
  zeroSign := true
  nan := "NaN"
  infinity := "inf"
  negativeInfinity := "-inf"

end RevisionLedger.Decimal
