import RevisionLedger.Binary64
import RevisionLedger.Json.Reader

/-!
# Numbers in JSON

A number without fraction and exponent is an integer if sixty-four bits hold it; a negative zero is
none. Every other number is read as the double nearest to it, and is refused if that is infinite.
-/

namespace RevisionLedger.Json

inductive Number
  | natural (value : Nat)
  | negative (value : Int)
  | real (value : Binary64)
deriving DecidableEq, Repr

namespace Number

/-- The number that digits spell. -/
def ofDigits (digits : List UInt8) : Nat := digits.foldl (fun n b => n * 10 + digitValue b) 0

/-- Takes digits, of which there must be one. -/
def takeDigits (input : List UInt8) : Except Fault (List UInt8 × List UInt8) :=
  match input with
  | [] => .error .truncated
  | b :: _ =>
    if isDigit b then .ok (input.takeWhile isDigit, input.dropWhile isDigit)
    else .error .malformed

/-- Takes the digits before a point: a zero alone, or digits that do not start with one. -/
def takeWhole (input : List UInt8) : Except Fault (List UInt8 × List UInt8) := do
  let (digits, rest) ← takeDigits input
  if digits.head? = some (byte '0') ∧ digits.length ≠ 1 then .error .malformed
  else .ok (digits, rest)

/-- Takes a point and the digits after it, if there is a point. -/
def takeFraction : List UInt8 → Except Fault (Option (List UInt8) × List UInt8)
  | [] => .ok (none, [])
  | b :: rest =>
    if b = byte '.' then do
      let (digits, rest) ← takeDigits rest
      .ok (some digits, rest)
    else .ok (none, b :: rest)

/-- Takes the sign and the digits of an exponent. -/
def takeSignedDigits : List UInt8 → Except Fault (Int × List UInt8)
  | [] => .error .truncated
  | b :: rest => do
    if b = byte '-' then
      let (digits, rest) ← takeDigits rest
      .ok (-(ofDigits digits : Int), rest)
    else if b = byte '+' then
      let (digits, rest) ← takeDigits rest
      .ok (ofDigits digits, rest)
    else
      let (digits, rest) ← takeDigits (b :: rest)
      .ok (ofDigits digits, rest)

def takeExponent : List UInt8 → Except Fault (Option Int × List UInt8)
  | [] => .ok (none, [])
  | b :: rest =>
    if b = byte 'e' ∨ b = byte 'E' then do
      let (exponent, rest) ← takeSignedDigits rest
      .ok (some exponent, rest)
    else .ok (none, b :: rest)

/-- The number of a sign, the digits before and after a point, and an exponent. -/
def ofParts (negative : Bool) (whole : List UInt8) (fraction : Option (List UInt8))
    (exponent : Option Int) : Except Fault Number :=
  let significand := ofDigits whole
  match fraction, exponent with
  | none, none =>
    if !negative ∧ significand < UInt64.size then .ok (natural significand)
    else if negative ∧ significand ≠ 0 ∧ Int64.minValue.toInt ≤ -(significand : Int) then
      .ok (Number.negative (-(significand : Int)))
    else asReal negative significand 0
  | fraction, exponent =>
    let fraction := fraction.getD []
    asReal negative (ofDigits (whole ++ fraction)) (exponent.getD 0 - fraction.length)
where
  /-- The nearest double, if it is finite. -/
  asReal (negative : Bool) (significand : Nat) (exponent : Int) : Except Fault Number :=
    let magnitude := Binary64.ofDecimal significand exponent
    if magnitude.isInfinite then .error .malformed
    else .ok (real (magnitude.signed negative))

/-- Takes a number without its sign. -/
def takeUnsigned (negative : Bool) (input : List UInt8) : Except Fault (Number × List UInt8) := do
  let (whole, rest) ← takeWhole input
  let (fraction, rest) ← takeFraction rest
  let (exponent, rest) ← takeExponent rest
  .ok (← ofParts negative whole fraction exponent, rest)

end Number

/-- Takes a number, of which the first byte is known to be a digit or a minus sign. -/
def Reader.number : Reader Number := ofInput fun
  | [] => .error .truncated
  | b :: rest =>
    if b = byte '-' then Number.takeUnsigned true rest else Number.takeUnsigned false (b :: rest)

end RevisionLedger.Json
