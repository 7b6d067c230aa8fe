import RevisionLedger.Binary64

/-!
# Reading a decimal

The text of a double is an optional sign before digits with at most one point among them and an
optional power of ten, or before a name for infinity or for no number, in letters of either case.
The double nearest to the written number is read, a tie being given to the even one.
-/

namespace RevisionLedger.Decimal

/-- The number that digits spell. -/
def ofDigits (digits : List Char) : Nat :=
  digits.foldl (fun n c => n * 10 + (c.toNat - '0'.toNat)) 0

/-- The double nearest to the number spelt by the digits before and after a point and a power. -/
def toBinary64 (whole fraction : List Char) (power : Int) : Binary64 :=
  .ofDecimal (ofDigits (whole ++ fraction)) (power - fraction.length)

def takeSign : List Char → Bool × List Char
  | '-' :: rest => (true, rest)
  | '+' :: rest => (false, rest)
  | rest => (false, rest)

/-- The power of ten that a text gives: none at its end, or a mark and signed digits. -/
def power? : List Char → Option Int
  | [] => some 0
  | mark :: rest =>
    let (negative, digits) := takeSign rest
    if (mark = 'e' ∨ mark = 'E') ∧ digits ≠ [] ∧ digits.all Char.isDigit then
      some (if negative then -(ofDigits digits : Int) else ofDigits digits)
    else none

/-- The number that an unsigned text spells in digits. -/
def digits? (text : List Char) : Option Binary64 :=
  let whole := text.takeWhile Char.isDigit
  let rest := text.dropWhile Char.isDigit
  let (fraction, rest) := match rest with
    | '.' :: rest => (rest.takeWhile Char.isDigit, rest.dropWhile Char.isDigit)
    | rest => ([], rest)
  if whole = [] ∧ fraction = [] then none
  else (power? rest).map (toBinary64 whole fraction)

def read? (text : String) : Option Binary64 :=
  let (negative, rest) := takeSign text.toList
  let name := String.ofList (rest.map Char.toLower)
  let magnitude :=
    if name = "inf" ∨ name = "infinity" then some Binary64.infinity
    else if name = "nan" then some Binary64.nan
    else digits? rest
  magnitude.map (Binary64.signed negative)

end RevisionLedger.Decimal
