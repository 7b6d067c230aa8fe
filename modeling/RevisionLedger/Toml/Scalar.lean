import RevisionLedger.Decimal.Read
import RevisionLedger.Text.Hex
import RevisionLedger.Toml.Value

/-!
# TOML values without quotes

Truth values, numbers and points in time. Underscores may stand one by one between the digits of a
number, and no decimal number but zero starts with a zero. A number in another base has a mark in
front and no sign.
-/

namespace RevisionLedger.Toml

/-! ## 1. Numbers -/

/-- The digits of a text, in which a single underscore may stand between two of them. -/
def grouped? (isDigit : Char → Bool) : List Char → Option (List Char)
  | [] => none
  | [c] => if isDigit c then some [c] else none
  | c :: '_' :: rest => if isDigit c then (grouped? isDigit rest).map (c :: ·) else none
  | c :: rest => if isDigit c then (grouped? isDigit rest).map (c :: ·) else none

/-- The digits of the whole part of a decimal number. -/
def wholeDigits? (text : List Char) : Option (List Char) := do
  let digits ← grouped? Char.isDigit text
  if digits.head? = some '0' ∧ digits.length ≠ 1 then none else some digits

/-- The number that digits spell in a base. -/
def ofDigits (base : Nat) (digits : List Char) : Nat :=
  digits.foldl (fun n c => n * base + (Text.hexValue? c).getD 0) 0

/-- A whole number in a base that its mark names. -/
def marked? (base : Nat) (text : List Char) : Option Value := do
  let digits ← grouped? (fun c => (Text.hexValue? c).any (· < base)) text
  return .integer (ofDigits base digits)

/-- Splits a text before the first character of which a condition holds. -/
def splitBefore (stop : Char → Bool) (text : List Char) : List Char × List Char :=
  (text.takeWhile (!stop ·), text.dropWhile (!stop ·))

/-- The digits after the point, if there is one. -/
def fraction? : List Char → Option (List Char)
  | [] => some []
  | _ :: text => grouped? Char.isDigit text

/-- The power of ten, if there is one. -/
def power? : List Char → Option Int
  | [] => some 0
  | _ :: text => do
    let (negative, text) := Decimal.takeSign text
    let digits ← grouped? Char.isDigit text
    let power := Decimal.ofDigits digits
    return if negative then -(power : Int) else power

/-- A decimal number after its sign: a whole number, or one with a point, a power or both. -/
def decimal? (negative : Bool) (text : List Char) : Option Value := do
  let (mantissa, power) := splitBefore (fun c => c == 'e' || c == 'E') text
  let (whole, fraction) := splitBefore (· == '.') mantissa
  let digits ← wholeDigits? whole
  if fraction = [] ∧ power = [] then
    let n := Decimal.ofDigits digits
    return .integer (if negative then -(n : Int) else n)
  else
    let x := Decimal.toBinary64 digits (← fraction? fraction) (← power? power)
    return .real (if x.isInfinite then none else some (x.signed negative))

/-- A number after its sign. -/
def number? (negative : Bool) (text : List Char) : Option Value :=
  if text = ['i', 'n', 'f'] then some (.real (some (Binary64.infinity.signed negative)))
  else if text = ['n', 'a', 'n'] then some (.real (some (Binary64.nan.signed negative)))
  else decimal? negative text

/-! ## 2. Points in time -/

/-- Takes two digits that spell at most a given number. -/
def takeTwo (greatest : Nat) : List Char → Option (Nat × List Char)
  | a :: b :: rest =>
    let n := Decimal.ofDigits [a, b]
    if a.isDigit ∧ b.isDigit ∧ n ≤ greatest then some (n, rest) else none
  | _ => none

def takeChar (c : Char) : List Char → Option (List Char)
  | first :: rest => if first = c then some rest else none
  | [] => none

def daysIn (year month : Nat) : Nat :=
  if month = 2 then
    if year % 4 = 0 ∧ (year % 100 ≠ 0 ∨ year % 400 = 0) then 29 else 28
  else if month = 4 ∨ month = 6 ∨ month = 9 ∨ month = 11 then 30
  else 31

/-- Takes a day of the calendar. -/
def takeDate (text : List Char) : Option (List Char) := do
  let (century, rest) ← takeTwo 99 text
  let (year, rest) ← takeTwo 99 rest
  let rest ← takeChar '-' rest
  let (month, rest) ← takeTwo 12 rest
  let rest ← takeChar '-' rest
  let (day, rest) ← takeTwo (daysIn (century * 100 + year) month) rest
  if month = 0 ∨ day = 0 then none else some rest

/-- Takes the seconds of a time of day, and a fraction of one. -/
def takeSeconds (text : List Char) : Option (List Char) := do
  match ← takeTwo 60 text with
  | (_, '.' :: rest) =>
    let digits := rest.takeWhile Char.isDigit
    if digits = [] then none else some (rest.drop digits.length)
  | (_, rest) => some rest

/-- Takes a time of day; seconds may be left out. -/
def takeTime (text : List Char) : Option (List Char) := do
  let (_, rest) ← takeTwo 23 text
  let rest ← takeChar ':' rest
  match ← takeTwo 59 rest with
  | (_, ':' :: rest) => takeSeconds rest
  | (_, rest) => some rest

/-- Whether a text is the distance of a time from universal time, or empty. -/
def isOffset : List Char → Bool
  | [] => true
  | ['z'] | ['Z'] => true
  | sign :: rest =>
    let rest := do takeTwo 59 (← takeChar ':' (← takeTwo 23 rest).2)
    (sign == '+' || sign == '-') && rest.any (·.2.isEmpty)

/-- Whether a text is a date, a time of day, or both. -/
def isMoment (text : List Char) : Bool :=
  match takeDate text with
  | none => (takeTime text).any List.isEmpty
  | some [] => true
  | some (delimiter :: rest) =>
    (delimiter == 'T' || delimiter == 't' || delimiter == ' ') && (takeTime rest).any isOffset

/-! ## 3. All of them -/

/-- The value of a text without quotes. -/
def scalar? (text : List Char) : Option Value :=
  match text with
  | ['t', 'r', 'u', 'e'] => some (.boolean true)
  | ['f', 'a', 'l', 's', 'e'] => some (.boolean false)
  | '0' :: 'x' :: rest => marked? 16 rest
  | '0' :: 'o' :: rest => marked? 8 rest
  | '0' :: 'b' :: rest => marked? 2 rest
  | '+' :: rest => number? false rest
  | '-' :: rest => number? true rest
  | _ => number? false text <|> if isMoment text then some .moment else none

end RevisionLedger.Toml
