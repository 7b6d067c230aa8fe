import RevisionLedger.Decimal.Layout
import RevisionLedger.Decimal.Read
import RevisionLedger.Text.Utf8

/-!
# Table cells

A cell of a table holds an integer, a number, a text or a sequence of bytes, whatever the declared
type of its column is. The declared type only converts what is written: a text column makes texts
of numbers, an integer column makes numbers of texts that spell them.
-/

namespace RevisionLedger

local instance (priority := high) decEqBytes : DecidableEq ByteArray := ByteArray.instDecidableEq

/-- A value in a column that admits no null. -/
inductive Cell
  | integer (value : Int64)
  | real (value : Binary64)
  | text (value : String)
  /-- A text whose bytes are no UTF-8. -/
  | garbled (value : ByteArray)
  | blob (value : ByteArray)
deriving DecidableEq

/-- What a column converts values to. -/
inductive Affinity
  | integer
  | text
  | none
deriving DecidableEq

namespace Cell

/-- The blanks around a number in a text. -/
def isNumberBlank (c : Char) : Bool := c = ' ' || ('\t' ≤ c && c ≤ '\r')

/-- The integer that a double equals, if a 64-bit word holds it. -/
def wholeOf? (x : Binary64) : Option Int64 :=
  if !x.isFinite then none
  else
    let q := x.binaryExponent
    let magnitude := if 0 ≤ q then x.significand <<< q.toNat else x.significand >>> (-q).toNat
    let value : Int := if x.negative then -(magnitude : Int) else magnitude
    if (magnitude : Int) ≤ Int64.maxValue.toInt ∧ (Binary64.ofInt value).numericEq x then
      some (Int64.ofInt value)
    else none

/-- The number that a text spells, if it spells one in digits. -/
def ofNumericText? (text : String) : Option Cell :=
  let inner := ((text.toList.dropWhile isNumberBlank).reverse.dropWhile isNumberBlank).reverse
  let (negative, digits) := Decimal.takeSign inner
  let magnitude := Decimal.ofDigits digits
  let value : Int := if negative then -(magnitude : Int) else magnitude
  if digits ≠ [] ∧ digits.all Char.isDigit ∧ Int64.minValue.toInt ≤ value ∧
      value ≤ Int64.maxValue.toInt then
    some (.integer (Int64.ofInt value))
  else
    (Decimal.digits? digits).map fun magnitude =>
      let x := Binary64.signed negative magnitude
      match wholeOf? x with
      | some n => .integer n
      | none => .real x

/-- A value as a column stores it. -/
def convert (affinity : Affinity) (cell : Cell) : Cell :=
  match affinity, cell with
  | .text, .integer value => .text (toString value)
  | .text, .real value => .text (Decimal.plain.write value)
  | .integer, .text value => (ofNumericText? value).getD cell
  | .integer, .real value => (wholeOf? value).elim cell .integer
  | _, _ => cell

/-! ## Typed reads -/

def text? : Cell → Option String
  | .text value => some value
  | _ => none

def blob? : Cell → Option ByteArray
  | .blob value => some value
  | _ => none

def int64? : Cell → Option Int64
  | .integer value => some value
  | _ => none

def int32? : Cell → Option Int32
  | .integer value =>
    if Int32.minValue.toInt ≤ value.toInt ∧ value.toInt ≤ Int32.maxValue.toInt then
      some (Int32.ofInt value.toInt)
    else none
  | _ => none

/-- The bytes of a cell that has bytes. -/
def bytes : Cell → ByteArray
  | .text value => value.toUTF8
  | .garbled value | .blob value => value
  | .integer value => (toString value).toUTF8
  | .real value => (Decimal.plain.write value).toUTF8

/-- The text of what a cell holds. -/
def display : Cell → String
  | .text value => value
  | .garbled value | .blob value => Text.ofBytes value
  | .integer value => toString value
  | .real value => Decimal.plain.write value

end Cell

end RevisionLedger
