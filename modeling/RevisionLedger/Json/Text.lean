import RevisionLedger.Decimal.Layout
import RevisionLedger.Text.Hex

/-!
# JSON texts

Two styles of JSON are written. The compact one keeps the members of an object in the order in
which they are given; the canonical one sorts them by their written names, so that equal objects
have equal texts. They differ as well in how they write numbers. Both write a number that is not
finite as `null`, and both escape a string in the same way.
-/

namespace RevisionLedger.Json

/-! ## 1. Strings -/

/-- The text of a character inside a string: a quote, a backslash and the control characters below
the space are escaped, all others stand for themselves. -/
def escapeChar (c : Char) : List Char :=
  if c = '"' then ['\\', '"']
  else if c = '\\' then ['\\', '\\']
  else if c = '\x08' then ['\\', 'b']
  else if c = '\t' then ['\\', 't']
  else if c = '\n' then ['\\', 'n']
  else if c = '\x0c' then ['\\', 'f']
  else if c = '\r' then ['\\', 'r']
  else if c.toNat < 0x20 then
    ['\\', 'u', '0', '0', Text.hexDigit (c.toNat / 16), Text.hexDigit (c.toNat % 16)]
  else [c]

/-- Whether a character stands for itself inside a string. -/
def isPlain (c : Char) : Bool := c != '"' && c != '\\' && 0x20 ≤ c.toNat

/-- A string with its quotes. -/
def quoted (text : String) : String :=
  (text.toList.foldl
    (fun written c => if isPlain c then written.push c else written ++ String.ofList (escapeChar c))
    "\"").push '"'

/-! ## 2. Styles -/

/-- A way to write JSON. -/
structure Style where
  /-- How numbers with a fraction are written. -/
  number : Decimal.Layout
  /-- Whether the members of an object are sorted by their written names. -/
  sorted : Bool

/-- One line without blanks; a number always shows that it may have a fraction. -/
def compact : Style where
  number :=
    { tie := .toEven
      positional := fun power => -5 ≤ power && power < 16
      wholeSuffix := ".0"
      exponentPlus := true
      zeroSign := true
      nan := "null"
      infinity := "null"
      negativeInfinity := "null" }
  sorted := false

/-- One text per value: members are sorted, whole numbers have no fraction, zero has no sign. -/
def canonical : Style where
  number :=
    { tie := .toEven
      positional := fun power => -7 < power && power < 21
      wholeSuffix := ""
      exponentPlus := true
      zeroSign := false
      nan := "null"
      infinity := "null"
      negativeInfinity := "null" }
  sorted := true

namespace Style

def real (style : Style) (x : Binary64) : String := style.number.write x

/-- The members of an object in the order in which the style writes them, names quoted. -/
def arrange (style : Style) (members : List (String × String)) : List (String × String) :=
  let members := members.map fun member => (quoted member.1, member.2)
  if style.sorted then members.mergeSort fun a b => (compare a.1 b.1).isLE else members

/-- The text of an object whose members have their values written already. -/
def object (style : Style) (members : List (String × String)) : String :=
  "\x7b" ++ String.intercalate "," ((style.arrange members).map fun (name, value) =>
    name ++ ":" ++ value) ++ "\x7d"

end Style

def bool (b : Bool) : String := if b then "true" else "false"

/-- The text of a value that may be missing. -/
def optional {α : Type} (write : α → String) : Option α → String
  | none => "null"
  | some a => write a

end RevisionLedger.Json
