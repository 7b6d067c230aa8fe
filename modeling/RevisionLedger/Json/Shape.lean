import RevisionLedger.Json.Number

/-!
# Shapes

The readers of truth values, numbers, strings and maps, and those of structures with named fields.
A structure is read from an object, in which fields come in any order and unknown ones are passed
over, or from an array that lists its fields in order.

A value of another kind is read to its end first, so that a fault inside it comes before the
mismatch.
-/

namespace RevisionLedger.Json

namespace Reader

variable {α β : Type}

/-! ## 1. Simple values -/

/-- Refuses a value of the wrong kind that starts with the given byte. -/
def wrongKind (first : UInt8) : Reader α := do
  if first = byte 'n' then word ['n', 'u', 'l', 'l']
  else if first = byte 't' then word ['t', 'r', 'u', 'e']
  else if first = byte 'f' then word ['f', 'a', 'l', 's', 'e']
  else if first = byte '-' ∨ isDigit first then discard number
  else if first = byte '"' then
    discard next
    discard stringBody
  else if first ≠ byte '[' ∧ first ≠ byte '\x7b' then fail .malformed
  fail .mismatch

def text : Reader String := do
  let first ← peek
  if first = byte '"' then
    discard next
    stringBody
  else wrongKind first

def bool : Reader Bool := do
  let first ← peek
  if first = byte 't' then
    word ['t', 'r', 'u', 'e']
    return true
  else if first = byte 'f' then
    word ['f', 'a', 'l', 's', 'e']
    return false
  else wrongKind first

def anyNumber : Reader Number := do
  let first ← peek
  if first = byte '-' ∨ isDigit first then number else wrongKind first

/-- A whole number within bounds. -/
def integer (least greatest : Int) : Reader Int := do
  let value ← match ← anyNumber with
    | .natural n => pure (n : Int)
    | .negative n => pure n
    | .real _ => fail .mismatch
  if least ≤ value ∧ value ≤ greatest then return value else fail .mismatch

def int32 : Reader Int32 := do
  return Int32.ofInt (← integer Int32.minValue.toInt Int32.maxValue.toInt)

def int64 : Reader Int64 := do
  return Int64.ofInt (← integer Int64.minValue.toInt Int64.maxValue.toInt)

def uint64 : Reader UInt64 := do
  return UInt64.ofNat (← integer 0 (UInt64.size - 1)).toNat

/-- A double; a whole number is rounded to one. -/
def real : Reader Binary64 := do
  match ← anyNumber with
  | .natural n => return .ofNat n
  | .negative n => return .ofInt n
  | .real x => return x

/-- A value or `null`. -/
def optional (value : Reader α) : Reader (Option α) := do
  if (← peek) = byte 'n' then
    word ['n', 'u', 'l', 'l']
    return none
  else return some (← value)

/-- One of a few named choices: its name, or an object with its name over `null`. -/
def choice (choices : List (String × α)) : Reader α := do
  let pick (name : String) : Reader α :=
    match choices.lookup name with
    | some value => pure value
    | none => fail .mismatch
  let first ← peek
  if first = byte '"' then pick (← text)
  else if first = byte '\x7b' then
    discard next
    let value ← pick (← text)
    mark ':'
    let first ← peek
    if first = byte 'n' then word ['n', 'u', 'l', 'l'] else wrongKind first
    mark '\x7d'
    return value
  else fail .malformed

/-! ## 2. Objects -/

/-- Reads the members of an object up to its closing brace, each of them by `member` after its
name. The first argument bounds their number. -/
def members (member : α → String → Reader α) : Nat → Bool → α → Reader α
  | 0, _, _ => fail .truncated
  | count + 1, first, state => do
    let b ← peek
    if b = byte '\x7d' then
      discard next
      return state
    if !first then mark ','
    let b ← peek
    if b ≠ byte '"' then fail .malformed
    discard next
    let name ← stringBody
    members member count false (← member state name)

/-- Reads an object from its opening brace on. -/
def object (member : α → String → Reader α) (state : α) : Reader α := do
  mark '\x7b'
  members member (← bound) true state

/-- A map; of several members of one name the last one counts. -/
def map [Ord α] [Std.TransOrd α] (key : String → α) (value : Reader β) :
    Reader (SortedMap α β) := do
  let first ← peek
  if first = byte '\x7b' then
    object (fun entries name => do
      mark ':'
      return entries.insert (key name) (← value)) .empty
  else wrongKind first

end Reader

/-! ## 3. Structures -/

/-- Where a field may be missing. -/
inductive Presence
  | required
  /-- It may be missing from an object. -/
  | nullable
  /-- It may be missing from an object, and at the end of an array. -/
  | defaulted
deriving DecidableEq

/-- A field of a structure: its name, where it may be missing, and the reader of its value, which
yields the function that sets it. -/
structure Field (α : Type) where
  name : String
  presence : Presence
  read : Reader (α → α)

/-- A structure: what stands for it before any field is set, and its fields in order. A missing
field keeps the value that `blank` has. -/
structure Shape (α : Type) where
  blank : α
  fields : List (Field α)

namespace Shape

variable {α : Type}

/-- Reads the member of a name into what has been read so far, beside the names seen. A known name
that is repeated is refused before its value is looked at. -/
def member (shape : Shape α) (state : α × List String) (name : String) :
    Reader (α × List String) := do
  match shape.fields.find? (·.name == name) with
  | none =>
    Reader.mark ':'
    Reader.skip
    return state
  | some field =>
    if state.2.contains name then Reader.fail .mismatch
    Reader.mark ':'
    return ((← field.read) state.1, name :: state.2)

/-- Reads the elements of an array into the fields. -/
def elements : List (Field α) → Bool → α → Reader α
  | [], _, value => do
    if (← Reader.peek) = byte ']' then
      discard Reader.next
      return value
    else Reader.fail .malformed
  | field :: fields, first, value => do
    let b ← Reader.peek
    if b = byte ']' then
      if (field :: fields).all (·.presence == .defaulted) then
        discard Reader.next
        return value
      else Reader.fail .mismatch
    else
      if !first then
        Reader.mark ','
        if (← Reader.peek) = byte ']' then Reader.fail .malformed
      elements fields false ((← field.read) value)

def reader (shape : Shape α) : Reader α := do
  let first ← Reader.peek
  if first = byte '\x7b' then
    let (value, seen) ← Reader.object shape.member (shape.blank, [])
    if shape.fields.all fun field => field.presence != .required || seen.contains field.name then
      return value
    else Reader.fail .mismatch
  else if first = byte '[' then
    discard Reader.next
    elements shape.fields true shape.blank
  else Reader.wrongKind first

end Shape

/-! ## 4. Texts -/

/-- The value of a text that holds nothing else. -/
def decode {α : Type} (reader : Reader α) (bytes : List UInt8) : Except Fault α := do
  let (value, rest) ← reader (bytes.length + 1) bytes
  if (rest.dropWhile isBlank).isEmpty then .ok value else .error .malformed

end RevisionLedger.Json
