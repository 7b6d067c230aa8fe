import RevisionLedger.SortedMap
import RevisionLedger.Text.Hex

/-!
# Reading JSON

A reader takes a value from the front of a byte sequence and leaves the rest. It stops at the first
fault from the left; a fault says whether the text ends too early, is no JSON, or is JSON of
another shape than the one asked for.

Readers are functions on lists of bytes. Loops over the members of an object, which the readers of
the members drive forward, are bounded by a count that `decode` sets to the length of the text.
-/

namespace RevisionLedger.Json

/-- Why a text is not read. -/
inductive Fault
  /-- The text is JSON as far as it was read, but of another shape. -/
  | mismatch
  /-- The text is no JSON, or holds a number that no double can stand for. -/
  | malformed
  /-- The text ends inside a value. -/
  | truncated
deriving DecidableEq, Repr

/-- Takes a value from the front of a byte sequence. The number bounds the members of an object. -/
abbrev Reader := ReaderT Nat (StateT (List UInt8) (Except Fault))

/-- The code of an ASCII character. -/
@[inline] def byte (c : Char) : UInt8 := c.val.toUInt8

/-- The blanks between tokens. -/
def isBlank (b : UInt8) : Bool := b == 0x20 || b == 0x0a || b == 0x0d || b == 0x09

def isDigit (b : UInt8) : Bool := 0x30 ≤ b && b ≤ 0x39

def digitValue (b : UInt8) : Nat := b.toNat - 0x30

/-! ## 1. Bytes and words -/

namespace Reader

variable {α β : Type}

def fail (fault : Fault) : Reader α := fun _ _ => .error fault

/-- Lifts a function that takes a value from the front of the input. -/
def ofInput (take : List UInt8 → Except Fault (α × List UInt8)) : Reader α := fun _ input =>
  take input

/-- The count that bounds the members of an object. -/
def bound : Reader Nat := fun bound input => .ok (bound, input)

def next : Reader UInt8 := ofInput fun
  | [] => .error .truncated
  | b :: rest => .ok (b, rest)

/-- Drops blanks and shows the byte that follows, which stays in the input. -/
def peek : Reader UInt8 := ofInput fun input =>
  match input.dropWhile isBlank with
  | [] => .error .truncated
  | b :: rest => .ok (b, b :: rest)

/-- Takes a word letter by letter. -/
def word : List Char → Reader Unit
  | [] => pure ()
  | letter :: letters => do
    if (← next) = byte letter then word letters else fail .malformed

/-- Takes a punctuation mark after blanks. -/
def mark (c : Char) : Reader Unit := do
  if (← peek) = byte c then discard next else fail .malformed

end Reader

/-! ## 2. Strings -/

/-- The code unit of four hexadecimal digits. -/
def unitOfHex (a b c d : UInt8) : Except Fault Nat :=
  match Text.hexValue? (Char.ofUInt8 a), Text.hexValue? (Char.ofUInt8 b),
      Text.hexValue? (Char.ofUInt8 c), Text.hexValue? (Char.ofUInt8 d) with
  | some a, some b, some c, some d => .ok (((a * 16 + b) * 16 + c) * 16 + d)
  | _, _, _, _ => .error .malformed

/-- Takes four hexadecimal digits. -/
def takeUnit : List UInt8 → Except Fault (Nat × List UInt8)
  | a :: b :: c :: d :: rest => do .ok (← unitOfHex a b c d, rest)
  | _ => .error .truncated

def isHighSurrogate (unit : Nat) : Bool := 0xd800 ≤ unit && unit ≤ 0xdbff

def isLowSurrogate (unit : Nat) : Bool := 0xdc00 ≤ unit && unit ≤ 0xdfff

/-- Takes the second half of a character that is escaped as two code units. -/
def takeLowSurrogate : List UInt8 → Except Fault (Nat × List UInt8)
  | [] => .error .truncated
  | b :: rest =>
    if b ≠ byte '\\' then .error .malformed
    else
      match rest with
      | [] => .error .truncated
      | b :: rest =>
        if b ≠ byte 'u' then .error .malformed
        else do
          let (unit, rest) ← takeUnit rest
          if isLowSurrogate unit then .ok (unit, rest) else .error .malformed

/-- Takes the four digits of an escaped character, and eight more where it needs two units. -/
def takeEscapedUnit (input : List UInt8) : Except Fault (Char × List UInt8) := do
  let (unit, rest) ← takeUnit input
  if isLowSurrogate unit then .error .malformed
  else if isHighSurrogate unit then
    let (low, rest) ← takeLowSurrogate rest
    .ok (Char.ofNat (0x10000 + (unit - 0xd800) * 0x400 + (low - 0xdc00)), rest)
  else .ok (Char.ofNat unit, rest)

/-- Takes what follows a backslash. -/
def takeEscape : List UInt8 → Except Fault (Char × List UInt8)
  | [] => .error .truncated
  | b :: rest =>
    if b = byte '"' then .ok ('"', rest)
    else if b = byte '\\' then .ok ('\\', rest)
    else if b = byte '/' then .ok ('/', rest)
    else if b = byte 'b' then .ok ('\x08', rest)
    else if b = byte 'f' then .ok ('\x0c', rest)
    else if b = byte 'n' then .ok ('\n', rest)
    else if b = byte 'r' then .ok ('\r', rest)
    else if b = byte 't' then .ok ('\t', rest)
    else if b = byte 'u' then takeEscapedUnit rest
    else .error .malformed

/-- The UTF-8 bytes of a character at the end of others. -/
def pushChar (bytes : ByteArray) (c : Char) : ByteArray :=
  (String.utf8EncodeChar c).foldl ByteArray.push bytes

/-- Takes a string after its opening quote, and the closing quote. The first argument bounds the
number of characters. -/
def takeStringBody : Nat → ByteArray → List UInt8 → Except Fault (ByteArray × List UInt8)
  | 0, _, _ | _, _, [] => .error .truncated
  | bound + 1, bytes, b :: rest =>
    if b = 0x22 then .ok (bytes, rest)
    else if b = 0x5c then
      match takeEscape rest with
      | .error fault => .error fault
      | .ok (c, rest) => takeStringBody bound (pushChar bytes c) rest
    else if b < 0x20 then .error .malformed
    else takeStringBody bound (bytes.push b) rest

namespace Reader

/-- Takes a string after its opening quote. -/
def stringBody : Reader String := fun bound input =>
  match takeStringBody bound .empty input with
  | .error fault => .error fault
  | .ok (bytes, rest) =>
    match String.fromUTF8? bytes with
    | some text => .ok (text, rest)
    | none => .error .malformed

end Reader

/-! ## 3. Values of no interest

A value under a name that is not asked for is passed over. Its strings and numbers are looked at
only as far as needed to find their end. -/

/-- Passes over a string after its opening quote. -/
def skipStringBody : Nat → List UInt8 → Except Fault (List UInt8)
  | 0, _ | _, [] => .error .truncated
  | bound + 1, b :: rest =>
    if b = 0x22 then .ok rest
    else if b = 0x5c then
      match rest with
      | [] => .error .truncated
      | e :: rest =>
        if e = byte 'u' then
          match takeUnit rest with
          | .error fault => .error fault
          | .ok (_, rest) => skipStringBody bound rest
        else if ['"', '\\', '/', 'b', 'f', 'n', 'r', 't'].any fun c => e == byte c then
          skipStringBody bound rest
        else .error .malformed
    else if b < 0x20 then .error .malformed
    else skipStringBody bound rest

/-- Passes over digits, of which there must be one. -/
def skipDigits : List UInt8 → Except Fault (List UInt8)
  | [] => .error .malformed
  | b :: rest => if isDigit b then .ok (rest.dropWhile isDigit) else .error .malformed

/-- Passes over the exponent of a number, if it has one. -/
def skipExponent : List UInt8 → Except Fault (List UInt8)
  | [] => .ok []
  | b :: rest =>
    if b = byte 'e' ∨ b = byte 'E' then
      match rest with
      | s :: digits => if s = byte '+' ∨ s = byte '-' then skipDigits digits else skipDigits rest
      | [] => .error .malformed
    else .ok (b :: rest)

/-- Passes over the fraction and the exponent of a number, if it has them. -/
def skipFraction : List UInt8 → Except Fault (List UInt8)
  | [] => .ok []
  | b :: rest =>
    if b = byte '.' then do skipExponent (← skipDigits rest) else skipExponent (b :: rest)

def skipNumber : List UInt8 → Except Fault (List UInt8)
  | [] => .error .malformed
  | b :: rest =>
    if b = byte '0' then
      if rest.head?.any isDigit then .error .malformed else skipFraction rest
    else if isDigit b then skipFraction (rest.dropWhile isDigit)
    else .error .malformed

def skipWord : List Char → List UInt8 → Except Fault (List UInt8)
  | [], input => .ok input
  | _ :: _, [] => .error .truncated
  | letter :: letters, b :: rest =>
    if b = byte letter then skipWord letters rest else .error .malformed

/-- A value that has begun and not ended. -/
inductive Container
  | array
  | object
deriving DecidableEq

/-- Passes over the name of a member and the colon behind it. -/
def skipName (bound : Nat) (input : List UInt8) : Except Fault (List UInt8) :=
  match input.dropWhile isBlank with
  | [] => .error .truncated
  | b :: rest =>
    if b ≠ byte '"' then .error .malformed
    else do
      match (← skipStringBody bound rest).dropWhile isBlank with
      | [] => .error .truncated
      | b :: rest => if b = byte ':' then .ok rest else .error .malformed

mutual

/-- Passes over a value, and then to the end of the containers around it, innermost first. -/
def skipValue (bound : Nat) : Nat → List Container → List UInt8 → Except Fault (List UInt8)
  | 0, _, _ => .error .truncated
  | steps + 1, around, input =>
    match input.dropWhile isBlank with
    | [] => .error .truncated
    | b :: rest =>
      if b = byte '[' then
        match rest.dropWhile isBlank with
        | [] => .error .truncated
        | c :: rest' =>
          if c = byte ']' then skipRest bound steps around rest'
          else skipValue bound steps (.array :: around) rest
      else if b = byte '\x7b' then
        match rest.dropWhile isBlank with
        | [] => .error .truncated
        | c :: rest' =>
          if c = byte '\x7d' then skipRest bound steps around rest'
          else
            match skipName bound rest with
            | .error fault => .error fault
            | .ok rest => skipValue bound steps (.object :: around) rest
      else
        let scalar :=
          if b = byte 'n' then skipWord ['u', 'l', 'l'] rest
          else if b = byte 't' then skipWord ['r', 'u', 'e'] rest
          else if b = byte 'f' then skipWord ['a', 'l', 's', 'e'] rest
          else if b = byte '-' then skipNumber rest
          else if isDigit b then skipNumber (b :: rest)
          else if b = byte '"' then skipStringBody bound rest
          else .error .malformed
        match scalar with
        | .error fault => .error fault
        | .ok rest => skipRest bound steps around rest

/-- Passes to the end of the containers around a value that has ended. -/
def skipRest (bound : Nat) : Nat → List Container → List UInt8 → Except Fault (List UInt8)
  | _, [], input => .ok input
  | 0, _ :: _, _ => .error .truncated
  | steps + 1, container :: around, input =>
    match input.dropWhile isBlank with
    | [] => .error .truncated
    | b :: rest =>
      match container with
      | .array =>
        if b = byte ',' then skipValue bound steps (.array :: around) rest
        else if b = byte ']' then skipRest bound steps around rest
        else .error .malformed
      | .object =>
        if b = byte ',' then
          match skipName bound rest with
          | .error fault => .error fault
          | .ok rest => skipValue bound steps (.object :: around) rest
        else if b = byte '\x7d' then skipRest bound steps around rest
        else .error .malformed

end

/-- Passes over any value. Two steps per byte suffice. -/
def Reader.skip : Reader Unit := fun bound input =>
  match skipValue bound (2 * bound) [] input with
  | .error fault => .error fault
  | .ok rest => .ok ((), rest)

end RevisionLedger.Json
