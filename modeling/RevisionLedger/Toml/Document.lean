import RevisionLedger.Toml.Scalar

/-!
# TOML documents

A document is read line by line: headings, and keys with values. Its sections are read first, and
the tables that they describe are put together afterwards.

Loops that a closing mark ends are bounded by the length of the text.
-/

namespace RevisionLedger.Toml

/-- Takes a value from the front of a text. -/
abbrev Reader := StateT (List Char) Option

/-! ## 1. Characters -/

/-- The blanks within a line. -/
def isBlank (c : Char) : Bool := c == ' ' || c == '\t'

/-- Whether a comment or a string may hold a character as it stands. -/
def isPrintable (c : Char) : Bool := c == '\t' || (' ' ≤ c && c != '\x7f')

/-- The characters of keys without quotes. -/
def isKeyChar (c : Char) : Bool :=
  c.isAlphanum || c == '-' || c == '_'

/-- The characters of values without quotes. -/
def isValueChar (c : Char) : Bool :=
  isKeyChar c || c == '+' || c == '.' || c == ':'

/-- Drops blanks, line ends and comments; a comment that is being read goes on to its line's end. -/
def skipGap (inComment : Bool) : List Char → Option (List Char)
  | [] => some []
  | '\r' :: '\n' :: rest => skipGap false rest
  | c :: rest =>
    if c = '\n' then skipGap false rest
    else if inComment then if isPrintable c then skipGap true rest else none
    else if c = '#' then skipGap true rest
    else if isBlank c then skipGap false rest
    else some (c :: rest)

/-- Drops the end of a line, and what stands before the next line with content. -/
def skipLineEnd (input : List Char) : Option (List Char) :=
  match input.dropWhile isBlank with
  | [] => some []
  | '#' :: rest => skipGap true rest
  | '\r' :: '\n' :: rest => skipGap false rest
  | '\n' :: rest => skipGap false rest
  | _ => none

/-- Drops blanks and line ends. -/
def skipLines : List Char → List Char
  | [] => []
  | '\r' :: '\n' :: rest => skipLines rest
  | c :: rest => if c = '\n' ∨ isBlank c then skipLines rest else c :: rest

namespace Reader

def blanks : Reader Unit := fun input => some ((), input.dropWhile isBlank)

/-- Drops blanks, line ends and comments. -/
def gap : Reader Unit := fun input => (skipGap false input).map fun rest => ((), rest)

/-- Takes a character if it comes next, and says whether it did. -/
def takes (c : Char) : Reader Bool := fun input =>
  match input with
  | first :: rest => if first = c then some (true, rest) else some (false, input)
  | [] => some (false, [])

/-- Takes a character that has to come next. -/
def mark (c : Char) : Reader Unit := do
  if !(← takes c) then failure

/-- A bound on the number of steps that the rest of the text takes. -/
def bound : Reader Nat := fun input => some (input.length + 1, input)

end Reader

/-! ## 2. Strings -/

/-- Takes a character that is given by a number of hexadecimal digits. -/
def takeCode (count : Nat) (input : List Char) : Option (Char × List Char) := do
  let digits ← (input.take count).mapM Text.hexValue?
  let code := digits.foldl (fun n digit => n * 16 + digit) 0
  if digits.length = count ∧ code.isValidChar then some (Char.ofNat code, input.drop count)
  else none

/-- Takes what follows a backslash. -/
def takeEscape : List Char → Option (Char × List Char)
  | 'b' :: rest => some ('\x08', rest)
  | 't' :: rest => some ('\t', rest)
  | 'n' :: rest => some ('\n', rest)
  | 'f' :: rest => some ('\x0c', rest)
  | 'r' :: rest => some ('\r', rest)
  | 'e' :: rest => some ('\x1b', rest)
  | '"' :: rest => some ('"', rest)
  | '\\' :: rest => some ('\\', rest)
  | 'x' :: rest => takeCode 2 rest
  | 'u' :: rest => takeCode 4 rest
  | 'U' :: rest => takeCode 8 rest
  | _ => none

/-- Takes a string of one line after its opening quote, and the closing quote. Only double quotes
allow escapes. The characters taken so far are given last one first. -/
def takeLine (quote : Char) : Nat → List Char → List Char → Option (String × List Char)
  | 0, _, _ | _, _, [] => none
  | bound + 1, taken, c :: rest =>
    if c = quote then some (String.ofList taken.reverse, rest)
    else if c = '\\' ∧ quote = '"' then
      match takeEscape rest with
      | none => none
      | some (c, rest) => takeLine quote bound (c :: taken) rest
    else if isPrintable c then takeLine quote bound (c :: taken) rest
    else none

/-- Takes a string of several lines after its three opening quotes, and three closing quotes. One
or two quotes before the closing ones belong to the string. A backslash at the end of a line joins
it with the next content. -/
def takeLines (quote : Char) : Nat → List Char → List Char → Option (String × List Char)
  | 0, _, _ | _, _, [] => none
  | bound + 1, taken, c :: rest =>
    if c = quote ∧ rest.take 2 = [quote, quote] then
      -- Of up to five quotes in a row the last three close the string.
      let inner := (rest.drop 2).take 2 |>.takeWhile (· == quote)
      some (String.ofList (inner ++ taken).reverse, (rest.drop 2).drop inner.length)
    else if c = '\\' ∧ quote = '"' then
      match rest.dropWhile isBlank with
      | '\n' :: rest => takeLines quote bound taken (skipLines rest)
      | '\r' :: '\n' :: rest => takeLines quote bound taken (skipLines rest)
      | _ =>
        match takeEscape rest with
        | none => none
        | some (c, rest) => takeLines quote bound (c :: taken) rest
    else if isPrintable c ∨ c = '\n' ∨ (c = '\r' ∧ rest.head? = some '\n') then
      takeLines quote bound (c :: taken) rest
    else none

/-- Drops a line end right after opening quotes. -/
def dropLineEnd : List Char → List Char
  | '\n' :: rest => rest
  | '\r' :: '\n' :: rest => rest
  | rest => rest

/-- Takes a string in quotes of either kind, of one line or of several. -/
def takeQuoted (quote : Char) (input : List Char) : Option (String × List Char) :=
  if input.take 3 = [quote, quote, quote] then
    takeLines quote input.length [] (dropLineEnd (input.drop 3))
  else takeLine quote input.length [] (input.drop 1)

/-! ## 3. Keys -/

/-- A key without dots. -/
def simpleKey : Reader String := fun input =>
  match input with
  | '"' :: rest => takeLine '"' input.length [] rest
  | '\'' :: rest => takeLine '\'' input.length [] rest
  | _ =>
    let name := input.takeWhile isKeyChar
    if name = [] then none else some (String.ofList name, input.drop name.length)

/-- Takes keys with dots between them, after those that are given last one first. -/
def keysFrom : Nat → List String → Reader DottedKey
  | 0, _ => failure
  | bound + 1, taken => do
    Reader.blanks
    let key ← simpleKey
    Reader.blanks
    if ← Reader.takes '.' then keysFrom bound (key :: taken)
    else return ⟨taken.reverse, key⟩

/-- A key, and the blanks around it. -/
def dottedKey : Reader DottedKey := do keysFrom (← Reader.bound) []

/-! ## 4. Values -/

/-- A value without quotes. A blank may stand between a date and a time. -/
def scalar : Reader Value := fun input =>
  let first := input.takeWhile isValueChar
  let rest := input.drop first.length
  let second := (rest.drop 1).takeWhile isValueChar
  -- A second part without a digit in front is left for whoever reads on.
  if (takeDate first).any List.isEmpty ∧ rest.head? = some ' ' ∧ second.head?.any Char.isDigit then
    (scalar? (first ++ ' ' :: second)).map fun value => (value, rest.drop (1 + second.length))
  else (scalar? first).map fun value => (value, rest)

/-- Takes the items of an array up to its closing bracket, after those that are given last one
first. -/
def items (item : Reader Value) : Nat → List Value → Reader Value
  | 0, _ => failure
  | bound + 1, taken => do
    Reader.gap
    if ← Reader.takes ']' then return .array taken.reverse
    let value ← item
    Reader.gap
    if ← Reader.takes ',' then items item bound (value :: taken)
    else
      Reader.mark ']'
      return .array (value :: taken).reverse

/-- Takes a key with its value. -/
def assignment (value : Reader Value) : Reader Assignment := do
  let key ← dottedKey
  Reader.mark '='
  Reader.blanks
  return ⟨key, ← value⟩

/-- Takes the entries of a table in braces up to its closing brace. -/
def members (value : Reader Value) : Nat → Entries → Reader Value
  | 0, _ => failure
  | bound + 1, entries => do
    Reader.gap
    if ← Reader.takes '\x7d' then return .table .inline entries
    let entries ← (entries.assign .inline (← assignment value) : Option Entries)
    Reader.gap
    if ← Reader.takes ',' then members value bound entries
    else
      Reader.mark '\x7d'
      return .table .inline entries

/-- A value, in which brackets and braces nest to a given depth. -/
def value : Nat → Reader Value
  | 0 => fun input =>
    match input with
    | '"' :: _ => (takeQuoted '"' input).map fun taken => (.text taken.1, taken.2)
    | '\'' :: _ => (takeQuoted '\'' input).map fun taken => (.text taken.1, taken.2)
    | _ => scalar input
  | depth + 1 => do
    if ← Reader.takes '[' then items (value depth) (← Reader.bound) []
    else if ← Reader.takes '\x7b' then members (value depth) (← Reader.bound) []
    else value 0

/-- How deep brackets and braces may nest. -/
def greatestDepth : Nat := 80

/-! ## 5. Lines -/

/-- Takes the rest of a line and what stands before the next one with content. -/
def lineEnd : Reader Unit := fun input => (skipLineEnd input).map fun rest => ((), rest)

/-- Takes the lines before the next heading, after those that are given last one first. -/
def assignments : Nat → List Assignment → Reader (List Assignment)
  | 0, _ => failure
  | bound + 1, taken => fun input =>
    match input with
    | [] => some (taken.reverse, [])
    | '[' :: _ => some (taken.reverse, input)
    | _ =>
      match (assignment (value greatestDepth)) input with
      | none => none
      | some (line, rest) =>
        match skipLineEnd rest with
        | none => none
        | some rest => assignments bound (line :: taken) rest

/-- Takes a heading and the rest of its line. -/
def heading : Reader Heading := do
  Reader.mark '['
  let isElement ← Reader.takes '['
  let key ← dottedKey
  Reader.mark ']'
  if isElement then Reader.mark ']'
  lineEnd
  return if isElement then .element key else .table key

/-- Takes a heading and the lines below it. -/
def headedSection : Reader Section := do
  let heading ← heading
  return ⟨some heading, ← assignments (← Reader.bound) []⟩

/-- The sections of a text that starts with a heading, after those that are given last one first. -/
def sectionsFrom : Nat → List Section → List Char → Option (List Section)
  | 0, _, _ => none
  | _, taken, [] => some taken.reverse
  | bound + 1, taken, input =>
    match headedSection input with
    | none => none
    | some (next, rest) => sectionsFrom bound (next :: taken) rest

def sections? (text : List Char) : Option (List Section) := do
  let input ← skipGap false text
  let (first, rest) ← assignments (input.length + 1) [] input
  sectionsFrom (rest.length + 1) [⟨none, first⟩] rest

def dropByteOrderMark : List Char → List Char
  | '\ufeff' :: rest => rest
  | text => text

/-- The table that a text describes. -/
def document? (text : String) : Option Entries := do
  Entries.ofSections (← sections? (dropByteOrderMark text.toList))

end RevisionLedger.Toml
