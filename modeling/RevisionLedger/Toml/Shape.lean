import RevisionLedger.SortedMap
import RevisionLedger.Toml.Value

/-!
# Shapes of TOML values

The readings of a value as text, number, choice or map, and the shapes of structures. A structure is
a table with any of its fields and no others, or an array that lists its fields in order; what is
missing keeps its default, and items past the last field are passed over.
-/

namespace RevisionLedger.Toml

namespace Value

def string? : Value → Option String
  | .text content => some content
  | _ => none

/-- The value of a whole number that is not negative and below a limit. -/
def below? (limit : Nat) : Value → Option Nat
  | .integer n => if 0 ≤ n ∧ n < limit then some n.toNat else none
  | _ => none

def uint32? (value : Value) : Option UInt32 := (value.below? UInt32.size).map UInt32.ofNat

def uint64? (value : Value) : Option UInt64 := (value.below? UInt64.size).map UInt64.ofNat

/-- The double of a number; a whole number of at most sixty-four bits is rounded to one. -/
def binary64? : Value → Option Binary64
  | .real x => x
  | .integer n => if Int64.minValue.toInt ≤ n ∧ n < UInt64.size then some (.ofInt n) else none
  | _ => none

def items? : Value → Option (List Value)
  | .array items => some items
  | .tables elements => some (elements.reverse.map (.table .header))
  | _ => none

def entries? : Value → Option Entries
  | .table _ entries => some entries
  | _ => none

/-- Whether a value is an array without items or a table without entries. -/
def isEmpty (value : Value) : Bool :=
  value.items?.any List.isEmpty || value.entries?.any List.isEmpty

/-- One of a few named choices: its name, or a table with its name over nothing. -/
def choice? {α : Type} (choices : List (String × α)) : Value → Option α
  | .text name => choices.lookup name
  | .table _ [(name, value)] => if value.isEmpty then choices.lookup name else none
  | _ => none

/-- A map of which each value is read alike. -/
def map? {β : Type} (read : Value → Option β) (value : Value) : Option (SortedMap String β) := do
  let entries ← (← value.entries?).mapM fun (name, value) => do return (name, ← read value)
  return .ofList entries

end Value

/-- A field of a structure: its name, and the reading of its value, which yields the function that
sets it. -/
structure Field (α : Type) where
  name : String
  read? : Value → Option (α → α)

/-- A field that a function sets to what is read. -/
def Field.of {α β : Type} (name : String) (read? : Value → Option β) (set : β → α → α) : Field α :=
  ⟨name, fun value => (read? value).map set⟩

/-- Reads the entries of a table into the fields of a structure. -/
def fill? {α : Type} (fields : List (Field α)) (blank : α) (entries : Entries) : Option α :=
  entries.foldlM (fun state (name, value) => do
    let field ← fields.find? (·.name == name)
    return (← field.read? value) state) blank

/-- Reads a structure, of which `blank` holds the defaults. -/
def structure? {α : Type} (fields : List (Field α)) (blank : α) (value : Value) : Option α :=
  match value.entries? with
  | some entries => fill? fields blank entries
  | none => do
    (fields.zip (← value.items?)).foldlM (fun state (field, item) => do
      return (← field.read? item) state) blank

end RevisionLedger.Toml
