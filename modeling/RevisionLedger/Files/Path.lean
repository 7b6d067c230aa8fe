/-!
# Paths

A path names a file by the names on the way to it, with slashes between them. Empty names and single
dots stand for the place where they are read. Limits on paths count bytes.
-/

namespace RevisionLedger

namespace Path

def splitSlashes : List Char → List (List Char)
  | [] => [[]]
  | c :: rest =>
    if c = '/' then [] :: splitSlashes rest
    else
      match splitSlashes rest with
      | [] => [[c]]
      | first :: others => (c :: first) :: others

/-- All names of a path, also the empty ones. -/
def steps (path : String) : List String := (splitSlashes path.toList).map String.ofList

/-- The names of a path that lead somewhere. -/
def components (path : String) : List String :=
  (steps path).filter fun name => name != "" && name != "."

def isAbsolute (path : String) : Bool := path.toList.head? == some '/'

/-- Whether a text has a character that no path may have. -/
def hasNul (path : String) : Bool := path.toList.contains '\x00'

def maxLength : Nat := 4096

def maxNameLength : Nat := 255

def isLong (path : String) : Bool := maxLength < path.utf8ByteSize

def hasLongName (path : String) : Bool :=
  (components path).any (maxNameLength < ·.utf8ByteSize)

theorem isLong_iff {path : String} : isLong path ↔ maxLength < path.utf8ByteSize :=
  decide_eq_true_iff

theorem hasLongName_iff {path : String} :
    hasLongName path ↔ ∃ name ∈ components path, maxNameLength < name.utf8ByteSize := by
  rw [hasLongName, List.any_eq_true]
  simp only [decide_eq_true_eq]

theorem splitSlashes_ne_nil (text : List Char) : splitSlashes text ≠ [] := by
  induction text with
  | nil => simp [splitSlashes]
  | cons c rest ih =>
    rw [splitSlashes]
    split
    · simp
    · split <;> simp

end Path

end RevisionLedger
