import RevisionLedger.Binary64

/-!
# TOML values

A document is a table of values by key. Tables nest, and a document may fill one table from several
places, so that each table remembers how it came to be: that decides which places may add to it.
-/

namespace RevisionLedger.Toml

/-- How a table came to be. -/
inductive Origin
  /-- A header names it; the document itself counts as one of these. -/
  | header
  /-- Only headers of tables below it mention it. -/
  | implied
  /-- Dotted keys made it. -/
  | dotted
  /-- It is written in braces. -/
  | inline
deriving DecidableEq, Repr

inductive Value
  | text (content : String)
  | integer (value : Int)
  /-- A number with a point or a power; none if it is too great for a double. -/
  | real (value : Option Binary64)
  | boolean (value : Bool)
  /-- A date, a time of day, or both. -/
  | moment
  | array (items : List Value)
  /-- Tables under one header in double brackets, the latest one first. -/
  | tables (elements : List (List (String × Value)))
  | table (origin : Origin) (entries : List (String × Value))

/-- The values of a table by key. -/
abbrev Entries := List (String × Value)

/-- A key with the keys of the tables on the way to it. -/
structure DottedKey where
  path : List String
  last : String
deriving DecidableEq, Repr

/-- What a line of a document gives a value to. -/
structure Assignment where
  key : DottedKey
  value : Value

/-- A line that starts a table. -/
inductive Heading
  /-- The one table of a name. -/
  | table (key : DottedKey)
  /-- One more table of a name. -/
  | element (key : DottedKey)
deriving DecidableEq, Repr

/-- A heading, which only the lines before the first one lack, and the lines below it. -/
structure Section where
  heading : Option Heading
  assignments : List Assignment

/-! ## 1. Adding to tables -/

/-- Whether tables that keys of a given kind lead through may be reached through a table: none goes
through a table in braces, and dotted keys do not go through a table with a header. -/
def Origin.admits (origin through : Origin) : Bool :=
  origin != .inline && (through != .dotted || origin != .header)

namespace Entries

/-- Puts a value in the place of the one under its key, or at the end. -/
def put (key : String) (value : Value) : Entries → Entries
  | [] => [(key, value)]
  | entry :: rest => if entry.1 = key then (key, value) :: rest else entry :: put key value rest

/-- Changes the table at the end of a path. Tables that are missing on the way are made, and a name
with several tables stands for its latest one. -/
def reach (through : Origin) (change : Origin → Entries → Option Entries) :
    List String → Origin → Entries → Option Entries
  | [], origin, entries => change origin entries
  | key :: path, _, entries =>
    match entries.lookup key with
    | none => do
      return entries.put key (.table through (← reach through change path through []))
    | some (.table origin inner) =>
      if origin.admits through then do
        return entries.put key (.table origin (← reach through change path origin inner))
      else none
    | some (.tables (latest :: earlier)) => do
      return entries.put key (.tables ((← reach through change path .header latest) :: earlier))
    | some _ => none

/-- Gives a value to a key that has none. A table made by dotted keys takes values only through
such keys, and any other table only directly. -/
def assign (origin : Origin) (entries : Entries) (assignment : Assignment) : Option Entries :=
  let key := assignment.key
  reach .dotted (fun origin entries =>
    if (origin = .dotted) = (key.path = []) ∨ (entries.lookup key.last).isSome then none
    else some (entries.put key.last assignment.value)) key.path origin entries

/-- Adds what stands in a section to the tables of a document. A table that headers only mentioned
so far is given its own header once. -/
def place (root : Entries) (added : Section) : Option Entries :=
  let fill (start : Entries) := added.assignments.foldlM (assign .header) start
  match added.heading with
  | none => fill root
  | some (.table key) =>
    reach .implied (fun _ parent => do
      let start ← match parent.lookup key.last with
        | none => some []
        | some (.table .implied entries) => some entries
        | some _ => none
      return parent.put key.last (.table .header (← fill start))) key.path .header root
  | some (.element key) =>
    reach .implied (fun _ parent => do
      let earlier ← match parent.lookup key.last with
        | none => some []
        | some (.tables elements) => some elements
        | some _ => none
      return parent.put key.last (.tables ((← fill []) :: earlier))) key.path .header root

/-- The table that a document describes, if no two of its places contradict each other. -/
def ofSections (sections : List Section) : Option Entries := sections.foldlM place []

theorem lookup_cons (key other : String) (value : Value) (entries : Entries) :
    List.lookup other ((key, value) :: entries) =
      if other = key then some value else entries.lookup other := by
  rw [List.lookup_cons]
  by_cases h : other = key
  · simp [h]
  · have hne : (other == key) = false := by simp [h]
    simp only [hne, h, if_false]

theorem lookup_put (key other : String) (value : Value) (entries : Entries) :
    (entries.put key value).lookup other =
      if other = key then some value else entries.lookup other := by
  induction entries with
  | nil => simp only [put, lookup_cons]
  | cons entry rest ih =>
    obtain ⟨name, old⟩ := entry
    by_cases hname : name = key
    · subst hname
      by_cases h : other = name <;> simp [put, lookup_cons, h]
    · by_cases h : other = name
      · subst h
        simp [put, hname]
      · simp only [put, hname, if_false, lookup_cons, h, ih]

end Entries

end RevisionLedger.Toml
