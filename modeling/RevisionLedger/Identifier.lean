import RevisionLedger.Decimal.Layout
import RevisionLedger.SortedMap
import RevisionLedger.Text.Hex

/-!
# Identifiers

Revisions, test settings and versions are named by texts of their own types. A setting is named by
its log volume and its throughput with a hyphen between them; a version token is compared for
equality and means nothing else.
-/

namespace RevisionLedger

/-- The hash of one source revision. -/
structure RevisionHash where
  text : String
deriving DecidableEq, Inhabited, Repr

/-- The name of one experiment configuration. -/
structure Setting where
  text : String
deriving DecidableEq, Inhabited, Repr

/-- The token that a stored version of a record bears. -/
structure VersionToken where
  text : String
deriving DecidableEq, Inhabited, Repr

/-! ## 1. The order of settings -/

namespace Setting

/-- Settings are ordered by the code points of their texts, which is the byte order of UTF-8. -/
instance : Ord Setting where
  compare := compareOn Setting.text

instance : Std.TransOrd Setting :=
  inferInstanceAs (Std.TransCmp (compareOn Setting.text))

instance : Std.LawfulEqOrd Setting where
  compare_self :=
    (inferInstance : Std.ReflCmp (compare : Setting → Setting → Ordering)).compare_self
  eq_of_compare {a b} h := by
    cases a
    cases b
    exact congrArg Setting.mk (Std.LawfulEqOrd.eq_of_compare h)

/-- The settings of a list in order, each of them once. -/
def sortedSet (settings : List Setting) : List Setting :=
  (SortedMap.ofList (settings.map fun setting => (setting, ()))).keys

/-! ## 2. Composite settings -/

/-- One half of a composite setting. -/
inductive Part
  | text (value : String)
  | whole (value : Int)
  | real (value : Binary64)

/-- The text of a half: whole numbers in decimal, other numbers as messages write them. -/
def Part.display : Part → String
  | .text value => value
  | .whole value => toString value
  | .real value => Decimal.plain.write value

/-- The setting of a log volume and a throughput. -/
def ofParts (logVolume throughput : Part) : Setting :=
  ⟨logVolume.display ++ "-" ++ throughput.display⟩

end Setting

/-! ## 3. Version tokens -/

/-- The token of two random words: their thirty-two hexadecimal digits. -/
def VersionToken.ofEntropy (high low : UInt64) : VersionToken :=
  ⟨Text.hexText (Text.wordBytes high ++ Text.wordBytes low)⟩

end RevisionLedger
