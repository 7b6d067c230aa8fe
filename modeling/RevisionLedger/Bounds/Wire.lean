import RevisionLedger.Bounds
import RevisionLedger.Json.Shape
import RevisionLedger.Json.Text

/-!
# Bounds in JSON

The JSON text of a table of bounds, and the shape by which it is read back.
-/

namespace RevisionLedger

open Json (Style Reader Shape)

/-- The text of a map from names. -/
def SortedMap.json {β : Type} (style : Style) (write : β → String)
    (map : SortedMap String β) : String :=
  style.object (map.toList.map fun (name, value) => (name, write value))

namespace Bounds

def json (style : Style) (bounds : Bounds) : String :=
  style.object
    [("error_bound", style.real bounds.errorBound),
     ("rates", bounds.rates.json style (·.json style (·.json style style.real)))]

def ratesReader : Reader RateTable :=
  Reader.map id (Reader.map id (Reader.map id Reader.real))

def shape : Shape Bounds where
  blank := default
  fields :=
    [⟨"error_bound", .required, do
       let x ← Reader.real; return ({ · with errorBound := x })⟩,
     ⟨"rates", .required, do
       let rates ← ratesReader; return ({ · with rates := rates })⟩]

end Bounds

end RevisionLedger
