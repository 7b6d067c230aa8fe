/-!
# Fixed-width text

Widths count characters. A text that is as wide as asked for, or wider, stays as it is.
-/

namespace RevisionLedger.Text

/-- Fills a text up on its left. -/
def padLeft (fill : Char) (width : Nat) (text : String) : String :=
  String.ofList (List.replicate (width - text.length) fill) ++ text

/-- Fills a text up on both sides; of an odd number of fill characters the right side has more. -/
def center (fill : Char) (width : Nat) (text : String) : String :=
  let missing := width - text.length
  String.ofList (List.replicate (missing / 2) fill) ++ text ++
    String.ofList (List.replicate (missing - missing / 2) fill)

def cut (limit : Nat) (text : String) : String := String.ofList (text.toList.take limit)

end RevisionLedger.Text
