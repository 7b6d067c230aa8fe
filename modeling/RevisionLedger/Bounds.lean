import RevisionLedger.Decimal.Layout
import RevisionLedger.Statistics

/-!
# Bounds on metrics

A table gives an expected value for a metric of a plugin at a data rate. A measured value passes
when it lies between zero and the expected value widened by the table's error bound.
-/

namespace RevisionLedger

/-- Values by data rate, plugin and metric. -/
abbrev RateTable := SortedMap String (SortedMap String (SortedMap String Binary64))

/-- The expected values, and how far above them a measured value may lie. -/
structure Bounds where
  /-- The tolerated excess, as a fraction of the expected value. -/
  errorBound : Binary64
  rates : RateTable
deriving DecidableEq

namespace Bounds

/-- The default error bound of three tenths. -/
def defaultErrorBound : Binary64 := ⟨0x3fd3333333333333⟩

instance : Inhabited Bounds := ⟨⟨defaultErrorBound, .empty⟩⟩

inductive Violation
  | unknownRate (rate : String)
  | unknownPlugin (rate plugin : String)
  | unknownMetric (plugin metric : String)
  | outOfRange (metric : String) (value limit : Binary64)
deriving DecidableEq

def Violation.message : Violation → String
  | .unknownRate rate => s!"no metric bounds for data rate {rate}"
  | .unknownPlugin rate plugin => s!"plugin {plugin} has no bounds at data rate {rate}"
  | .unknownMetric plugin metric => s!"metric {metric} has no bound for plugin {plugin}"
  | .outOfRange metric value limit =>
    let value := Decimal.plain.write value
    let limit := Decimal.plain.write limit
    s!"metric {metric} with value {value} is outside [0, {limit}]"

/-- The greatest value that passes. -/
def upperLimit (bounds : Bounds) (rate plugin metric : String) : Except Violation Binary64 :=
  match bounds.rates.find? rate with
  | none => .error (.unknownRate rate)
  | some plugins =>
    match plugins.find? plugin with
    | none => .error (.unknownPlugin rate plugin)
    | some metrics =>
      match metrics.find? metric with
      | none => .error (.unknownMetric plugin metric)
      | some expected => .ok (expected.mul (Binary64.one.add bounds.errorBound))

/-- Whether a value is refused under a limit: below zero, above the limit, or no number. -/
def outside (value limit : Binary64) : Bool :=
  value.lt .zero || limit.lt value || value.isNaN

/-- The violation of one measured value, if there is one. -/
def check (bounds : Bounds) (rate plugin metric : String) (value : Binary64) : Option Violation :=
  match bounds.upperLimit rate plugin metric with
  | .error violation => some violation
  | .ok limit => if outside value limit then some (.outOfRange metric value limit) else none

/-- The violations of the greatest values of all metrics, in the order of the metric names. -/
def violations (bounds : Bounds) (rate plugin : String) (metrics : Metrics) : List Violation :=
  metrics.toList.filterMap fun entry => bounds.check rate plugin entry.1 entry.2.max

end Bounds

end RevisionLedger
