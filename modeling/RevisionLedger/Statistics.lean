import RevisionLedger.Binary64
import RevisionLedger.SortedMap

/-!
# Summaries of samples

`summarize` reduces the samples of one metric to six numbers. It sorts them by the total order of
their bit patterns before any arithmetic, so the order in which they came does not matter.

Of `n` samples the 99th percentile is the one at index `99 n / 100 - 1` of the sorted samples: the
second greatest of up to a hundred, and the only one of one.
-/

namespace RevisionLedger

/-- What is kept of the samples of one metric. -/
structure Statistics where
  average : Binary64
  p99 : Binary64
  max : Binary64
  min : Binary64
  /-- The standard deviation of the samples as a whole population. -/
  stdDev : Binary64
  /-- The collection window divided by the number of samples, in seconds. -/
  periodSecs : UInt64
deriving DecidableEq, Inhabited, Repr

/-- The statistics of one test setting by metric name. -/
abbrev Metrics := SortedMap String Statistics

namespace Statistics

def zero : Statistics := ⟨.zero, .zero, .zero, .zero, .zero, 0⟩

/-- The default collection window of five minutes, in seconds. -/
def defaultWindowSecs : UInt64 := 5 * 60

/-- The index of the 99th percentile among `n` sorted samples. The product is cut off at the
greatest word, and the index at the last sample. -/
def p99Index (n : Nat) : Nat :=
  let product := (n * 99).min (UInt64.size - 1)
  (product / 100 - 1).min (n - 1)

theorem p99Index_lt {n : Nat} (h : 0 < n) : p99Index n < n :=
  Nat.lt_of_le_of_lt (Nat.min_le_right _ _) (Nat.sub_one_lt_of_lt h)

/-- Samples in the total order of their bit patterns. -/
def sortSamples (samples : List Binary64) : List Binary64 :=
  samples.mergeSort fun a b => a.orderKey ≤ b.orderKey

/-- The statistics of samples that are sorted already. -/
def ofSorted (windowSecs : UInt64) : List Binary64 → Statistics
  | [] => zero
  | least :: others =>
    let sorted := least :: others
    have : p99Index sorted.length < sorted.length := p99Index_lt (Nat.succ_pos _)
    let count := Binary64.ofNat sorted.length
    let average := (Binary64.sum sorted).div count
    let square (x : Binary64) := x.mul x
    let variance := (Binary64.sum (sorted.map fun x => square (average.sub x))).div count
    { average
      p99 := sorted[p99Index sorted.length]
      max := sorted.getLast (List.cons_ne_nil _ _)
      min := least
      stdDev := variance.sqrt
      periodSecs := UInt64.ofNat (windowSecs.toNat / sorted.length) }

/-- The statistics of samples collected over a window of time. -/
def summarize (samples : List Binary64) (windowSecs : UInt64) : Statistics :=
  ofSorted windowSecs (sortSamples samples)

end Statistics

/-- What a test run sets for its summaries. -/
structure Summarizer where
  /-- The collection window in seconds. -/
  windowSecs : UInt64 := Statistics.defaultWindowSecs
  /-- Factors by which the samples of some metrics are multiplied first. -/
  scale : SortedMap String Binary64 := .empty

namespace Summarizer

/-- The statistics of one named series of samples. -/
def summarize (summarizer : Summarizer) (metric : String) (samples : List Binary64) : Statistics :=
  match summarizer.scale.find? metric with
  | some factor => Statistics.summarize (samples.map (·.mul factor)) summarizer.windowSecs
  | none => Statistics.summarize samples summarizer.windowSecs

/-- The statistics of named series; of several series of one name the last one counts. -/
def summarizeSeries (summarizer : Summarizer) (series : List (String × List Binary64)) : Metrics :=
  .ofList (series.map fun entry => (entry.1, summarizer.summarize entry.1 entry.2))

end Summarizer

end RevisionLedger
