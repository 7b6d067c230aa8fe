import Mathlib.Data.List.Forall2
import RevisionLedger.Bounds

/-!
# What the bounds find

A value lies within a limit if zero is at most the value and the value is at most the limit, in
numeric order. The check asks three times whether the value is refused, and a comparison with a NaN
refuses nothing. So a NaN as the value is refused for its own sake, but under a NaN as the limit
every value passes that is not below zero (`Bounds.outside_eq_false_iff`).

With this said, the violations are sound and complete: there is one for each metric that does not
pass, of the kind that tells why, in the order of the names (`Bounds.violations_complete`).
-/

namespace RevisionLedger

/-! ## 1. Comparisons -/

namespace Binary64

/-- Whether a number is below another or numerically equal to it. No NaN takes part. -/
def le (x y : Binary64) : Bool := x.lt y || x.numericEq y

theorem lt_eq_false_of_isNaN {x y : Binary64} (h : x.isNaN ∨ y.isNaN) : x.lt y = false := by
  unfold lt
  rcases h with h | h <;> simp [h]

theorem le_eq_false_of_isNaN {x y : Binary64} (h : x.isNaN ∨ y.isNaN) : x.le y = false := by
  rw [le, lt_eq_false_of_isNaN h, numericEq]
  rcases h with h | h <;> simp [h]

/-- Of two numbers one is at most the other or above it. -/
theorem lt_eq_not_le {x y : Binary64} (hx : x.isNaN = false) (hy : y.isNaN = false) :
    y.lt x = !x.le y := by
  unfold le lt numericEq
  rw [hx, hy, Bool.eq_iff_iff]
  simp only [Bool.not_false, Bool.true_and, Bool.not_eq_true', Bool.or_eq_false_iff,
    beq_eq_false_iff_ne, decide_eq_true_eq, decide_eq_false_iff_not]
  omega

end Binary64

/-! ## 2. One value -/

namespace Bounds

/-- Whether a value lies between zero and a limit. -/
def Within (value limit : Binary64) : Prop := Binary64.zero.le value ∧ value.le limit

/-- Whether a value passes under a limit: it lies within the limit, or it is a number that is not
below zero and the limit is none. -/
def Tolerated (value limit : Binary64) : Prop :=
  Within value limit ∨ Binary64.zero.le value ∧ limit.isNaN

theorem outside_eq_false_iff (value limit : Binary64) :
    outside value limit = false ↔ Tolerated value limit := by
  unfold outside Tolerated Within
  have hzero : Binary64.zero.isNaN = false := rfl
  cases hvalue : value.isNaN with
  | true =>
    -- A NaN is refused, and it lies within nothing.
    rw [Binary64.le_eq_false_of_isNaN (Or.inr hvalue)]
    simp
  | false =>
    rw [Binary64.lt_eq_not_le hzero hvalue]
    cases hlimit : limit.isNaN with
    | true =>
      rw [Binary64.lt_eq_false_of_isNaN (Or.inl hlimit),
        Binary64.le_eq_false_of_isNaN (Or.inr hlimit)]
      simp
    | false =>
      rw [Binary64.lt_eq_not_le hvalue hlimit]
      simp

/-! ## 3. One metric -/

variable (bounds : Bounds) (rate plugin : String)

/-- The expected value of a metric, if all three names have an entry. -/
def expected? (metric : String) : Option Binary64 := do
  let plugins ← bounds.rates.find? rate
  let metrics ← plugins.find? plugin
  metrics.find? metric

/-- The limit for an expected value. -/
def limit (expected : Binary64) : Binary64 := expected.mul (Binary64.one.add bounds.errorBound)

/-- Whether a value of a metric passes. -/
def Passes (metric : String) (value : Binary64) : Prop :=
  ∃ expected, bounds.expected? rate plugin metric = some expected ∧
    Tolerated value (bounds.limit expected)

/-- How a value of a metric fails to pass. -/
inductive Breaks (metric : String) (value : Binary64) : Violation → Prop
  | rate : bounds.rates.find? rate = none → Breaks metric value (.unknownRate rate)
  | plugin {plugins : SortedMap String (SortedMap String Binary64)} :
    bounds.rates.find? rate = some plugins → plugins.find? plugin = none →
    Breaks metric value (.unknownPlugin rate plugin)
  | metric {plugins : SortedMap String (SortedMap String Binary64)}
    {metrics : SortedMap String Binary64} : bounds.rates.find? rate = some plugins →
    plugins.find? plugin = some metrics → metrics.find? metric = none →
    Breaks metric value (.unknownMetric plugin metric)
  | range {expected : Binary64} : bounds.expected? rate plugin metric = some expected →
    ¬Tolerated value (bounds.limit expected) →
    Breaks metric value (.outOfRange metric value (bounds.limit expected))

/-- The check follows the entries down, and compares where there are all three. -/
theorem check_cases (metric : String) (value : Binary64) :
    (bounds.check rate plugin metric value = none ∧ bounds.Passes rate plugin metric value) ∨
      ∃ violation, bounds.check rate plugin metric value = some violation ∧
        bounds.Breaks rate plugin metric value violation ∧
        ¬bounds.Passes rate plugin metric value := by
  have hnot (h : bounds.expected? rate plugin metric = none) :
      ¬bounds.Passes rate plugin metric value := by
    rintro ⟨expected, hexpected, -⟩
    rw [h] at hexpected
    cases hexpected
  cases hrate : bounds.rates.find? rate with
  | none =>
    refine Or.inr ⟨_, ?_, .rate hrate, hnot ?_⟩
    · simp only [check, upperLimit, hrate]
    · simp only [expected?, hrate, Option.bind_eq_bind, Option.bind_none]
  | some plugins =>
    cases hplugin : plugins.find? plugin with
    | none =>
      refine Or.inr ⟨_, ?_, .plugin hrate hplugin, hnot ?_⟩
      · simp only [check, upperLimit, hrate, hplugin]
      · simp only [expected?, hrate, hplugin, Option.bind_eq_bind, Option.bind_some,
          Option.bind_none]
    | some metrics =>
      have hlooked : bounds.expected? rate plugin metric = metrics.find? metric := by
        simp only [expected?, hrate, hplugin, Option.bind_eq_bind, Option.bind_some]
      cases hmetric : metrics.find? metric with
      | none =>
        refine Or.inr ⟨_, ?_, .metric hrate hplugin hmetric, hnot (hlooked.trans hmetric)⟩
        simp only [check, upperLimit, hrate, hplugin, hmetric]
      | some expected =>
        have hexpected := hlooked.trans hmetric
        have hcheck : bounds.check rate plugin metric value =
            if outside value (bounds.limit expected) then
              some (.outOfRange metric value (bounds.limit expected))
            else none := by
          simp only [check, upperLimit, hrate, hplugin, hmetric]
          rfl
        cases houtside : outside value (bounds.limit expected) with
        | false =>
          refine Or.inl ⟨by rw [hcheck, houtside]; rfl, expected, hexpected, ?_⟩
          exact (outside_eq_false_iff _ _).1 houtside
        | true =>
          have hrefused : ¬Tolerated value (bounds.limit expected) := by
            rw [← outside_eq_false_iff, houtside]
            decide
          refine Or.inr ⟨_, by rw [hcheck, houtside]; rfl, .range hexpected hrefused, ?_⟩
          rintro ⟨other, hother, htolerated⟩
          rw [hexpected] at hother
          cases hother
          exact hrefused htolerated

/-! ## 4. All metrics -/

/-- Metrics are checked one after another, and those that pass leave no violation. -/
theorem exists_flagged (entries : List (String × Statistics)) :
    ∃ flagged : List (String × Statistics), flagged.Sublist entries ∧
      List.Forall₂ (fun entry => bounds.Breaks rate plugin entry.1 entry.2.max) flagged
        (entries.filterMap fun entry => bounds.check rate plugin entry.1 entry.2.max) ∧
      (∀ entry ∈ flagged, ¬bounds.Passes rate plugin entry.1 entry.2.max) ∧
      ∀ entry ∈ entries, ¬bounds.Passes rate plugin entry.1 entry.2.max → entry ∈ flagged := by
  induction entries with
  | nil => exact ⟨[], .slnil, .nil, by simp, by simp⟩
  | cons first entries ih =>
    obtain ⟨flagged, hsublist, hbreaks, hrefused, hall⟩ := ih
    rcases bounds.check_cases rate plugin first.1 first.2.max with ⟨hcheck, hpasses⟩ |
      ⟨violation, hcheck, hbreak, hnot⟩
    · refine ⟨flagged, hsublist.cons first, ?_, hrefused, ?_⟩
      · simp only [List.filterMap_cons, hcheck]
        exact hbreaks
      · intro entry hentry hfails
        rcases List.mem_cons.1 hentry with rfl | hentry
        · exact absurd hpasses hfails
        · exact hall entry hentry hfails
    · refine ⟨first :: flagged, hsublist.cons_cons first, ?_, ?_, ?_⟩
      · simp only [List.filterMap_cons, hcheck]
        exact .cons hbreak hbreaks
      · rw [List.forall_mem_cons]
        exact ⟨hnot, hrefused⟩
      · intro entry hentry hfails
        rcases List.mem_cons.1 hentry with rfl | hentry
        · exact List.mem_cons_self
        · exact List.mem_cons_of_mem _ (hall entry hentry hfails)

/-- The violations are sound and complete. There is one for each metric that does not pass, it says
how the metric fails to, and they come in the order of the names. So there are none exactly if all
metrics pass: if each has an expected value, and its maximum lies within the limit or, where the
limit is no number, is a number that is not below zero. -/
theorem violations_complete (metrics : Metrics) :
    (∃ flagged : List (String × Statistics),
      List.Forall₂ (fun entry => bounds.Breaks rate plugin entry.1 entry.2.max) flagged
        (bounds.violations rate plugin metrics) ∧
      (flagged.Pairwise fun a b => compare a.1 b.1 = .lt) ∧
      ∀ metric statistics, (metric, statistics) ∈ flagged ↔
        metrics.find? metric = some statistics ∧
          ¬bounds.Passes rate plugin metric statistics.max) ∧
      (bounds.violations rate plugin metrics = [] ↔ ∀ metric statistics,
        metrics.find? metric = some statistics →
          bounds.Passes rate plugin metric statistics.max) := by
  obtain ⟨flagged, hsublist, hbreaks, hrefused, hall⟩ :=
    bounds.exists_flagged rate plugin metrics.toList
  have hmem (metric : String) (statistics : Statistics) : (metric, statistics) ∈ flagged ↔
      metrics.find? metric = some statistics ∧
        ¬bounds.Passes rate plugin metric statistics.max := by
    rw [SortedMap.find?_eq_some_iff]
    exact ⟨fun h => ⟨hsublist.subset h, hrefused _ h⟩, fun h => hall _ h.1 h.2⟩
  refine ⟨⟨flagged, hbreaks, metrics.ascending.sublist hsublist, hmem⟩, ?_⟩
  constructor
  · intro hnil metric statistics hfind
    rw [violations] at hnil
    rw [hnil, List.forall₂_nil_right_iff] at hbreaks
    by_contra hfails
    have hflagged := (hmem metric statistics).2 ⟨hfind, hfails⟩
    rw [hbreaks] at hflagged
    cases hflagged
  · intro hpass
    have hnone : flagged = [] := List.eq_nil_iff_forall_not_mem.2 fun entry hentry => by
      obtain ⟨hfind, hfails⟩ := (hmem entry.1 entry.2).1 hentry
      exact hfails (hpass _ _ hfind)
    rw [hnone, List.forall₂_nil_left_iff] at hbreaks
    exact hbreaks

/-- A maximum that is no number is found, and so is a metric without a bound. -/
theorem violations_complete_mixed :
    let bounds : Bounds := ⟨defaultErrorBound, SortedMap.empty.insert "1000"
      (SortedMap.empty.insert "logs" (SortedMap.empty.insert "cpu" .one))⟩
    let reaching (value : Binary64) : Statistics := ⟨.zero, .zero, value, .zero, .zero, 0⟩
    let metrics : Metrics :=
      (SortedMap.empty.insert "net" (reaching .zero)).insert "cpu" (reaching .nan)
    ∃ flagged : List (String × Statistics), ("cpu", reaching .nan) ∈ flagged ∧
      ("net", reaching .zero) ∈ flagged ∧
      List.Forall₂ (fun entry => bounds.Breaks "1000" "logs" entry.1 entry.2.max) flagged
        (bounds.violations "1000" "logs" metrics) := by
  intro bounds reaching metrics
  obtain ⟨⟨flagged, hbreaks, -, hmem⟩, -⟩ := violations_complete bounds "1000" "logs" metrics
  refine ⟨flagged, (hmem _ _).2 ⟨by decide, ?_⟩, (hmem _ _).2 ⟨by decide, ?_⟩, hbreaks⟩
  · rintro ⟨expected, -, htolerated⟩
    have hzero : Binary64.zero.le .nan = false := rfl
    rcases htolerated with ⟨hle, -⟩ | ⟨hle, -⟩ <;> exact absurd (hzero.symm.trans hle) (by decide)
  · rintro ⟨expected, hexpected, -⟩
    have hnone : bounds.expected? "1000" "logs" "net" = none := by decide
    rw [hnone] at hexpected
    cases hexpected

/-- The expected value is no number, and so is the limit. No violation is reported, though nothing
lies within such a limit. -/
theorem violations_undefined_limit :
    let bounds : Bounds := ⟨defaultErrorBound, SortedMap.empty.insert "1000"
      (SortedMap.empty.insert "logs" (SortedMap.empty.insert "cpu" .nan))⟩
    let metrics : Metrics := SortedMap.empty.insert "cpu" ⟨.one, .one, .one, .one, .zero, 300⟩
    bounds.violations "1000" "logs" metrics = [] ∧
      ∃ metric statistics expected, metrics.find? metric = some statistics ∧
        bounds.expected? "1000" "logs" metric = some expected ∧
        ¬Within statistics.max (bounds.limit expected) := by
  intro bounds metrics
  have hnone : bounds.violations "1000" "logs" metrics = [] := by decide
  have hnan : (bounds.limit .nan).isNaN := by decide
  refine ⟨hnone, "cpu", ⟨.one, .one, .one, .one, .zero, 300⟩, .nan, by decide, by decide, ?_⟩
  rintro ⟨-, hle⟩
  exact absurd ((Binary64.le_eq_false_of_isNaN (Or.inr hnan)).symm.trans hle) (by decide)

end Bounds

end RevisionLedger
