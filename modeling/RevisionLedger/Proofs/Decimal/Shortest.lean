import RevisionLedger.Decimal.Shortest
import RevisionLedger.Proofs.Binary64.Rounding

/-!
# The shortest decimal is rounded back

Every grid that the search looks at is compared with the double in natural numbers. In quarters of
the last place of the double these comparisons are those of `Rounds`, so a point that is picked is
rounded to the double (`rounds_of_pick?_eq`). The last of the seventeen grids is finer than the
interval and has a point in it (`pick?_ne_none`), so the search does not come away empty-handed, and
what it yields is rounded to the double (`rounds_shortest`).
-/

namespace RevisionLedger

namespace Decimal

/-- The number that a decimal stands for. -/
def value (d : Decimal) : ℚ := d.significand * 10 ^ d.exponent

/-! ## 1. Intervals in quarters of the last place -/

/-- The unit of an interval, in which the grid and the double are natural numbers. -/
def unitAt (x : Binary64) (exponent : ℤ) : ℕ :=
  Nat.pow 2 (x.binaryExponent - 2).toNat * Nat.pow 10 (-exponent).toNat

theorem intervalAt_eq (x : Binary64) (exponent : ℤ) : intervalAt x exponent =
    { low := (4 * x.significand - x.below) * unitAt x exponent
      value := 4 * x.significand * unitAt x exponent
      high := (4 * x.significand + 2) * unitAt x exponent
      closed := x.significand % 2 == 0
      step := Nat.pow 10 exponent.toNat * Nat.pow 2 (-(x.binaryExponent - 2)).toNat } := by
  have hbelow : (-1076 < x.binaryExponent - 2) = (-1074 < x.binaryExponent) := by
    rw [eq_iff_iff]
    omega
  simp only [intervalAt, hbelow]
  rfl

theorem zpow_mul_pow_toNat {b : ℚ} (hb : b ≠ 0) (e : ℤ) : b ^ e * b ^ (-e).toNat = b ^ e.toNat := by
  rw [← zpow_natCast, ← zpow_natCast, ← zpow_add₀ hb]
  congr 1
  omega

/-- The grid in quarters of the last place, and the unit that both are scaled by. -/
theorem step_eq (x : Binary64) (exponent : ℤ) :
    ((intervalAt x exponent).step : ℚ) = x.quarters (10 ^ exponent) * unitAt x exponent := by
  have htwo := zpow_mul_pow_toNat (b := 2) (by norm_num) (x.binaryExponent - 2)
  have hten := zpow_mul_pow_toNat (b := 10) (by norm_num) exponent
  have hpos := (Binary64.two_zpow_pos (x.binaryExponent - 2)).ne'
  rw [intervalAt_eq]
  simp only [unitAt, Nat.pow_eq, Nat.cast_mul, Nat.cast_pow, Nat.cast_ofNat, Binary64.quarters]
  rw [← htwo, ← hten]
  field_simp

theorem unitAt_pos (x : Binary64) (exponent : ℤ) : 0 < unitAt x exponent :=
  Nat.mul_pos (Nat.pow_pos (by decide)) (Nat.pow_pos (by decide))

section Compare

variable (x : Binary64) (exponent : ℤ) (a k : ℕ)

theorem mul_step_eq : ((k * (intervalAt x exponent).step : ℕ) : ℚ) =
    x.quarters (k * 10 ^ exponent) * unitAt x exponent := by
  rw [Nat.cast_mul, step_eq, Binary64.quarters, Binary64.quarters]
  ring

theorem unit_le_step_iff : a * unitAt x exponent ≤ k * (intervalAt x exponent).step ↔
    (a : ℚ) ≤ x.quarters (k * 10 ^ exponent) := by
  have hunit : (0 : ℚ) < unitAt x exponent := by exact_mod_cast unitAt_pos x exponent
  rw [← Nat.cast_le (α := ℚ), mul_step_eq, Nat.cast_mul]
  exact mul_le_mul_iff_of_pos_right hunit

theorem step_le_unit_iff : k * (intervalAt x exponent).step ≤ a * unitAt x exponent ↔
    x.quarters (k * 10 ^ exponent) ≤ a := by
  have hunit : (0 : ℚ) < unitAt x exponent := by exact_mod_cast unitAt_pos x exponent
  rw [← Nat.cast_le (α := ℚ), mul_step_eq, Nat.cast_mul]
  exact mul_le_mul_iff_of_pos_right hunit

theorem unit_lt_step_iff : a * unitAt x exponent < k * (intervalAt x exponent).step ↔
    (a : ℚ) < x.quarters (k * 10 ^ exponent) := by
  rw [← not_le, step_le_unit_iff, not_le]

theorem step_lt_unit_iff : k * (intervalAt x exponent).step < a * unitAt x exponent ↔
    x.quarters (k * 10 ^ exponent) < a := by
  rw [← not_le, unit_le_step_iff, not_le]

end Compare

variable {x : Binary64}

/-- A point of the grid is in the interval exactly if it is rounded to the double. -/
theorem holds_iff (hzero : ¬x.isZero) (exponent : ℤ) (k : ℕ) :
    (intervalAt x exponent).holds (k * (intervalAt x exponent).step) ↔
      x.Rounds (k * 10 ^ exponent) := by
  have hm := Binary64.significand_pos hzero
  have hbelow := x.below_le
  have hcast : ((4 * x.significand - x.below : ℕ) : ℚ) = 4 * x.significand - x.below := by
    rw [Nat.cast_sub (by omega)]
    push_cast
    rfl
  have hlow : (intervalAt x exponent).low = (4 * x.significand - x.below) * unitAt x exponent := by
    rw [intervalAt_eq]
  have hhigh : (intervalAt x exponent).high = (4 * x.significand + 2) * unitAt x exponent := by
    rw [intervalAt_eq]
  have hclosed : (intervalAt x exponent).closed = (x.significand % 2 == 0) := by
    rw [intervalAt_eq]
  rw [Interval.holds, hlow, hhigh, hclosed]
  by_cases heven : x.significand % 2 = 0
  · rw [if_pos (beq_iff_eq.2 heven), Bool.and_eq_true, decide_eq_true_eq, decide_eq_true_eq,
      unit_le_step_iff, step_le_unit_iff, hcast]
    push_cast
    constructor
    · rintro ⟨hleft, hright⟩
      exact ⟨hleft, hright, fun hodd => by omega⟩
    · intro h
      exact ⟨h.low, h.high⟩
  · rw [if_neg (by simpa using heven), Bool.and_eq_true, decide_eq_true_eq, decide_eq_true_eq,
      unit_lt_step_iff, step_lt_unit_iff, hcast]
    push_cast
    constructor
    · rintro ⟨hleft, hright⟩
      exact ⟨hleft.le, hright.le, fun _ => ⟨hleft, hright⟩⟩
    · intro h
      exact h.odd (by omega)

/-! ## 2. The search -/

theorem holds_of_pick?_eq {interval : Interval} {tie : Tie} {k : ℕ}
    (h : interval.pick? tie = some k) : interval.holds (k * interval.step) := by
  unfold Interval.pick? at h
  simp only [] at h
  split at h
  · rename_i hboth
    obtain ⟨hbelow, habove⟩ := Bool.and_eq_true_iff.1 hboth
    -- Both neighbours are in the interval, so whichever is taken is.
    split at h
    · cases h
      exact hbelow
    split at h
    · cases h
      exact habove
    split at h <;> cases h
    · exact hbelow
    · exact habove
  split at h
  · cases h
    assumption
  split at h
  · cases h
    assumption
  · cases h

theorem pick?_ne_none {interval : Interval}
    (h : interval.holds (interval.value / interval.step * interval.step) ∨
      interval.holds ((interval.value / interval.step + 1) * interval.step)) (tie : Tie) :
    interval.pick? tie ≠ none := by
  unfold Interval.pick?
  simp only []
  split
  · split
    · exact Option.some_ne_none _
    split
    · exact Option.some_ne_none _
    split <;> exact Option.some_ne_none _
  split
  · exact Option.some_ne_none _
  split
  · exact Option.some_ne_none _
  · rcases h with h | h <;> contradiction

/-- A search that comes to a grid with a point in the interval yields such a point. -/
theorem rounds_search (hzero : ¬x.isZero) (tie : Tie) {grids : ℕ} {exponent : ℤ} {last : ℕ}
    (hlast : last < grids) (h : (intervalAt x (exponent - last)).pick? tie ≠ none) :
    x.Rounds (search x tie grids exponent).value := by
  induction grids generalizing exponent last with
  | zero => omega
  | succ grids ih =>
    rw [search]
    cases hpick : (intervalAt x exponent).pick? tie with
    | some k =>
      exact (holds_iff hzero exponent k).1 (holds_of_pick?_eq hpick)
    | none =>
      cases last with
      | zero =>
        rw [Nat.cast_zero, sub_zero] at h
        exact absurd hpick h
      | succ last =>
        refine ih (Nat.lt_of_succ_lt_succ hlast) ?_
        rw [show exponent - 1 - (last : ℤ) = exponent - (last + 1 : ℕ) by push_cast; ring]
        exact h

/-! ## 3. Seventeen grids -/

theorem quarters_value (x : Binary64) :
    x.quarters (x.significand * 2 ^ x.binaryExponent) = 4 * x.significand := by
  have hunit := (Binary64.two_zpow_pos x.binaryExponent).ne'
  rw [Binary64.quarters, zpow_sub₀ (by norm_num)]
  field_simp
  norm_num

/-- A grid sixteen places below a power of ten that the double reaches has a point in the interval:
the step is less than the interval, and it is less than the part above the double where the part
below is narrow. -/
theorem pick?_ne_none_of_le (hzero : ¬x.isZero) (tie : Tie) {exponent : ℤ}
    (h : 10 ^ 16 * x.quarters (10 ^ exponent) ≤ 4 * x.significand) :
    (intervalAt x exponent).pick? tie ≠ none := by
  have hm := Binary64.significand_pos hzero
  have hstep : (0 : ℚ) < x.quarters (10 ^ exponent) :=
    div_pos (Binary64.ten_zpow_pos _) (Binary64.two_zpow_pos _)
  have hvalue : (intervalAt x exponent).value = 4 * x.significand * unitAt x exponent := by
    rw [intervalAt_eq]
  have hpos : 0 < (intervalAt x exponent).step := by
    have hunit : (0 : ℚ) < unitAt x exponent := by exact_mod_cast unitAt_pos x exponent
    have hcast : (0 : ℚ) < (intervalAt x exponent).step := by
      rw [step_eq]
      positivity
    exact_mod_cast hcast
  apply pick?_ne_none
  rw [holds_iff hzero, holds_iff hzero, hvalue]
  -- The neighbours of the double on the grid.
  have hfloor := Nat.div_mul_le_self (4 * x.significand * unitAt x exponent)
    (intervalAt x exponent).step
  have hceiling := Nat.lt_mul_of_div_lt (Nat.lt_succ_self
    (4 * x.significand * unitAt x exponent / (intervalAt x exponent).step)) hpos
  generalize 4 * x.significand * unitAt x exponent / (intervalAt x exponent).step = k at *
  rw [step_le_unit_iff] at hfloor
  rw [Nat.succ_eq_add_one, unit_lt_step_iff] at hceiling
  have hnext : x.quarters ((k + 1 : ℕ) * 10 ^ exponent) =
      x.quarters (k * 10 ^ exponent) + x.quarters (10 ^ exponent) := by
    simp only [Binary64.quarters]
    push_cast
    ring
  rw [hnext] at hceiling
  push_cast at hfloor hceiling
  by_cases hnear : 4 * (x.significand : ℚ) - 2 < x.quarters (k * 10 ^ exponent) ∧ x.below = 2
  · left
    obtain ⟨hnear, hbelow⟩ := hnear
    have hcast : (x.below : ℚ) = 2 := by exact_mod_cast hbelow
    refine ⟨?_, ?_, fun _ => ⟨?_, ?_⟩⟩ <;> linarith
  · -- The neighbour below is too far away, so the one above is near.
    right
    have hbound : x.quarters (k * 10 ^ exponent) + x.quarters (10 ^ exponent) <
        4 * (x.significand : ℚ) + 2 := by
      by_cases hbelow : x.below = 2
      · have hfar : ¬4 * (x.significand : ℚ) - 2 < x.quarters (k * 10 ^ exponent) := fun hlt =>
          hnear ⟨hlt, hbelow⟩
        have hm' : (x.significand : ℚ) < 2 * 4503599627370496 := by
          exact_mod_cast Binary64.significand_lt x
        linarith
      · have hlead : x.significand = Binary64.leadingBit := by
          by_contra hne
          exact hbelow (if_neg fun hnarrow => hne hnarrow.1)
        have hm' : (x.significand : ℚ) = 4503599627370496 := by exact_mod_cast hlead
        linarith
    have hbelow : (0 : ℚ) ≤ x.below := by positivity
    refine ⟨?_, ?_, fun _ => ⟨?_, ?_⟩⟩ <;> rw [hnext] <;> linarith

/-- The power of ten a place below the estimate is not past the power of two it is made from: the
ratio `30103 / 100000` of the logarithms is off by less than one place in the range of doubles. -/
theorem ten_zpow_le_two_zpow {k e : ℤ} (h : 100000 * (k + 1) ≤ 30103 * e) (hlow : -1100 ≤ e)
    (hhigh : e ≤ 1100) : (10 : ℚ) ^ k ≤ 2 ^ e := by
  by_cases hk : 0 ≤ k
  · -- `10 ^ 31` is less than `2 ^ 103`.
    have hpow : ((10 : ℚ) ^ k) ^ 31 ≤ (2 ^ e) ^ 31 := by
      calc ((10 : ℚ) ^ k) ^ 31 = (10 ^ 31) ^ k := by
            rw [← zpow_natCast, ← zpow_natCast, zpow_comm]
        _ ≤ (2 ^ 103) ^ k := zpow_le_zpow_left₀ hk (by norm_num) (by norm_num)
        _ = 2 ^ (103 * k) := by rw [zpow_mul]; norm_cast
        _ ≤ 2 ^ (31 * e) := Binary64.two_zpow_le.2 (by omega)
        _ = (2 ^ e) ^ 31 := by rw [mul_comm, zpow_mul]; norm_cast
    exact le_of_pow_le_pow_left₀ (by decide) (Binary64.two_zpow_pos e).le hpow
  · -- `10 ^ 25` is more than `2 ^ 83`.
    have hpow : ((10 : ℚ) ^ k) ^ 25 ≤ (2 ^ e) ^ 25 := by
      calc ((10 : ℚ) ^ k) ^ 25 = (10 ^ 25) ^ k := by
            rw [← zpow_natCast, ← zpow_natCast, zpow_comm]
        _ = ((10 ^ 25)⁻¹) ^ (-k) := by rw [inv_zpow', neg_neg]
        _ ≤ ((2 ^ 83)⁻¹) ^ (-k) :=
          zpow_le_zpow_left₀ (by omega) (by norm_num) (inv_anti₀ (by norm_num) (by norm_num))
        _ = (2 ^ 83) ^ k := by rw [inv_zpow', neg_neg]
        _ = 2 ^ (83 * k) := by rw [zpow_mul]; norm_cast
        _ ≤ 2 ^ (25 * e) := Binary64.two_zpow_le.2 (by omega)
        _ = (2 ^ e) ^ 25 := by rw [mul_comm, zpow_mul]; norm_cast
    exact le_of_pow_le_pow_left₀ (by decide) (Binary64.two_zpow_pos e).le hpow

theorem leadingPower_le (hfinite : x.isFinite) (hzero : ¬x.isZero) :
    x.quarters (10 ^ leadingPower x) ≤ 4 * x.significand := by
  have hreached (k : ℤ) : (intervalAt x k).step ≤ (intervalAt x k).value ↔
      x.quarters (10 ^ k) ≤ 4 * x.significand := by
    have hvalue : (intervalAt x k).value = 4 * x.significand * unitAt x k := by rw [intervalAt_eq]
    have h := step_le_unit_iff x k (4 * x.significand) 1
    rw [Nat.one_mul, Nat.cast_one, one_mul] at h
    rw [hvalue, h]
    push_cast
    rfl
  unfold leadingPower
  simp only [decide_eq_true_eq, hreached]
  split
  · assumption
  split
  · assumption
  · -- The estimate itself is not reached; the power below it always is.
    have hm := Binary64.significand_pos hzero
    have hlog : (2 : ℚ) ^ (x.significand.log2 : ℤ) ≤ x.significand := by
      exact_mod_cast Nat.log2_self_le hm.ne'
    have hsmall : x.significand.log2 < 53 := (Nat.log2_lt hm.ne').2 (Binary64.significand_lt x)
    have hleast := Binary64.le_binaryExponent x
    have hgreatest := Binary64.binaryExponent_le hfinite
    generalize he : (x.significand.log2 : ℤ) + x.binaryExponent = e
    have hle : (10 : ℚ) ^ (e * 30103 / 100000 - 1) ≤ x.significand * 2 ^ x.binaryExponent := by
      calc (10 : ℚ) ^ (e * 30103 / 100000 - 1) ≤ 2 ^ e :=
            ten_zpow_le_two_zpow (by omega) (by omega) (by omega)
        _ = 2 ^ (x.significand.log2 : ℤ) * 2 ^ x.binaryExponent := by
          rw [← he, zpow_add₀ (by norm_num)]
        _ ≤ x.significand * 2 ^ x.binaryExponent := by gcongr
    rw [← quarters_value x]
    exact div_le_div_of_nonneg_right hle (Binary64.two_zpow_pos _).le

/-! ## 4. The shortest decimal -/

theorem value_trim (fuel : ℕ) (d : Decimal) : (trim fuel d).value = d.value := by
  induction fuel generalizing d with
  | zero => rfl
  | succ fuel ih =>
    rw [trim]
    split
    · rename_i h
      rw [ih, value, value]
      have hdiv : d.significand = d.significand / 10 * 10 := by omega
      have hcast : (d.significand : ℚ) = (d.significand / 10 : ℕ) * 10 := by exact_mod_cast hdiv
      rw [hcast, zpow_add_one₀ (by norm_num)]
      ring
    · rfl

/-- The shortest decimal is rounded to the double. -/
theorem rounds_shortest (hfinite : x.isFinite) (hzero : ¬x.isZero) (tie : Tie) :
    x.Rounds (shortest x tie).value := by
  rw [shortest, if_neg hzero, value_trim]
  apply rounds_search hzero tie (show 16 < 17 by decide)
  apply pick?_ne_none_of_le hzero
  have h := leadingPower_le hfinite hzero
  have hscale : 10 ^ 16 * x.quarters (10 ^ (leadingPower x - (16 : ℕ))) =
      x.quarters (10 ^ leadingPower x) := by
    rw [Binary64.quarters, Binary64.quarters, zpow_sub₀ (by norm_num)]
    push_cast
    field_simp
    norm_num
  rw [hscale]
  exact h

end Decimal

end RevisionLedger
