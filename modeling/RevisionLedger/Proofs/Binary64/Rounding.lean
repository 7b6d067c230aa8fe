import Mathlib.Algebra.Order.Field.Power
import Mathlib.Tactic.FieldSimp
import Mathlib.Tactic.Linarith
import Mathlib.Tactic.NormNum
import Mathlib.Tactic.Positivity
import Mathlib.Tactic.Ring
import RevisionLedger.Binary64

/-!
# Rounding to a double

`Rounds x r` says that `r` lies in the interval around the magnitude of `x` whose numbers are nearer
to it than to any other double, or as near and given to `x` because its significand is even.
Whatever quotient or decimal stands for such an `r`, it is rounded to that magnitude
(`ofRatio_of_rounds`, `ofDecimal_of_rounds`).
-/

namespace RevisionLedger.Binary64

/-! ## 1. Fields -/

theorem two_zpow_pos (e : ℤ) : (0 : ℚ) < 2 ^ e := zpow_pos (by norm_num) e

theorem two_zpow_lt {a b : ℤ} : (2 : ℚ) ^ a < 2 ^ b ↔ a < b := zpow_lt_zpow_iff_right₀ (by norm_num)

theorem two_zpow_le {a b : ℤ} : (2 : ℚ) ^ a ≤ 2 ^ b ↔ a ≤ b := zpow_le_zpow_iff_right₀ (by norm_num)

/-- The double without its sign. -/
def abs (x : Binary64) : Binary64 := ⟨x.magnitudeBits⟩

variable {x : Binary64}

theorem leadingBit_eq : leadingBit = 4503599627370496 := rfl

/-- Below the leading bit the magnitude bits are the significand; past it they are the fraction, and
the rest is the exponent. -/
theorem fields (x : Binary64) :
    (x.significand = x.magnitudeBits.toNat ∧ x.binaryExponent = -1074 ∧
        x.magnitudeBits.toNat < leadingBit) ∨
      ∃ exponent fraction : ℕ, x.significand = leadingBit + fraction ∧ fraction < leadingBit ∧
        x.binaryExponent = exponent - 1074 ∧
        x.magnitudeBits.toNat = exponent * leadingBit + (leadingBit + fraction) := by
  have hmod := Nat.mod_lt x.magnitudeBits.toNat (show 0 < leadingBit by decide)
  have hdiv := Nat.div_add_mod x.magnitudeBits.toNat leadingBit
  by_cases h : x.magnitudeBits.toNat < leadingBit
  · left
    simp only [significand, binaryExponent, Nat.div_eq_of_lt h, if_pos h, if_true]
    exact ⟨trivial, trivial, h⟩
  · right
    have hexponent : 0 < x.magnitudeBits.toNat / leadingBit :=
      Nat.div_pos (Nat.le_of_not_lt h) (by decide)
    refine ⟨x.magnitudeBits.toNat / leadingBit - 1, x.magnitudeBits.toNat % leadingBit, ?_, hmod,
      ?_, ?_⟩
    · simp only [significand, if_neg h, Nat.add_comm]
    · simp only [binaryExponent, if_neg hexponent.ne']
      omega
    · rw [Nat.sub_mul, Nat.one_mul, Nat.mul_comm]
      have := Nat.mul_le_mul_left leadingBit hexponent
      omega

theorem magnitudeBits_lt (h : x.isFinite) : x.magnitudeBits.toNat < 2047 * leadingBit :=
  UInt64.lt_iff_toNat_lt.1 (of_decide_eq_true h)

theorem magnitudeBits_eq (x : Binary64) : x.magnitudeBits.toNat =
    (x.binaryExponent + 1074).toNat * leadingBit + x.significand := by
  rcases x.fields with ⟨hm, hq, -⟩ | ⟨exponent, fraction, hm, -, hq, hbits⟩
  · rw [hq, hm]
    simp
  · rw [hq, hm, hbits]
    simp

theorem significand_lt (x : Binary64) : x.significand < 2 * leadingBit := by
  rcases x.fields with ⟨hm, -, hlt⟩ | ⟨exponent, fraction, hm, hlt, -, -⟩ <;> omega

theorem le_binaryExponent (x : Binary64) : -1074 ≤ x.binaryExponent := by
  rcases x.fields with ⟨-, hq, -⟩ | ⟨exponent, fraction, -, -, hq, -⟩ <;> omega

theorem binaryExponent_le (h : x.isFinite) : x.binaryExponent ≤ 971 := by
  have hbits := magnitudeBits_lt h
  rcases x.fields with ⟨-, hq, -⟩ | ⟨exponent, fraction, -, -, hq, heq⟩
  · omega
  · rw [leadingBit_eq] at hbits heq
    omega

/-- Only at the least exponent a significand has less than 53 bits. -/
theorem leadingBit_le (h : -1074 < x.binaryExponent) : leadingBit ≤ x.significand := by
  rcases x.fields with ⟨-, hq, -⟩ | ⟨exponent, fraction, hm, -, -, -⟩ <;> omega

theorem significand_pos (h : ¬x.isZero) : 0 < x.significand := by
  have hbits : x.magnitudeBits.toNat ≠ 0 := fun hzero =>
    h (beq_iff_eq.2 (UInt64.toNat_inj.1 hzero))
  rcases x.fields with ⟨hm, -, -⟩ | ⟨exponent, fraction, hm, -, -, -⟩
  · omega
  · rw [hm, leadingBit_eq]
    omega

/-! ## 2. Quotients -/

/-- A number that is rounded to the natural number `s`. -/
structure Near (r : ℚ) (s : ℕ) : Prop where
  low : s - 1 / 2 ≤ r
  high : r ≤ s + 1 / 2
  odd : s % 2 = 1 → s - 1 / 2 < r ∧ r < s + 1 / 2

theorem Near.scaled {num den s : ℕ} (hden : 0 < den) (h : Near (num / den) s) :
    2 * (s * den) ≤ 2 * num + den ∧ 2 * num ≤ 2 * (s * den) + den ∧
      (s % 2 = 1 → 2 * (s * den) < 2 * num + den ∧ 2 * num < 2 * (s * den) + den) := by
  have hden' : (0 : ℚ) < den := by exact_mod_cast hden
  have hlow := h.low
  have hhigh := h.high
  rw [le_div_iff₀ hden'] at hlow
  rw [div_le_iff₀ hden'] at hhigh
  have hl : (2 * (s * den) : ℚ) ≤ 2 * num + den := by linarith
  have hr : (2 * num : ℚ) ≤ 2 * (s * den) + den := by linarith
  refine ⟨by exact_mod_cast hl, by exact_mod_cast hr, fun hs => ?_⟩
  obtain ⟨hleft, hright⟩ := h.odd hs
  rw [lt_div_iff₀ hden'] at hleft
  rw [div_lt_iff₀ hden'] at hright
  have hl : (2 * (s * den) : ℚ) < 2 * num + den := by linarith
  have hr : (2 * num : ℚ) < 2 * (s * den) + den := by linarith
  exact ⟨by exact_mod_cast hl, by exact_mod_cast hr⟩

theorem roundQuotient_eq {num den s : ℕ} (hden : 0 < den) (h : Near (num / den) s) :
    roundQuotient num den = s := by
  obtain ⟨hlow, hhigh, hodd⟩ := h.scaled hden
  have hmod := Nat.mod_lt num hden
  have hdiv := Nat.div_add_mod num den
  rw [Nat.mul_comm] at hdiv
  -- The quotient is `s` or the number below it; the remainder tells which.
  have hquotient : num / den = s ∨ num / den + 1 = s := by
    have hle : num / den ≤ s := by
      by_contra hlt
      have := Nat.mul_le_mul_right den (by omega : s + 1 ≤ num / den)
      rw [Nat.succ_mul] at this
      omega
    have hge : s ≤ num / den + 1 := by
      by_contra hlt
      have := Nat.mul_le_mul_right den (by omega : num / den + 2 ≤ s)
      rw [Nat.add_mul] at this
      omega
    omega
  unfold roundQuotient
  simp only []
  rcases hquotient with hq | hq
  · rw [hq] at hdiv ⊢
    apply if_neg
    rintro (hlt | ⟨htie, hs⟩)
    · omega
    · have := (hodd hs).2
      omega
  · have hdiv' : s * den = num / den * den + den := by rw [← hq, Nat.succ_mul]
    rw [if_pos, hq]
    by_cases hs : s % 2 = 1
    · have := (hodd hs).1
      left
      omega
    · by_cases htie : 2 * (num % den) = den
      · exact Or.inr ⟨htie, by omega⟩
      · left
        omega

/-- A shift by a power of two, to the left or of the other side to the right. -/
theorem shift_le_iff {num den : ℕ} (hden : 0 < den) (e : ℤ) :
    (if 0 ≤ e then den <<< e.toNat ≤ num else den ≤ num <<< (-e).toNat) ↔
      (2 : ℚ) ^ e ≤ num / den := by
  have hden' : (0 : ℚ) < den := by exact_mod_cast hden
  rw [le_div_iff₀ hden']
  by_cases he : 0 ≤ e
  · obtain ⟨n, rfl⟩ := Int.eq_ofNat_of_zero_le he
    rw [if_pos he, Int.toNat_natCast, Nat.shiftLeft_eq, zpow_natCast, Nat.mul_comm]
    exact_mod_cast Iff.rfl
  · obtain ⟨n, rfl⟩ : ∃ n : ℕ, e = -(n : ℤ) := ⟨(-e).toNat, by omega⟩
    rw [if_neg he, neg_neg, Int.toNat_natCast, Nat.shiftLeft_eq, zpow_neg, zpow_natCast,
      inv_mul_le_iff₀ (by positivity), mul_comm ((2 : ℚ) ^ n)]
    exact_mod_cast Iff.rfl

theorem le_quotientLog2_iff {num den : ℕ} (hnum : 0 < num) (hden : 0 < den) (e : ℤ) :
    e ≤ quotientLog2 num den ↔ (2 : ℚ) ^ e ≤ num / den := by
  have hden' : (0 : ℚ) < den := by exact_mod_cast hden
  have hnumLow : (2 : ℚ) ^ (num.log2 : ℤ) ≤ num := by exact_mod_cast Nat.log2_self_le hnum.ne'
  have hnumHigh : (num : ℚ) < 2 ^ ((num.log2 : ℤ) + 1) := by exact_mod_cast Nat.lt_log2_self
  have hdenLow : (2 : ℚ) ^ (den.log2 : ℤ) ≤ den := by exact_mod_cast Nat.log2_self_le hden.ne'
  have hdenHigh : (den : ℚ) < 2 ^ ((den.log2 : ℤ) + 1) := by exact_mod_cast Nat.lt_log2_self
  -- The logarithms of the two parts leave two powers of two to choose from.
  have hlow : (2 : ℚ) ^ ((num.log2 : ℤ) - den.log2 - 1) ≤ num / den := by
    rw [le_div_iff₀ hden']
    calc (2 : ℚ) ^ ((num.log2 : ℤ) - den.log2 - 1) * den
        ≤ 2 ^ ((num.log2 : ℤ) - den.log2 - 1) * 2 ^ ((den.log2 : ℤ) + 1) := by gcongr
      _ = 2 ^ (num.log2 : ℤ) := by rw [← zpow_add₀ (by norm_num)]; congr 1; ring
      _ ≤ num := hnumLow
  have hhigh : (num : ℚ) / den < 2 ^ ((num.log2 : ℤ) - den.log2 + 1) := by
    rw [div_lt_iff₀ hden']
    calc (num : ℚ) < 2 ^ ((num.log2 : ℤ) + 1) := hnumHigh
      _ = 2 ^ ((num.log2 : ℤ) - den.log2 + 1) * 2 ^ (den.log2 : ℤ) := by
        rw [← zpow_add₀ (by norm_num)]; congr 1; ring
      _ ≤ 2 ^ ((num.log2 : ℤ) - den.log2 + 1) * den := by gcongr
  have hbounds : (2 : ℚ) ^ quotientLog2 num den ≤ num / den ∧
      (num : ℚ) / den < 2 ^ (quotientLog2 num den + 1) := by
    unfold quotientLog2
    simp only [shift_le_iff hden]
    split
    · exact ⟨‹_›, hhigh⟩
    · rw [sub_add_cancel]
      exact ⟨hlow, lt_of_not_ge ‹_›⟩
  constructor
  · intro he
    exact (two_zpow_le.2 he).trans hbounds.1
  · intro he
    exact Int.lt_add_one_iff.1 (two_zpow_lt.1 (he.trans_lt hbounds.2))

/-! ## 3. Rounding -/

/-- What `ofRatio` rounds the quotient to once its exponent is known. -/
theorem ofRatio_eq {num den s : ℕ} {q : ℤ} (hnum : 0 < num) (hden : 0 < den)
    (hexponent : max (quotientLog2 num den - 52) (-1074) = q) (hq : q ≤ 971)
    (hnear : Near (num / den / 2 ^ q) s)
    (hbits : (q + 1074).toNat * leadingBit + s < 2047 * leadingBit) :
    ofRatio num den = ⟨UInt64.ofNat ((q + 1074).toNat * leadingBit + s)⟩ := by
  have hround : (if 0 ≤ q then roundQuotient num (den <<< q.toNat)
      else roundQuotient (num <<< (-q).toNat) den) = s := by
    by_cases hq : 0 ≤ q
    · obtain ⟨n, rfl⟩ := Int.eq_ofNat_of_zero_le hq
      rw [if_pos hq]
      apply roundQuotient_eq
      · rw [Nat.shiftLeft_eq]
        positivity
      · rw [Int.toNat_natCast, Nat.shiftLeft_eq]
        push_cast
        rw [← div_div]
        exact hnear
    · obtain ⟨n, rfl⟩ : ∃ n : ℕ, q = -(n : ℤ) := ⟨(-q).toNat, by omega⟩
      rw [if_neg hq]
      apply roundQuotient_eq hden
      rw [neg_neg, Int.toNat_natCast, Nat.shiftLeft_eq]
      push_cast
      rw [zpow_neg, div_inv_eq_mul, zpow_natCast, div_mul_eq_mul_div] at hnear
      exact hnear
  have hinfinity : ¬infinityBits.toNat ≤ (q + 1074).toNat * leadingBit + s := by
    have heq : infinityBits.toNat = 2047 * leadingBit := rfl
    rw [heq]
    exact Nat.not_le_of_lt hbits
  rw [ofRatio, if_neg (by omega)]
  simp only [hexponent, hround, if_neg (Int.not_lt.2 hq), if_neg hinfinity]

/-- The quarters below a significand that round to it: two, or one where the exponent changes. -/
def below (x : Binary64) : ℕ :=
  if x.significand = leadingBit ∧ -1074 < x.binaryExponent then 1 else 2

/-- A number in quarters of the last place of a double. -/
def quarters (x : Binary64) (r : ℚ) : ℚ := r / 2 ^ (x.binaryExponent - 2)

/-- A number that is rounded to the magnitude of a finite double. -/
structure Rounds (x : Binary64) (r : ℚ) : Prop where
  low : 4 * x.significand - x.below ≤ x.quarters r
  high : x.quarters r ≤ 4 * x.significand + 2
  odd : x.significand % 2 = 1 →
    4 * x.significand - x.below < x.quarters r ∧ x.quarters r < 4 * x.significand + 2

theorem below_le (x : Binary64) : x.below ≤ 2 := by
  unfold below
  split <;> omega

theorem eq_quarters_mul (x : Binary64) (r : ℚ) :
    r = x.quarters r / 4 * 2 ^ x.binaryExponent := by
  rw [quarters, zpow_sub₀ (by norm_num)]
  field_simp
  norm_num

theorem Rounds.quarters_pos {r : ℚ} (h : x.Rounds r) (hzero : ¬x.isZero) : 0 < x.quarters r := by
  have hm : (1 : ℚ) ≤ x.significand := by exact_mod_cast significand_pos hzero
  have hbelow : (x.below : ℚ) ≤ 2 := by exact_mod_cast x.below_le
  have hlow := h.low
  linarith

theorem Rounds.pos {r : ℚ} (h : x.Rounds r) (hzero : ¬x.isZero) : 0 < r := by
  rw [eq_quarters_mul x r]
  have hquarters := h.quarters_pos hzero
  have hunit := two_zpow_pos x.binaryExponent
  positivity

section Quotient

variable {num den : ℕ} (hnum : 0 < num) (hden : 0 < den) (h : x.Rounds (num / den))

include hnum hden h

/-- A double is below the power of two that its significand would reach with a bit more. -/
theorem Rounds.quotientLog2_lt : quotientLog2 num den < x.binaryExponent + 53 := by
  have hunit := two_zpow_pos x.binaryExponent
  have hm : (x.significand : ℚ) + 1 ≤ 2 ^ 53 := by exact_mod_cast significand_lt x
  by_contra hle
  have hpow := (le_quotientLog2_iff hnum hden _).1 (Int.not_lt.1 hle)
  rw [eq_quarters_mul x (num / den), zpow_add₀ (by norm_num), mul_comm] at hpow
  have hbound := le_of_mul_le_mul_right hpow hunit
  have hhigh := h.high
  norm_num at hbound hm
  linarith

theorem Rounds.exponent_eq (hbinade : x.binaryExponent = -1074 ∨
    4 * (leadingBit : ℚ) ≤ x.quarters (num / den)) :
    max (quotientLog2 num den - 52) (-1074) = x.binaryExponent := by
  have hlt := h.quotientLog2_lt hnum hden
  have hq := le_binaryExponent x
  rcases hbinade with hleast | hle
  -- At the least exponent nothing is below; past it the leading bit is reached.
  · omega
  · have hge : x.binaryExponent + 52 ≤ quotientLog2 num den := by
      have hunit := two_zpow_pos x.binaryExponent
      rw [le_quotientLog2_iff hnum hden, eq_quarters_mul x (num / den), zpow_add₀ (by norm_num),
        mul_comm]
      have hlead : (leadingBit : ℚ) = 2 ^ 52 := by norm_num [leadingBit_eq]
      rw [hlead] at hle
      gcongr
      linarith
    omega

end Quotient

theorem Rounds.near {r : ℚ} (h : x.Rounds r) : Near (r / 2 ^ x.binaryExponent) x.significand := by
  have hunit := (two_zpow_pos x.binaryExponent).ne'
  have hbelow : (x.below : ℚ) ≤ 2 := by exact_mod_cast x.below_le
  have heq : r / 2 ^ x.binaryExponent = x.quarters r / 4 := by
    rw [div_eq_iff hunit]
    exact eq_quarters_mul x r
  rw [heq]
  have hlow := h.low
  have hhigh := h.high
  refine ⟨by linarith, by linarith, fun hodd => ?_⟩
  obtain ⟨hlow, hhigh⟩ := h.odd hodd
  constructor <;> linarith

/-- Below the binade of the double, which is a power of two then, the quotient is rounded up to the
significand with a bit more. -/
theorem Rounds.below_binade {num den : ℕ} (hnum : 0 < num) (hden : 0 < den)
    (h : x.Rounds (num / den)) (hexponent : -1074 < x.binaryExponent)
    (hlt : x.quarters (num / den) < 4 * leadingBit) :
    x.significand = leadingBit ∧
      max (quotientLog2 num den - 52) (-1074) = x.binaryExponent - 1 ∧
      Near (num / den / 2 ^ (x.binaryExponent - 1)) (2 * leadingBit) := by
  have hunit := two_zpow_pos x.binaryExponent
  have hlow := h.low
  have hm : x.significand = leadingBit := by
    have hle := leadingBit_le hexponent
    have hbelow : (x.below : ℚ) ≤ 2 := by exact_mod_cast x.below_le
    have hcast : (x.significand : ℚ) < leadingBit + 1 := by linarith
    have hnext : x.significand < leadingBit + 1 := by exact_mod_cast hcast
    omega
  have hbelow : x.below = 1 := if_pos ⟨hm, hexponent⟩
  have hlead : (leadingBit : ℚ) = 2 ^ 52 := by norm_num [leadingBit_eq]
  rw [hm, hbelow, hlead] at hlow
  rw [hlead] at hlt
  have heq := eq_quarters_mul x (num / den)
  refine ⟨hm, ?_, ?_⟩
  · have hge : x.binaryExponent + 51 ≤ quotientLog2 num den := by
      rw [le_quotientLog2_iff hnum hden, heq, zpow_add₀ (by norm_num), mul_comm]
      gcongr
      norm_num at hlow ⊢
      linarith
    have hless : quotientLog2 num den < x.binaryExponent + 52 := by
      by_contra hle
      have hpow := (le_quotientLog2_iff hnum hden _).1 (Int.not_lt.1 hle)
      rw [heq, zpow_add₀ (by norm_num), mul_comm] at hpow
      have hbound := le_of_mul_le_mul_right hpow hunit
      norm_num at hbound hlt
      linarith
    omega
  · have hhalf : (num : ℚ) / den / 2 ^ (x.binaryExponent - 1) = x.quarters (num / den) / 2 := by
      rw [div_eq_iff (two_zpow_pos _).ne', zpow_sub_one₀ (by norm_num)]
      linarith
    rw [hhalf]
    refine ⟨?_, ?_, fun hodd => absurd hodd (by decide)⟩
    · push_cast
      rw [hlead]
      linarith
    · push_cast
      rw [hlead]
      linarith

/-- A quotient is rounded to the double whose interval it lies in. -/
theorem ofRatio_of_rounds (hfinite : x.isFinite) (hzero : ¬x.isZero) {num den : ℕ}
    (hden : 0 < den) (h : x.Rounds (num / den)) : ofRatio num den = x.abs := by
  have hq := le_binaryExponent x
  have hbits := magnitudeBits_lt hfinite
  have habs : x.abs = ⟨UInt64.ofNat x.magnitudeBits.toNat⟩ := by rw [abs, UInt64.ofNat_toNat]
  have hnum : 0 < num := by
    have hpos := h.pos hzero
    by_contra hnot
    rw [Nat.eq_zero_of_not_pos hnot, Nat.cast_zero, zero_div] at hpos
    exact lt_irrefl _ hpos
  rw [habs]
  -- Of the interval of a power of two a part is in the binade below.
  by_cases hbinade : x.binaryExponent = -1074 ∨ 4 * (leadingBit : ℚ) ≤ x.quarters (num / den)
  · rw [magnitudeBits_eq] at hbits ⊢
    exact ofRatio_eq hnum hden (h.exponent_eq hnum hden hbinade) (binaryExponent_le hfinite)
      h.near hbits
  · obtain ⟨hleast, hlt⟩ := not_or.1 hbinade
    have hexponent : -1074 < x.binaryExponent := by omega
    obtain ⟨hm, hbelow, hnear⟩ := h.below_binade hnum hden hexponent (lt_of_not_ge hlt)
    -- The carry of the significand makes up for the exponent.
    have hcarry : (x.binaryExponent - 1 + 1074).toNat * leadingBit + 2 * leadingBit =
        x.magnitudeBits.toNat := by
      rw [magnitudeBits_eq, hm, leadingBit_eq]
      omega
    have hle := binaryExponent_le hfinite
    rw [ofRatio_eq hnum hden hbelow (by omega) hnear (by rw [hcarry]; exact hbits), hcarry]

/-! ## 4. Decimals -/

theorem ten_zpow_pos (e : ℤ) : (0 : ℚ) < 10 ^ e := zpow_pos (by norm_num) e

theorem ten_zpow_le {a b : ℤ} : (10 : ℚ) ^ a ≤ 10 ^ b ↔ a ≤ b :=
  zpow_le_zpow_iff_right₀ (by norm_num)

/-- Ten is past the third power of two. -/
theorem two_zpow_le_ten_zpow {e : ℤ} (h : 0 ≤ e) : (2 : ℚ) ^ (3 * e) ≤ 10 ^ e := by
  rw [zpow_mul]
  exact zpow_le_zpow_left₀ h (by norm_num) (by norm_num)

theorem ten_zpow_neg_le {e : ℤ} (h : 0 ≤ e) : (10 : ℚ) ^ (-e) ≤ 2 ^ (-(3 * e)) := by
  rw [zpow_neg, zpow_neg]
  exact inv_anti₀ (two_zpow_pos _) (two_zpow_le_ten_zpow h)

/-- The numbers that are rounded to a double are far from both ends of the powers of ten. -/
theorem Rounds.bounds (hfinite : x.isFinite) (hzero : ¬x.isZero) {r : ℚ} (h : x.Rounds r) :
    10 ^ (-400 : ℤ) < r ∧ r < 10 ^ (400 : ℤ) := by
  have hbelow : (x.below : ℚ) ≤ 2 := by exact_mod_cast x.below_le
  have hm : (1 : ℚ) ≤ x.significand := by exact_mod_cast significand_pos hzero
  have hm' : (x.significand : ℚ) + 1 ≤ 2 ^ (53 : ℤ) := by exact_mod_cast significand_lt x
  have hlow := h.low
  have hhigh := h.high
  have hleast := le_binaryExponent x
  have hgreatest := binaryExponent_le hfinite
  have hfar : (0 : ℤ) ≤ 400 := by decide
  have hunit := two_zpow_pos x.binaryExponent
  rw [eq_quarters_mul x r]
  constructor
  · calc (10 : ℚ) ^ (-400 : ℤ) ≤ 2 ^ (-(3 * 400) : ℤ) := ten_zpow_neg_le hfar
      _ < 2 ^ (x.binaryExponent - 1) := two_zpow_lt.2 (by omega)
      _ = 1 / 2 * 2 ^ x.binaryExponent := by
        rw [zpow_sub_one₀ (by norm_num)]
        ring
      _ ≤ x.quarters r / 4 * 2 ^ x.binaryExponent :=
        mul_le_mul_of_nonneg_right (by linarith) hunit.le
  · calc x.quarters r / 4 * 2 ^ x.binaryExponent ≤ 2 ^ (53 : ℤ) * 2 ^ x.binaryExponent := by
          gcongr
          linarith
      _ = 2 ^ (53 + x.binaryExponent) := (zpow_add₀ (by norm_num) _ _).symm
      _ < 2 ^ (3 * 400 : ℤ) := two_zpow_lt.2 (by omega)
      _ ≤ 10 ^ (400 : ℤ) := two_zpow_le_ten_zpow hfar

/-- The exponent of a decimal between the far powers of ten is not far out itself, unless many
digits make up for it. -/
theorem exponent_bounds {significand : ℕ} {exponent : ℤ} (hsignificand : significand ≠ 0)
    (hleast : 10 ^ (-400 : ℤ) < (significand : ℚ) * 10 ^ exponent)
    (hgreatest : (significand : ℚ) * 10 ^ exponent < 10 ^ (400 : ℤ)) :
    ¬400 < exponent ∧ ¬exponent < -400 - (significand.log2 : ℤ) := by
  have hone : (1 : ℚ) ≤ significand := by exact_mod_cast Nat.one_le_iff_ne_zero.2 hsignificand
  have hpower := ten_zpow_pos exponent
  constructor
  · intro hlt
    have hle : (10 : ℚ) ^ (400 : ℤ) ≤ 10 ^ exponent := ten_zpow_le.2 hlt.le
    have hmul := le_mul_of_one_le_left hpower.le hone
    linarith
  · intro hlt
    have hlog : (significand : ℚ) ≤ 10 ^ ((significand.log2 : ℤ) + 1) := by
      have hnat : significand ≤ 10 ^ (significand.log2 + 1) :=
        Nat.lt_log2_self.le.trans (Nat.pow_le_pow_left (by decide) _)
      exact_mod_cast hnat
    have hle : (significand : ℚ) * 10 ^ exponent ≤ 10 ^ (-400 : ℤ) := by
      calc (significand : ℚ) * 10 ^ exponent
          ≤ 10 ^ ((significand.log2 : ℤ) + 1) * 10 ^ exponent := by gcongr
        _ = 10 ^ ((significand.log2 : ℤ) + 1 + exponent) := (zpow_add₀ (by norm_num) _ _).symm
        _ ≤ 10 ^ (-400 : ℤ) := ten_zpow_le.2 (by omega)
    linarith

/-- A decimal is rounded to the double whose interval it lies in. -/
theorem ofDecimal_of_rounds (hfinite : x.isFinite) (hzero : ¬x.isZero) {significand : ℕ}
    {exponent : ℤ} (h : x.Rounds (significand * 10 ^ exponent)) :
    ofDecimal significand exponent = x.abs := by
  obtain ⟨hleast, hgreatest⟩ := h.bounds hfinite hzero
  have hsignificand : significand ≠ 0 := by
    rintro rfl
    have hpos := h.pos hzero
    rw [Nat.cast_zero, zero_mul] at hpos
    exact lt_irrefl _ hpos
  -- So neither of the shortcuts for far exponents is taken.
  obtain ⟨hhigh, hlow⟩ := exponent_bounds hsignificand hleast hgreatest
  rw [ofDecimal, if_neg hsignificand, if_neg hhigh, if_neg hlow]
  by_cases hsign : 0 ≤ exponent
  · obtain ⟨n, rfl⟩ := Int.eq_ofNat_of_zero_le hsign
    rw [if_pos hsign, Int.toNat_natCast]
    apply ofRatio_of_rounds hfinite hzero Nat.one_pos
    rw [zpow_natCast] at h
    change x.Rounds (((significand * 10 ^ n : ℕ) : ℚ) / (1 : ℕ))
    push_cast
    rw [div_one]
    exact h
  · obtain ⟨n, rfl⟩ : ∃ n : ℕ, exponent = -(n : ℤ) := ⟨(-exponent).toNat, by omega⟩
    rw [if_neg hsign, neg_neg, Int.toNat_natCast]
    apply ofRatio_of_rounds hfinite hzero (Nat.pow_pos (by decide))
    rw [zpow_neg, zpow_natCast, ← div_eq_mul_inv] at h
    change x.Rounds (significand / ((10 ^ n : ℕ) : ℚ))
    push_cast
    exact h

end RevisionLedger.Binary64
