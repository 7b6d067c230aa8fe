import Mathlib.Data.Nat.Bitwise
import RevisionLedger.Binary64

/-!
# The total order of doubles

A double is its sign and its magnitude (`eq_of_negative_eq`). In the total order a number with a
sign comes before one without, two with a sign descend with their magnitudes, and two without
ascend. The key of a double is a word that ascends in this order (`totalLe_iff`), so two doubles
with one key are the same bits (`orderKey_inj`).
-/

namespace RevisionLedger.Binary64

/-! ## 1. Sign and magnitude -/

theorem magnitudeBits_toNat (x : Binary64) : x.magnitudeBits.toNat = x.bits.toNat % 2 ^ 63 := by
  have hmask : (0x7fffffffffffffff : UInt64).toNat = 2 ^ 63 - 1 := rfl
  rw [magnitudeBits, UInt64.toNat_and, hmask, Nat.and_two_pow_sub_one_eq_mod]

theorem negative_iff (x : Binary64) : x.negative ↔ 2 ^ 63 ≤ x.bits.toNat := by
  have hlt := x.bits.toNat_lt
  have hshift : (63 : UInt64).toNat % 64 = 63 := rfl
  have hone : (1 : UInt64).toNat = 1 := rfl
  rw [negative, beq_iff_eq, ← UInt64.toNat_inj, UInt64.toNat_shiftRight, hshift,
    Nat.shiftRight_eq_div_pow, hone]
  omega

theorem eq_of_negative_eq {x y : Binary64} (hsign : x.negative = y.negative)
    (hmagnitude : x.magnitudeBits = y.magnitudeBits) : x = y := by
  -- The bits are the highest one, which is the sign, and the 63 below it.
  have hhigh : 2 ^ 63 ≤ x.bits.toNat ↔ 2 ^ 63 ≤ y.bits.toNat := by
    rw [← negative_iff, ← negative_iff, hsign]
  have hlow := congrArg UInt64.toNat hmagnitude
  rw [magnitudeBits_toNat, magnitudeBits_toNat] at hlow
  have hx := x.bits.toNat_lt
  have hy := y.bits.toNat_lt
  exact congrArg Binary64.mk (UInt64.toNat_inj.1 (by omega))

/-! ## 2. Keys -/

/-- A bit above all others of a number is added by setting it. -/
theorem xor_two_pow {n k : ℕ} (h : n < 2 ^ k) : n ^^^ 2 ^ k = 2 ^ k + n := by
  have hadd := Nat.two_pow_add_eq_or_of_lt h 1
  rw [Nat.mul_one] at hadd
  rw [hadd]
  apply Nat.eq_of_testBit_eq
  intro i
  rw [Nat.testBit_xor, Nat.testBit_or]
  by_cases hi : k = i
  · rw [← hi, Nat.testBit_two_pow_self, Nat.testBit_lt_two_pow h]
    rfl
  · rw [Nat.testBit_two_pow_of_ne hi, Bool.xor_false, Bool.false_or]

/-- The keys of numbers with a sign fill the lower half of all words, from its end down. -/
theorem orderKey_toNat (x : Binary64) : x.orderKey.toNat =
    if x.negative then 2 ^ 63 - 1 - x.magnitudeBits.toNat else 2 ^ 63 + x.magnitudeBits.toNat := by
  have hlt := x.bits.toNat_lt
  have hnegative := x.negative_iff
  rw [magnitudeBits_toNat, orderKey]
  split
  · rename_i hsign
    have hhigh := hnegative.1 hsign
    have hsize : UInt64.size = 2 ^ 64 := rfl
    rw [UInt64.toNat_not, hsize]
    omega
  · rename_i hsign
    have hlow : x.bits.toNat < 2 ^ 63 := by
      rw [hnegative] at hsign
      omega
    have hmask : (0x8000000000000000 : UInt64).toNat = 2 ^ 63 := rfl
    rw [UInt64.toNat_xor, hmask, xor_two_pow hlow, Nat.mod_eq_of_lt hlow]

/-! ## 3. The total order -/

/-- Whether a double does not come after another in the total order. -/
def totalLe (x y : Binary64) : Bool :=
  match x.negative, y.negative with
  | true, true => y.magnitudeBits ≤ x.magnitudeBits
  | true, false => true
  | false, true => false
  | false, false => x.magnitudeBits ≤ y.magnitudeBits

theorem totalLe_iff {x y : Binary64} : x.totalLe y ↔ x.orderKey ≤ y.orderKey := by
  have hx := x.magnitudeBits_toNat ▸ Nat.mod_lt x.bits.toNat (Nat.two_pow_pos 63)
  have hy := y.magnitudeBits_toNat ▸ Nat.mod_lt y.bits.toNat (Nat.two_pow_pos 63)
  simp only [UInt64.le_iff_toNat_le, orderKey_toNat, totalLe]
  cases x.negative <;> cases y.negative <;>
    simp only [if_true, if_false, Bool.false_eq_true, decide_eq_true_eq, true_iff, false_iff] <;>
    omega

theorem orderKey_inj {x y : Binary64} (h : x.orderKey = y.orderKey) : x = y := by
  have hx := x.magnitudeBits_toNat ▸ Nat.mod_lt x.bits.toNat (Nat.two_pow_pos 63)
  have hy := y.magnitudeBits_toNat ▸ Nat.mod_lt y.bits.toNat (Nat.two_pow_pos 63)
  have hkey := congrArg UInt64.toNat h
  rw [orderKey_toNat, orderKey_toNat] at hkey
  -- Equal keys lie in one half of the words, and there each is of one magnitude.
  cases hsx : x.negative <;> cases hsy : y.negative <;>
    simp only [hsx, hsy, if_true, if_false, Bool.false_eq_true] at hkey
  · exact eq_of_negative_eq (hsx.trans hsy.symm) (UInt64.toNat_inj.1 (by omega))
  · omega
  · omega
  · exact eq_of_negative_eq (hsx.trans hsy.symm) (UInt64.toNat_inj.1 (by omega))

theorem totalLe_refl (x : Binary64) : x.totalLe x := totalLe_iff.2 (UInt64.le_refl _)

theorem totalLe_trans {x y z : Binary64} (hxy : x.totalLe y) (hyz : y.totalLe z) : x.totalLe z :=
  totalLe_iff.2 (UInt64.le_trans (totalLe_iff.1 hxy) (totalLe_iff.1 hyz))

theorem totalLe_antisymm {x y : Binary64} (hxy : x.totalLe y) (hyx : y.totalLe x) : x = y :=
  orderKey_inj (UInt64.le_antisymm (totalLe_iff.1 hxy) (totalLe_iff.1 hyx))

theorem totalLe_total (x y : Binary64) : x.totalLe y ∨ y.totalLe x :=
  (UInt64.le_total x.orderKey y.orderKey).imp totalLe_iff.2 totalLe_iff.2

end RevisionLedger.Binary64
