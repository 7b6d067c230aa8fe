import RevisionLedger.Proofs.Decimal.Shortest
import RevisionLedger.Proofs.Json.Numbers
import RevisionLedger.Proofs.Record.Equality

/-!
# Doubles are read back

The text of a finite double spells its shortest decimal, in digits with a point or with a power of
ten (`spells_positionalText`, `spells_exponentText`). The reader makes of what is spelt the double
that it is rounded to, and that is the double which was written (`decode_real_compact`), but that a
zero has no sign in a canonical text (`decode_real_canonical`).
-/

namespace RevisionLedger

open Binary64 (leadingBit)

/-! ## 1. Signs -/

namespace Binary64

theorem testBit_abs (x : Binary64) (i : ℕ) :
    x.abs.bits.toNat.testBit i = (x.bits.toNat.testBit i && decide (i < 63)) := by
  have hmask : (0x7fffffffffffffff : UInt64).toNat = 2 ^ 63 - 1 := rfl
  rw [abs, magnitudeBits, UInt64.toNat_and, Nat.testBit_and, hmask, Nat.testBit_two_pow_sub_one]

theorem testBit_negative (x : Binary64) : x.bits.toNat.testBit 63 = x.negative := by
  have hshift : (63 : UInt64).toNat % 64 = 63 := rfl
  have hlt := x.bits.toNat_lt
  rw [Bool.eq_iff_iff, negative, beq_iff_eq, ← UInt64.toNat_inj, UInt64.toNat_shiftRight, hshift,
    Nat.shiftRight_eq_div_pow, Nat.testBit_eq_decide_div_mod_eq, decide_eq_true_eq]
  have hone : (1 : UInt64).toNat = 1 := rfl
  omega

theorem testBit_neg (x : Binary64) (i : ℕ) :
    x.neg.bits.toNat.testBit i = (x.bits.toNat.testBit i ^^ decide (63 = i)) := by
  have hmask : (0x8000000000000000 : UInt64).toNat = 2 ^ 63 := rfl
  rw [neg, UInt64.toNat_xor, Nat.testBit_xor, hmask, Nat.testBit_two_pow]

/-- A double is its magnitude with its sign. -/
theorem signed_abs (x : Binary64) : x.abs.signed x.negative = x := by
  suffices h : (x.abs.signed x.negative).bits = x.bits from congrArg mk h
  apply UInt64.toNat_inj.1
  apply Nat.eq_of_testBit_eq
  intro i
  have hsign := x.testBit_negative
  -- The highest bit is the sign, those below it are the magnitude, and there are no others.
  have habove (hi : 63 < i) : x.bits.toNat.testBit i = false :=
    Nat.testBit_lt_two_pow (x.bits.toNat_lt.trans_le (Nat.pow_le_pow_right (by decide) hi))
  cases hneg : x.negative with
  | true =>
    rw [signed, if_pos rfl, testBit_neg, testBit_abs]
    rcases Nat.lt_trichotomy i 63 with hi | rfl | hi
    · simp [hi, hi.ne']
    · simp [hsign, hneg]
    · simp [habove hi, hi.ne]
  | false =>
    rw [signed, if_neg Bool.false_ne_true, testBit_abs]
    rcases Nat.lt_trichotomy i 63 with hi | rfl | hi
    · simp [hi]
    · simp [hsign, hneg]
    · simp [habove hi]

theorem eq_zero_or_of_isZero {x : Binary64} (h : x.isZero) : x = zero ∨ x = zero.neg := by
  have hbits : x.magnitudeBits = 0 := beq_iff_eq.1 h
  cases hneg : x.negative with
  | false => exact Or.inl (eq_of_negative_eq hneg hbits)
  | true => exact Or.inr (eq_of_negative_eq hneg hbits)

theorem isInfinite_abs (x : Binary64) : x.abs.isInfinite = x.isInfinite := by
  rw [isInfinite, isInfinite, magnitudeBits, abs, magnitudeBits, UInt64.and_assoc, UInt64.and_self]

end Binary64

namespace Json

/-! ## 2. What digits spell -/

namespace Number

theorem ofDigits_append (a b : List UInt8) :
    ofDigits (a ++ b) = ofDigits a * 10 ^ b.length + ofDigits b := by
  -- Digits after others are added to what the others make at the places before them.
  have hfold (start : ℕ) : b.foldl (fun n d => n * 10 + digitValue d) start =
      start * 10 ^ b.length + ofDigits b := by
    induction b generalizing start with
    | nil => simp [ofDigits]
    | cons d b ih =>
      rw [ofDigits, List.foldl_cons, List.foldl_cons, ih, ih, List.length_cons, Nat.pow_succ]
      ring
  rw [ofDigits, List.foldl_append, hfold]
  rfl

theorem ofDigits_zeros (n : ℕ) : ofDigits (List.replicate n (byte '0')) = 0 := by
  induction n with
  | zero => rfl
  | succ n ih =>
    rw [List.replicate_succ', ofDigits_append, ih]
    rfl

/-- The digits after a point. -/
def fractionBytes : Option (List UInt8) → List UInt8
  | none => []
  | some digits => byte '.' :: digits

/-- The power of ten after its mark, with a sign that may be left out where it is not negative. -/
def exponentBytes (plus : Bool) : Option ℤ → List UInt8
  | none => []
  | some exponent => byte 'e' ::
      ((if exponent < 0 then [byte '-'] else if plus then [byte '+'] else []) ++
        digitBytes exponent.natAbs)

theorem isDigit_head?_exponentBytes (plus : Bool) (exponent : Option ℤ) :
    ∀ b ∈ (exponentBytes plus exponent).head?, isDigit b = false := by
  intro b hb
  cases exponent with
  | none => cases hb
  | some exponent =>
    cases hb
    rfl

theorem takeFraction_append {fraction : Option (List UInt8)}
    (h : ∀ digits ∈ fraction, digits ≠ [] ∧ ∀ b ∈ digits, isDigit b) (plus : Bool)
    (exponent : Option ℤ) : takeFraction (fractionBytes fraction ++ exponentBytes plus exponent) =
      .ok (fraction, exponentBytes plus exponent) := by
  cases fraction with
  | none =>
    cases exponent with
    | none => rfl
    | some exponent =>
      have hmark : byte 'e' ≠ byte '.' := by decide
      rw [fractionBytes, List.nil_append, exponentBytes, takeFraction, if_neg hmark]
  | some digits =>
    obtain ⟨hne, hdigits⟩ := h digits rfl
    rw [fractionBytes, List.cons_append, takeFraction, if_pos rfl,
      takeDigits_append hne hdigits (isDigit_head?_exponentBytes plus exponent)]
    rfl

theorem takeExponent_exponentBytes (plus : Bool) (exponent : Option ℤ) :
    takeExponent (exponentBytes plus exponent) = .ok (exponent, []) := by
  cases exponent with
  | none => rfl
  | some exponent =>
    have hdigits : takeDigits (digitBytes exponent.natAbs) =
        .ok (digitBytes exponent.natAbs, []) := by
      have h := takeDigits_append (digitBytes_ne_nil exponent.natAbs)
        (fun _ => isDigit_of_mem_digitBytes) isDigit_head?_nil
      rwa [List.append_nil] at h
    rw [exponentBytes, takeExponent, if_pos (Or.inl rfl)]
    by_cases hneg : exponent < 0
    · have hback : -((ofDigits (digitBytes exponent.natAbs) : ℕ) : ℤ) = exponent := by
        rw [ofDigits_digitBytes]
        omega
      rw [if_pos hneg, List.singleton_append, takeSignedDigits, if_pos rfl, hdigits]
      simp only [bind, Except.bind, hback]
    · have hback : ((ofDigits (digitBytes exponent.natAbs) : ℕ) : ℤ) = exponent := by
        rw [ofDigits_digitBytes]
        omega
      rw [if_neg hneg]
      cases plus with
      | true =>
        have hmark : byte '+' ≠ byte '-' := by decide
        rw [if_pos rfl, List.singleton_append, takeSignedDigits, if_neg hmark, if_pos rfl, hdigits]
        simp only [bind, Except.bind, hback]
      | false =>
        rw [if_neg Bool.false_ne_true, List.nil_append]
        obtain ⟨b, tail, hcons⟩ := List.exists_cons_of_ne_nil (digitBytes_ne_nil exponent.natAbs)
        have hb : isDigit b := isDigit_of_mem_digitBytes (by rw [hcons]; exact List.mem_cons_self)
        have hminus : b ≠ byte '-' := by
          rintro rfl
          cases hb
        have hplus : b ≠ byte '+' := by
          rintro rfl
          cases hb
        rw [hcons] at hdigits hback ⊢
        rw [takeSignedDigits, if_neg hminus, if_neg hplus, hdigits]
        simp only [bind, Except.bind, hback]

/-- A number is taken part by part, and made of its parts. -/
theorem takeUnsigned_append (negative : Bool) {whole : List UInt8} (hwhole : Whole whole)
    {fraction : Option (List UInt8)}
    (hfraction : ∀ digits ∈ fraction, digits ≠ [] ∧ ∀ b ∈ digits, isDigit b) (plus : Bool)
    (exponent : Option ℤ) :
    takeUnsigned negative (whole ++ (fractionBytes fraction ++ exponentBytes plus exponent)) =
      (ofParts negative whole fraction exponent).map (·, []) := by
  have hrest : ∀ b ∈ (fractionBytes fraction ++ exponentBytes plus exponent).head?,
      isDigit b = false := by
    cases fraction with
    | none => exact isDigit_head?_exponentBytes plus exponent
    | some digits =>
      intro b hb
      cases hb
      rfl
  rw [takeUnsigned, hwhole.take hrest]
  simp only [bind, Except.bind, takeFraction_append hfraction, takeExponent_exponentBytes]
  cases ofParts negative whole fraction exponent <;> rfl

/-! ## 3. Numbers that are rounded to a double -/

section Rounds

variable {x : Binary64} (hfinite : x.isFinite) (hzero : ¬x.isZero)

include hfinite hzero

theorem asReal_of_rounds {significand : ℕ} {exponent : ℤ}
    (h : x.Rounds (significand * 10 ^ exponent)) :
    ofParts.asReal x.negative significand exponent = .ok (.real x) := by
  have hinfinite : x.abs.isInfinite = false := by
    rw [Binary64.isInfinite_abs]
    exact beq_eq_false_iff_ne.2 (UInt64.ne_of_lt (of_decide_eq_true hfinite))
  rw [ofParts.asReal, Binary64.ofDecimal_of_rounds hfinite hzero h]
  simp only [hinfinite, Bool.false_eq_true, if_false, Binary64.signed_abs]

theorem ofNat_of_rounds {n : ℕ} (h : x.Rounds n) : Binary64.ofNat n = x.abs := by
  apply Binary64.ofRatio_of_rounds hfinite hzero Nat.one_pos
  rw [Nat.cast_one, div_one]
  exact h

/-- Whole numbers are kept as such, and are rounded only where a double is asked for. -/
theorem ofParts_of_rounds {whole : List UInt8} {fraction : Option (List UInt8)}
    {exponent : Option ℤ} (h : x.Rounds (ofDigits (whole ++ fraction.getD []) *
      10 ^ (exponent.getD 0 - (fraction.getD []).length))) :
    ∃ number, ofParts x.negative whole fraction exponent = .ok number ∧ number.double = x := by
  have hreal := asReal_of_rounds hfinite hzero h
  rcases hparts : (fraction, exponent) with ⟨_ | digits, _ | power⟩ <;> cases hparts
  · rw [Option.getD_none, List.append_nil] at h hreal
    have hpower : (10 : ℚ) ^ ((none : Option ℤ).getD 0 - ([] : List UInt8).length) = 1 :=
      zpow_zero _
    rw [hpower, mul_one] at h
    have hnat := ofNat_of_rounds hfinite hzero h
    have hback := x.signed_abs
    rw [ofParts]
    split
    · rename_i hnatural
      refine ⟨_, rfl, ?_⟩
      rw [Bool.not_eq_true'] at hnatural
      rw [hnatural.1] at hback
      exact hnat.trans hback
    split
    · rename_i hnegative
      refine ⟨_, rfl, ?_⟩
      rw [hnegative.1] at hback
      have hsign : -(ofDigits whole : ℤ) < 0 := by omega
      rw [double, Binary64.ofInt, Int.natAbs_neg, Int.natAbs_natCast, hnat, decide_eq_true hsign]
      exact hback
    · exact ⟨_, hreal, rfl⟩
  -- With a point or a power of ten it is a double from the start.
  · exact ⟨_, hreal, rfl⟩
  · exact ⟨_, hreal, rfl⟩
  · exact ⟨_, hreal, rfl⟩

end Rounds

/-- The text of a number without a sign, taken part by part. -/
def Spells (input : List UInt8) (r : ℚ) : Prop :=
  ∃ whole fraction plus exponent, Whole whole ∧
    (∀ digits ∈ fraction, digits ≠ [] ∧ ∀ b ∈ digits, isDigit b) ∧
    input = whole ++ (fractionBytes fraction ++ exponentBytes plus exponent) ∧
    r = ofDigits (whole ++ fraction.getD []) * 10 ^ (exponent.getD 0 - (fraction.getD []).length)

theorem Spells.take {x : Binary64} (hfinite : x.isFinite) (hzero : ¬x.isZero)
    {input : List UInt8} {r : ℚ} (h : Spells input r) (hr : x.Rounds r) :
    ∃ number, takeUnsigned x.negative input = .ok (number, []) ∧ number.double = x := by
  obtain ⟨whole, fraction, plus, exponent, hwhole, hfraction, rfl, rfl⟩ := h
  obtain ⟨number, hparts, hdouble⟩ := ofParts_of_rounds hfinite hzero hr
  refine ⟨number, ?_, hdouble⟩
  rw [takeUnsigned_append x.negative hwhole hfraction, hparts]
  rfl

theorem Spells.head {input : List UInt8} {r : ℚ} (h : Spells input r) :
    ∃ b, input.head? = some b ∧ isDigit b := by
  obtain ⟨whole, fraction, plus, exponent, hwhole, -, rfl, -⟩ := h
  obtain ⟨b, tail, rfl⟩ := List.exists_cons_of_ne_nil hwhole.ne_nil
  exact ⟨b, rfl, hwhole.all b List.mem_cons_self⟩

/-! ## 4. The texts of a double -/

theorem bytes_of_visible {text : String} (h : text.toList.all isVisible) :
    bytes text = text.toList.map byte := by
  apply bytes_of_ascii
  intro c hc
  have hvisible := List.all_eq_true.1 h c hc
  simp only [isVisible, Bool.and_eq_true, decide_eq_true_eq] at hvisible
  omega

theorem visible_of_suffix {suffix : String} (h : suffix = "" ∨ suffix = ".0") :
    suffix.toList.all isVisible := by
  rcases h with rfl | rfl <;> rfl

theorem isDigit_of_mem_zeros {k : ℕ} {b : UInt8} (h : b ∈ List.replicate k (byte '0')) :
    isDigit b := by
  rw [List.eq_of_mem_replicate h]
  decide

theorem head?_digitBytes_of_pos {n : ℕ} (h : 0 < n) : (digitBytes n).head? ≠ some (byte '0') := by
  by_cases hten : 10 ≤ n
  · exact head?_digitBytes hten
  · have hdigit : ∀ d < 10, 0 < d → (digitBytes d).head? ≠ some (byte '0') := by decide
    exact hdigit n (by omega) h

section Forms

variable {n : ℕ} (hn : 0 < n)

/-- A zero before the point, and zeros between it and the digits. -/
theorem spells_small (n k : ℕ) : Spells ([byte '0', byte '.'] ++
      (List.replicate k (byte '0') ++ digitBytes n))
    (n * 10 ^ (-((k + (digitBytes n).length : ℕ) : ℤ))) := by
  refine ⟨[byte '0'], some (List.replicate k (byte '0') ++ digitBytes n), false, none,
    whole_digitBytes 0, ?_, ?_, ?_⟩
  · intro digits hdigits
    cases hdigits
    refine ⟨by simp [digitBytes_ne_nil n], fun b hb => ?_⟩
    rcases List.mem_append.1 hb with hb | hb
    · exact isDigit_of_mem_zeros hb
    · exact isDigit_of_mem_digitBytes hb
  · rw [exponentBytes, List.append_nil]
    rfl
  · have hzeros : ofDigits ([byte '0'] ++ (List.replicate k (byte '0') ++ digitBytes n)) = n := by
      rw [ofDigits_append, ofDigits_append, ofDigits_zeros, ofDigits_digitBytes]
      simp [ofDigits, digitValue, byte]
    rw [Option.getD_some, hzeros, Option.getD_none, zero_sub, List.length_append,
      List.length_replicate]

/-- A power of ten right after the digits. -/
theorem spells_whole (n : ℕ) (plus : Bool) (exponent : ℤ) :
    Spells (digitBytes n ++ exponentBytes plus (some exponent)) (n * 10 ^ exponent) := by
  refine ⟨digitBytes n, none, plus, some exponent, whole_digitBytes n, by simp, rfl, ?_⟩
  rw [Option.getD_none, List.append_nil, ofDigits_digitBytes]
  simp

include hn

theorem whole_padded (k : ℕ) : Whole (digitBytes n ++ List.replicate k (byte '0')) := by
  refine ⟨by simp [digitBytes_ne_nil n], fun b hb => ?_, fun h => ?_⟩
  · rcases List.mem_append.1 hb with hb | hb
    · exact isDigit_of_mem_digitBytes hb
    · exact isDigit_of_mem_zeros hb
  · obtain ⟨b, tail, hcons⟩ := List.exists_cons_of_ne_nil (digitBytes_ne_nil n)
    have hhead := head?_digitBytes_of_pos hn
    rw [hcons] at h hhead
    exact hhead h.1

/-- Zeros after the digits, up to the place of the ones, and perhaps one more after a point. -/
theorem spells_padded (k : ℕ) {suffix : String} (hsuffix : suffix = "" ∨ suffix = ".0") :
    Spells (digitBytes n ++ List.replicate k (byte '0') ++ suffix.toList.map byte)
      (n * 10 ^ (k : ℤ)) := by
  have hpadded : ofDigits (digitBytes n ++ List.replicate k (byte '0')) = n * 10 ^ k := by
    rw [ofDigits_append, ofDigits_zeros, ofDigits_digitBytes, List.length_replicate, Nat.add_zero]
  rcases hsuffix with rfl | rfl
  · refine ⟨_, none, false, none, whole_padded hn k, by simp, ?_, ?_⟩
    · rw [fractionBytes, exponentBytes, List.append_nil]
      rfl
    · rw [Option.getD_none, List.append_nil, hpadded]
      simp
  · refine ⟨_, some [byte '0'], false, none, whole_padded hn k, ?_, ?_, ?_⟩
    · intro digits hdigits
      cases hdigits
      refine ⟨List.cons_ne_nil _ _, fun b hb => ?_⟩
      rw [List.mem_singleton.1 hb]
      rfl
    · rw [exponentBytes, List.append_nil]
      rfl
    · have hzero : ofDigits [byte '0'] = 0 := rfl
      rw [Option.getD_some, ofDigits_append, hpadded, hzero]
      simp

/-- A point among the digits, and perhaps a power of ten after them. -/
theorem spells_pointed {k : ℕ} (hk : 0 < k) (hlength : k < (digitBytes n).length) (plus : Bool)
    (exponent : Option ℤ) :
    Spells ((digitBytes n).take k ++ (byte '.' :: (digitBytes n).drop k ++
        exponentBytes plus exponent))
      (n * 10 ^ (exponent.getD 0 + k - (digitBytes n).length)) := by
  refine ⟨(digitBytes n).take k, some ((digitBytes n).drop k), plus, exponent, ?_, ?_, rfl, ?_⟩
  · refine ⟨?_, fun b hb => isDigit_of_mem_digitBytes (List.mem_of_mem_take hb), fun h => ?_⟩
    · rw [ne_eq, List.take_eq_nil_iff]
      rintro (h | h)
      · omega
      · exact digitBytes_ne_nil n h
    · rw [List.head?_take, if_neg hk.ne'] at h
      exact head?_digitBytes_of_pos hn h.1
  · intro digits hdigits
    cases hdigits
    refine ⟨?_, fun b hb => isDigit_of_mem_digitBytes (List.mem_of_mem_drop hb)⟩
    rw [ne_eq, List.drop_eq_nil_iff]
    omega
  · rw [Option.getD_some, List.take_append_drop, ofDigits_digitBytes, List.length_drop]
    congr 2
    omega

end Forms

theorem spells_positionalText {n : ℕ} (hn : 0 < n) (power : ℤ) {suffix : String}
    (hsuffix : suffix = "" ∨ suffix = ".0") :
    Spells (bytes (Decimal.positionalText (Decimal.digitsOf n) power suffix))
      (n * 10 ^ (power + 1 - (digitBytes n).length)) := by
  have hlength : (Decimal.digitsOf n).length = (digitBytes n).length := (List.length_map _).symm
  have hvisible := all_isVisible_positionalText (all_isVisible_digitsOf n)
    (visible_of_suffix hsuffix) power
  rw [bytes_of_visible hvisible, Decimal.positionalText]
  split
  · have hpower : power + 1 - (digitBytes n).length =
        -(((-power).toNat - 1 + (digitBytes n).length : ℕ) : ℤ) := by omega
    have hlead : List.map byte "0.".toList = [byte '0', byte '.'] := rfl
    rw [hpower, String.toList_append, List.map_append, hlead, String.toList_ofList,
      List.map_append, List.map_replicate]
    exact spells_small n _
  · simp only [hlength]
    split
    · rename_i hle
      have hpower : power + 1 - (digitBytes n).length =
          ((power.toNat + 1 - (digitBytes n).length : ℕ) : ℤ) := by omega
      rw [hpower, String.toList_append, String.toList_ofList, List.map_append, List.map_append,
        List.map_replicate]
      exact spells_padded hn _ hsuffix
    · rename_i hlt
      have h := spells_pointed hn (Nat.succ_pos power.toNat) (Nat.lt_of_not_le hlt) false none
      have hpower : power + 1 - (digitBytes n).length =
          (none : Option ℤ).getD 0 + (power.toNat + 1 : ℕ) - (digitBytes n).length := by
        rw [Option.getD_none]
        omega
      rw [hpower, String.toList_ofList, List.map_append, List.map_take, List.map_cons,
        List.map_drop]
      rw [exponentBytes, List.append_nil] at h
      exact h

theorem spells_exponentText {n : ℕ} (hn : 0 < n) (power : ℤ) (plus : Bool) :
    Spells (bytes (Decimal.exponentText (Decimal.digitsOf n) power plus))
      (n * 10 ^ (power + 1 - (digitBytes n).length)) := by
  have hlength : (Decimal.digitsOf n).length = (digitBytes n).length := (List.length_map _).symm
  have hvisible := all_isVisible_exponentText (all_isVisible_digitsOf n) power plus
  rw [bytes_of_visible hvisible, Decimal.exponentText, hlength]
  -- The mark, the sign and the digits of the power.
  have hexponent : List.map byte ("e" ++ ((if power < 0 then "-" else if plus then "+" else "") ++
      String.ofList (Decimal.digitsOf power.natAbs))).toList = exponentBytes plus (some power) := by
    rw [exponentBytes, String.toList_append, String.toList_append, String.toList_ofList]
    cases plus <;> split <;> simp [digitBytes, Decimal.digitsOf]
  rw [String.append_assoc, String.append_assoc, String.toList_append, List.map_append, hexponent,
    String.toList_ofList, List.map_append]
  have hpos : 0 < (digitBytes n).length := List.length_pos_iff.2 (digitBytes_ne_nil n)
  by_cases hone : (digitBytes n).length ≤ 1
  · have hpower : power + 1 - (digitBytes n).length = power := by omega
    have hall : List.map byte ((Decimal.digitsOf n).take 1) = digitBytes n := by
      rw [List.take_of_length_le (hlength ▸ hone)]
      rfl
    rw [if_pos hone, hpower, hall, List.map_nil, List.append_nil]
    exact spells_whole n plus power
  · rw [if_neg hone, List.map_cons, List.map_take, List.map_drop, List.append_assoc]
    exact spells_pointed hn Nat.one_pos (Nat.lt_of_not_le hone) plus (some power)

end Number

/-! ## 5. Reading -/

/-- A finite double other than zero is written as its magnitude with its sign. -/
theorem Style.bytes_real (style : Style) {x : Binary64} (hfinite : x.isFinite)
    (hzero : ¬x.isZero) : bytes (style.real x) =
      (if x.negative then [byte '-'] else []) ++ bytes (style.number.writeMagnitude x) := by
  have hnan := Binary64.isNaN_of_isFinite hfinite
  have hinfinite : x.isInfinite = false :=
    beq_eq_false_iff_ne.2 (UInt64.ne_of_lt (of_decide_eq_true hfinite))
  have hnotZero : x.isZero = false := Bool.eq_false_iff.2 hzero
  rw [Style.real, Decimal.Layout.write, hnan, hinfinite, hnotZero]
  simp only [Bool.false_eq_true, if_false, Bool.not_false, Bool.or_true, Bool.and_true,
    bytes_append]
  cases x.negative <;> rfl

/-- Doubles are written as their shortest decimals. A whole number may end with a zero after a
point. -/
structure Style.Exact (style : Style) : Prop where
  tie : style.number.tie = .toEven
  suffix : style.number.wholeSuffix = "" ∨ style.number.wholeSuffix = ".0"

theorem exact_compact : compact.Exact := ⟨rfl, Or.inr rfl⟩

theorem exact_canonical : canonical.Exact := ⟨rfl, Or.inl rfl⟩

namespace Style.Exact

variable {style : Style} (h : style.Exact)

include h

/-- The text of a magnitude spells its shortest decimal. -/
theorem spells_writeMagnitude {x : Binary64} (hfinite : x.isFinite) (hzero : ¬x.isZero) :
    Number.Spells (bytes (style.number.writeMagnitude x))
      (Decimal.shortest x .toEven).value := by
  have hpos : 0 < (Decimal.shortest x .toEven).significand := by
    have hvalue := (Decimal.rounds_shortest hfinite hzero .toEven).pos hzero
    by_contra hnot
    rw [Decimal.value, Nat.eq_zero_of_not_pos hnot, Nat.cast_zero, zero_mul] at hvalue
    exact lt_irrefl _ hvalue
  rw [Decimal.Layout.writeMagnitude, h.tie, Decimal.value]
  generalize Decimal.shortest x .toEven = d at hpos ⊢
  have hlength : (Decimal.digitsOf d.significand).length = (digitBytes d.significand).length :=
    (List.length_map _).symm
  -- The power of the first digit, from which either form is laid out, gives back the exponent.
  have hpower : d.exponent + (digitBytes d.significand).length - 1 + 1 -
      (digitBytes d.significand).length = d.exponent := by omega
  simp only [hlength]
  split
  · have hspells := Number.spells_positionalText hpos
      (d.exponent + (digitBytes d.significand).length - 1) h.suffix
    rwa [hpower] at hspells
  · have hspells := Number.spells_exponentText hpos
      (d.exponent + (digitBytes d.significand).length - 1) style.number.exponentPlus
    rwa [hpower] at hspells

/-- What is spelt is read as the double that it is rounded to, with the sign before it. -/
theorem reads_real {x : Binary64} (hfinite : x.isFinite) (hzero : ¬x.isZero) :
    Reads Reader.real (style.real x) x := by
  have hspells := h.spells_writeMagnitude hfinite hzero
  obtain ⟨number, htake, hdouble⟩ :=
    hspells.take hfinite hzero (Decimal.rounds_shortest hfinite hzero .toEven)
  obtain ⟨b, hhead, hdigit⟩ := hspells.head
  have hbytes := style.bytes_real hfinite hzero
  suffices hnumber : Reads Reader.anyNumber (style.real x) number by
    rw [Reader.real_eq]
    have hreads := hnumber.map Number.double
    rwa [hdouble] at hreads
  cases hneg : x.negative with
  | true =>
    rw [hneg] at htake hbytes
    apply reads_anyNumber
    · rw [hbytes]
      exact ⟨byte '-', rfl, Or.inl rfl⟩
    · intro bound
      rw [hbytes]
      exact htake
  | false =>
    rw [hneg] at htake hbytes
    apply reads_anyNumber
    · rw [hbytes]
      exact ⟨b, hhead, Or.inr hdigit⟩
    · intro bound
      rw [hbytes, if_neg Bool.false_ne_true, List.nil_append]
      obtain ⟨tail, hcons⟩ := List.head?_eq_some_iff.1 hhead
      rw [hcons] at htake ⊢
      have hminus : b ≠ byte '-' := by
        rintro rfl
        cases hdigit
      exact (if_neg hminus).trans htake

end Style.Exact

/-- The canonical text of a finite double is read as the double, but a zero loses its sign. -/
theorem decode_real_canonical {x : Binary64} (hfinite : x.isFinite) :
    decode Reader.real (bytes (canonical.real x)) = .ok x.unsignZero := by
  by_cases hzero : x.isZero
  · rw [← real_canonical_unsignZero, Binary64.unsignZero, if_pos hzero]
    rfl
  · rw [Binary64.unsignZero, if_neg hzero]
    exact (exact_canonical.reads_real hfinite hzero).decode

/-- The compact text of a finite double is read as the double. -/
theorem decode_real_compact {x : Binary64} (hfinite : x.isFinite) :
    decode Reader.real (bytes (compact.real x)) = .ok x := by
  by_cases hzero : x.isZero
  · rcases Binary64.eq_zero_or_of_isZero hzero with rfl | rfl <;> rfl
  · exact (exact_compact.reads_real hfinite hzero).decode

end Json

end RevisionLedger
