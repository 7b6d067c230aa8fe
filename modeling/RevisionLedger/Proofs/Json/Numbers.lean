import Mathlib.Data.List.TakeWhile
import RevisionLedger.Proofs.Json.Reading

/-!
# Numbers are read back

A number has no mark at its end: what follows it decides where it stops. `Local` says of a function
that takes something from the front of its input that bytes which can follow a value change nothing.
All that takes a part of a number is local, so it is enough to read a number text that stands alone.

An integer is read as itself (`reads_int32`, `reads_int64`, `reads_uint64`). Of a double it is known
only what the reader makes of the text alone, and that is what it makes of the text anywhere
(`reads_real`).
-/

namespace RevisionLedger.Json

variable {α β : Type}

/-! ## 1. Taking from the front -/

/-- What is taken from an input is taken as well if a value can end after the input, and what is
left over is the end of the input. -/
def Local (take : List UInt8 → Except Fault (α × List UInt8)) : Prop :=
  ∀ input value rest, take input = .ok (value, rest) →
    rest <:+ input ∧ ∀ more, Ends more → take (input ++ more) = .ok (value, rest ++ more)

theorem Local.bind {take : List UInt8 → Except Fault (α × List UInt8)} (h : Local take)
    (next : α → List UInt8 → Except Fault (β × List UInt8)) (hnext : ∀ value, Local (next value)) :
    Local fun input => take input >>= fun taken => next taken.1 taken.2 := by
  intro input last rest hlast
  cases htake : take input with
  | error fault =>
    simp only [htake] at hlast
    cases hlast
  | ok taken =>
    simp only [htake] at hlast
    obtain ⟨hsuffix, hmore⟩ := h input taken.1 taken.2 htake
    obtain ⟨hsuffix', hmore'⟩ := hnext taken.1 taken.2 last rest hlast
    refine ⟨hsuffix'.trans hsuffix, fun more hends => ?_⟩
    simp only [hmore more hends]
    exact hmore' more hends

theorem local_ok (value : α) : Local fun input => .ok (value, input) := by
  intro input found rest h
  cases h
  exact ⟨List.suffix_refl _, fun _ _ => rfl⟩

theorem local_error (fault : Fault) :
    Local fun _ : List UInt8 => (.error fault : Except Fault (α × List UInt8)) := by
  intro input found rest h
  cases h

theorem local_result (result : Except Fault α) :
    Local fun input => result >>= fun value => .ok (value, input) := by
  cases result with
  | ok value => exact local_ok value
  | error fault => exact local_error fault

/-- What is taken after a first byte `b` is taken from the rest of the input. -/
theorem Local.afterByte {take take' : List UInt8 → Except Fault (α × List UInt8)} (h : Local take')
    {b : UInt8} (heq : ∀ tail, take (b :: tail) = take' tail) (tail : List UInt8) (value : α)
    (rest : List UInt8) (htake : take (b :: tail) = .ok (value, rest)) :
    rest <:+ b :: tail ∧
      ∀ more, Ends more → take (b :: tail ++ more) = .ok (value, rest ++ more) := by
  rw [heq] at htake
  obtain ⟨hsuffix, hmore⟩ := h tail value rest htake
  refine ⟨hsuffix.trans (List.suffix_cons b tail), fun more hends => ?_⟩
  rw [List.cons_append, heq]
  exact hmore more hends

/-- What is taken where the input starts with `b` is taken from there on. -/
theorem Local.fromByte {take take' : List UInt8 → Except Fault (α × List UInt8)} (h : Local take')
    {b : UInt8} (heq : ∀ tail, take (b :: tail) = take' (b :: tail)) (tail : List UInt8) (value : α)
    (rest : List UInt8) (htake : take (b :: tail) = .ok (value, rest)) :
    rest <:+ b :: tail ∧
      ∀ more, Ends more → take (b :: tail ++ more) = .ok (value, rest ++ more) := by
  rw [heq] at htake
  obtain ⟨hsuffix, hmore⟩ := h (b :: tail) value rest htake
  refine ⟨hsuffix, fun more hends => ?_⟩
  rw [List.cons_append, heq]
  exact hmore more hends

/-! ## 2. The parts of a number -/

theorem isDigit_of_ends {more : List UInt8} (h : Ends more) :
    ∀ b ∈ more.head?, isDigit b = false := by
  intro b hb
  rcases h b hb with rfl | rfl <;> rfl

theorem takeWhile_isDigit_of_ends {more : List UInt8} (h : Ends more) :
    more.takeWhile isDigit = [] := by
  cases more with
  | nil => rfl
  | cons b rest =>
    rw [List.takeWhile_cons_of_neg (by rw [isDigit_of_ends h b rfl]; exact Bool.false_ne_true)]

theorem dropWhile_isDigit_of_ends {more : List UInt8} (h : Ends more) :
    more.dropWhile isDigit = more := by
  cases more with
  | nil => rfl
  | cons b rest =>
    rw [List.dropWhile_cons_of_neg (by rw [isDigit_of_ends h b rfl]; exact Bool.false_ne_true)]

namespace Number

theorem local_takeDigits : Local takeDigits := by
  intro input digits rest h
  unfold takeDigits at h
  split at h
  · cases h
  · rename_i b tail
    split at h
    · rename_i hdigit
      obtain ⟨rfl, rfl⟩ := Prod.mk.inj (Except.ok.inj h)
      refine ⟨List.dropWhile_suffix _, fun more hends => ?_⟩
      -- Neither a comma nor a brace is a digit, so the digits end where they ended.
      have htake : (b :: tail ++ more).takeWhile isDigit = (b :: tail).takeWhile isDigit := by
        rw [List.takeWhile_append, takeWhile_isDigit_of_ends hends, List.append_nil]
        split
        · rename_i hlength
          exact ((List.takeWhile_prefix _).eq_of_length hlength).symm
        · rfl
      have hdrop : (b :: tail ++ more).dropWhile isDigit =
          (b :: tail).dropWhile isDigit ++ more := by
        rw [List.dropWhile_append, dropWhile_isDigit_of_ends hends]
        split
        · rename_i hempty
          rw [List.isEmpty_iff.1 hempty, List.nil_append]
        · rfl
      rw [← htake, ← hdrop]
      exact if_pos hdigit
    · cases h

theorem local_takeWhole : Local takeWhole := by
  refine local_takeDigits.bind (fun digits rest =>
    if digits.head? = some (byte '0') ∧ digits.length ≠ 1 then .error .malformed
    else .ok (digits, rest)) fun digits => ?_
  by_cases h : digits.head? = some (byte '0') ∧ digits.length ≠ 1
  · simp only [if_pos h]
    exact local_error _
  · simp only [if_neg h]
    exact local_ok _

theorem takeFraction_of_ends {more : List UInt8} (h : Ends more) :
    takeFraction more = .ok (none, more) := by
  cases more with
  | nil => rfl
  | cons b rest => exact if_neg fun hb => by rcases h b rfl with rfl | rfl <;> cases hb

theorem local_takeFraction : Local takeFraction := by
  intro input fraction rest h
  cases input with
  | nil =>
    cases h
    exact ⟨List.suffix_refl _, fun more hends => takeFraction_of_ends hends⟩
  | cons b tail =>
    by_cases hb : b = byte '.'
    · have hlocal := local_takeDigits.bind (fun digits rest => .ok (some digits, rest))
        fun digits => local_ok (some digits)
      exact hlocal.afterByte (fun tail => if_pos hb) tail fraction rest h
    · exact (local_ok none).fromByte (fun tail => if_neg hb) tail fraction rest h

theorem local_takeSignedDigits : Local takeSignedDigits := by
  have hlocal (sign : Int → Int) := local_takeDigits.bind (fun digits rest =>
    .ok (sign (ofDigits digits), rest)) fun digits => local_ok (sign (ofDigits digits))
  intro input exponent rest h
  cases input with
  | nil => cases h
  | cons b tail =>
    by_cases hminus : b = byte '-'
    · refine (hlocal (-·)).afterByte (fun tail => ?_) tail exponent rest h
      simp only [takeSignedDigits, if_pos hminus]
    · by_cases hplus : b = byte '+'
      · refine (hlocal id).afterByte (fun tail => ?_) tail exponent rest h
        simp only [takeSignedDigits, if_neg hminus, if_pos hplus]
        rfl
      · refine (hlocal id).fromByte (fun tail => ?_) tail exponent rest h
        simp only [takeSignedDigits, if_neg hminus, if_neg hplus]
        rfl

theorem takeExponent_of_ends {more : List UInt8} (h : Ends more) :
    takeExponent more = .ok (none, more) := by
  cases more with
  | nil => rfl
  | cons b rest =>
    exact if_neg fun hb => by rcases h b rfl with rfl | rfl <;> rcases hb with hb | hb <;> cases hb

theorem local_takeExponent : Local takeExponent := by
  intro input exponent rest h
  cases input with
  | nil =>
    cases h
    exact ⟨List.suffix_refl _, fun more hends => takeExponent_of_ends hends⟩
  | cons b tail =>
    by_cases hb : b = byte 'e' ∨ b = byte 'E'
    · have hlocal := local_takeSignedDigits.bind (fun exponent rest => .ok (some exponent, rest))
        fun exponent => local_ok (some exponent)
      exact hlocal.afterByte (fun tail => if_pos hb) tail exponent rest h
    · exact (local_ok none).fromByte (fun tail => if_neg hb) tail exponent rest h

theorem local_takeUnsigned (negative : Bool) : Local (takeUnsigned negative) := by
  -- One part after another; the last step makes the number and takes nothing.
  refine local_takeWhole.bind (fun whole rest =>
    takeFraction rest >>= fun fraction => takeExponent fraction.2 >>= fun exponent =>
      ofParts negative whole fraction.1 exponent.1 >>= fun number => .ok (number, exponent.2))
    fun whole => ?_
  refine local_takeFraction.bind (fun fraction rest => takeExponent rest >>= fun exponent =>
    ofParts negative whole fraction exponent.1 >>= fun number => .ok (number, exponent.2))
    fun fraction => ?_
  exact local_takeExponent.bind (fun exponent rest =>
    ofParts negative whole fraction exponent >>= fun number => .ok (number, rest))
    fun exponent => local_result _

end Number

theorem local_number (bound : Nat) : Local (Reader.number bound) := by
  intro input number rest h
  cases input with
  | nil => cases h
  | cons b tail =>
    by_cases hb : b = byte '-'
    · exact (Number.local_takeUnsigned true).afterByte (fun tail => if_pos hb) tail number rest h
    · exact (Number.local_takeUnsigned false).fromByte (fun tail => if_neg hb) tail number rest h

/-! ## 3. Number texts -/

/-- Whether a byte starts a number. -/
def startsNumber (b : UInt8) : Prop := b = byte '-' ∨ isDigit b

/-- All blanks are codes up to that of the space. -/
theorem isBlank_of_lt {b : UInt8} (h : 0x20 < b.toNat) : isBlank b = false := by
  have hne (d : UInt8) (hd : d.toNat ≤ 0x20) : (b == d) = false := by
    rw [beq_eq_false_iff_ne]
    intro heq
    rw [heq] at h
    omega
  rw [isBlank, hne _ (by decide), hne _ (by decide), hne _ (by decide), hne _ (by decide)]
  rfl

theorem isBlank_of_startsNumber {b : UInt8} (h : startsNumber b) : isBlank b = false := by
  rcases h with rfl | h
  · rfl
  · simp only [isDigit, Bool.and_eq_true, decide_eq_true_eq, UInt8.le_iff_toNat_le] at h
    have hleast : (0x30 : UInt8).toNat = 48 := rfl
    exact isBlank_of_lt (by omega)

theorem reads_anyNumber {text : String} {number : Number}
    (hstarts : ∃ b, (bytes text).head? = some b ∧ startsNumber b)
    (h : ∀ bound, Reader.number bound (bytes text) = .ok (number, [])) :
    Reads Reader.anyNumber text number := by
  intro bound rest _ hends
  obtain ⟨b, hhead, hb⟩ := hstarts
  obtain ⟨-, hmore⟩ := local_number bound _ _ _ (h bound)
  have hpeek : Reader.peek bound (bytes text ++ rest) = .ok (b, bytes text ++ rest) :=
    Reader.peek_append hhead (isBlank_of_startsNumber hb) rest
  have hfirst : b = byte '-' ∨ isDigit b := hb
  rw [Reader.anyNumber, Reader.bind_of_ok hpeek, if_pos hfirst, hmore rest hends]
  rfl

/-! ## 4. Integers -/

/-- The digits of a number in bytes. -/
def digitBytes (n : Nat) : List UInt8 := (Nat.toDigits 10 n).map byte

theorem toNat_byte_of_isDigit {c : Char} (h : c.isDigit) : (byte c).toNat = c.toNat := by
  have hle : c.toNat ≤ 57 := (Char.isDigit_iff_toNat.1 h).2
  exact toNat_byte (by omega)

theorem isDigit_byte {c : Char} (h : c.isDigit) : isDigit (byte c) := by
  have hcode := Char.isDigit_iff_toNat.1 h
  simp only [isDigit, Bool.and_eq_true, decide_eq_true_eq, UInt8.le_iff_toNat_le,
    toNat_byte_of_isDigit h]
  exact hcode

theorem isDigit_of_mem_digitBytes {n : Nat} {b : UInt8} (h : b ∈ digitBytes n) : isDigit b := by
  obtain ⟨c, hc, rfl⟩ := List.mem_map.1 h
  exact isDigit_byte (Nat.isDigit_of_mem_toDigits (by decide) (by decide) hc)

theorem digitBytes_ne_nil (n : Nat) : digitBytes n ≠ [] := fun h =>
  Nat.toDigits_ne_nil (List.map_eq_nil_iff.1 h)

theorem ofDigits_digitBytes (n : Nat) : Number.ofDigits (digitBytes n) = n := by
  -- The fold over bytes is the one over characters, whatever it starts from.
  have hfold (chars : List Char) (h : ∀ c ∈ chars, c.isDigit) (start : Nat) :
      (chars.map byte).foldl (fun n b => n * 10 + digitValue b) start =
        Nat.ofDigitChars 10 chars start := by
    induction chars generalizing start with
    | nil => rfl
    | cons c rest ih =>
      have hc : digitValue (byte c) = c.toNat - '0'.toNat := by
        rw [digitValue, toNat_byte_of_isDigit (h c List.mem_cons_self)]
        rfl
      rw [List.map_cons, List.foldl_cons, hc, ih (fun d hd => h d (List.mem_cons_of_mem _ hd)),
        Nat.ofDigitChars_cons, Nat.mul_comm]
  rw [Number.ofDigits, digitBytes, hfold _ fun c hc =>
    Nat.isDigit_of_mem_toDigits (by decide) (by decide) hc]
  exact Nat.ofDigitChars_ten_toDigits

/-- Only zero starts with the digit zero. -/
theorem head?_digitBytes {n : Nat} (h : 10 ≤ n) : (digitBytes n).head? ≠ some (byte '0') := by
  -- The first digit is that of a tenth of the number, down to a number of one digit.
  induction n using Nat.strongRecOn with
  | ind n ih =>
    have hdigits : digitBytes n = digitBytes (n / 10) ++ [byte (Nat.digitChar (n % 10))] := by
      rw [digitBytes, Nat.toDigits_of_base_le (by decide) h, List.map_append]
      rfl
    have hhead : (digitBytes n).head? = (digitBytes (n / 10)).head? := by
      obtain ⟨b, tail, hcons⟩ := List.exists_cons_of_ne_nil (digitBytes_ne_nil (n / 10))
      rw [hdigits, hcons]
      rfl
    rw [hhead]
    by_cases hten : 10 ≤ n / 10
    · exact ih (n / 10) (Nat.div_lt_self (by omega) (by decide)) hten
    · have hdigit : ∀ d < 10, 0 < d → (digitBytes d).head? ≠ some (byte '0') := by decide
      exact hdigit (n / 10) (by omega) (by omega)

namespace Number

/-- Digits are taken up to something else. -/
theorem takeDigits_append {digits rest : List UInt8} (hne : digits ≠ [])
    (hdigits : ∀ b ∈ digits, isDigit b) (hrest : ∀ b ∈ rest.head?, isDigit b = false) :
    takeDigits (digits ++ rest) = .ok (digits, rest) := by
  have hstop : rest.takeWhile isDigit = [] ∧ rest.dropWhile isDigit = rest := by
    cases rest with
    | nil => exact ⟨rfl, rfl⟩
    | cons b tail =>
      have hb : ¬isDigit b := by simp [hrest b rfl]
      exact ⟨List.takeWhile_cons_of_neg hb, List.dropWhile_cons_of_neg hb⟩
  have htake : (digits ++ rest).takeWhile isDigit = digits := by
    rw [List.takeWhile_append_of_pos hdigits, hstop.1, List.append_nil]
  have hdrop : (digits ++ rest).dropWhile isDigit = rest := by
    rw [List.dropWhile_append_of_pos hdigits, hstop.2]
  cases digits with
  | nil => exact absurd rfl hne
  | cons b tail =>
    rw [List.cons_append, takeDigits, if_pos (hdigits b List.mem_cons_self), ← List.cons_append,
      htake, hdrop]

theorem isDigit_head?_nil : ∀ b ∈ ([] : List UInt8).head?, isDigit b = false := by
  intro b hb
  cases hb

/-- Digits without a zero before others. -/
structure Whole (digits : List UInt8) : Prop where
  ne_nil : digits ≠ []
  all : ∀ b ∈ digits, isDigit b
  head : ¬(digits.head? = some (byte '0') ∧ digits.length ≠ 1)

theorem Whole.take {digits : List UInt8} (h : Whole digits) {rest : List UInt8}
    (hrest : ∀ b ∈ rest.head?, isDigit b = false) :
    takeWhole (digits ++ rest) = .ok (digits, rest) := by
  rw [takeWhole, takeDigits_append h.ne_nil h.all hrest]
  exact if_neg h.head

theorem whole_digitBytes (n : Nat) : Whole (digitBytes n) where
  ne_nil := digitBytes_ne_nil n
  all _ := isDigit_of_mem_digitBytes
  head := by
    intro ⟨hhead, hlength⟩
    by_cases hten : 10 ≤ n
    · exact head?_digitBytes hten hhead
    · rw [digitBytes, Nat.toDigits_of_lt_base (by omega)] at hlength
      exact hlength rfl

end Number

theorem takeUnsigned_digitBytes (negative : Bool) (n : Nat) :
    Number.takeUnsigned negative (digitBytes n) =
      (Number.ofParts negative (digitBytes n) none none).map fun number => (number, []) := by
  have hwhole := (Number.whole_digitBytes n).take Number.isDigit_head?_nil
  rw [List.append_nil] at hwhole
  rw [Number.takeUnsigned, hwhole]
  show (Number.ofParts negative (digitBytes n) none none >>= fun number => .ok (number, [])) = _
  cases Number.ofParts negative (digitBytes n) none none <;> rfl

theorem bytes_repr (n : Nat) : bytes n.repr = digitBytes n := by
  rw [bytes_eq_flatMap, Nat.toList_repr]
  refine flatMap_utf8EncodeChar_of_ascii fun c hc => ?_
  have hdigit : c.isDigit := Nat.isDigit_of_mem_toDigits (by decide) (by decide) hc
  have hle : c.toNat ≤ 57 := (Char.isDigit_iff_toNat.1 hdigit).2
  omega

theorem reads_natural {n : Nat} (h : n < UInt64.size) :
    Reads Reader.anyNumber n.repr (.natural n) := by
  obtain ⟨b, tail, hcons⟩ := List.exists_cons_of_ne_nil (digitBytes_ne_nil n)
  have hdigit : isDigit b := isDigit_of_mem_digitBytes (by rw [hcons]; exact List.mem_cons_self)
  refine reads_anyNumber ⟨b, by rw [bytes_repr, hcons]; rfl, Or.inr hdigit⟩ fun bound => ?_
  have hunsigned : Reader.number bound (digitBytes n) =
      Number.takeUnsigned false (digitBytes n) := by
    rw [hcons]
    exact if_neg fun hb => by rw [hb] at hdigit; exact absurd hdigit (by decide)
  rw [bytes_repr, hunsigned, takeUnsigned_digitBytes, Number.ofParts, ofDigits_digitBytes]
  simp only [Bool.not_false, true_and, if_pos h]
  rfl

theorem reads_negative {n : Nat} (hne : n ≠ 0) (hmin : Int64.minValue.toInt ≤ -(n : Int)) :
    Reads Reader.anyNumber ("-" ++ n.repr) (.negative (-(n : Int))) := by
  have hbytes : bytes ("-" ++ n.repr) = byte '-' :: digitBytes n := by
    rw [bytes_append, bytes_repr]
    rfl
  refine reads_anyNumber ⟨byte '-', by rw [hbytes]; rfl, Or.inl rfl⟩ fun bound => ?_
  have hunsigned : Reader.number bound (byte '-' :: digitBytes n) =
      Number.takeUnsigned true (digitBytes n) := rfl
  rw [hbytes, hunsigned, takeUnsigned_digitBytes, Number.ofParts, ofDigits_digitBytes]
  simp only [Bool.not_true, Bool.false_eq_true, false_and, if_false, true_and,
    if_pos (And.intro hne hmin)]
  rfl

/-- An integer is read as itself if a signed or an unsigned word of 64 bits holds it. -/
theorem reads_integer {n least greatest : Int} (hleast : least ≤ n) (hgreatest : n ≤ greatest)
    (hmin : Int64.minValue.toInt ≤ n) (hmax : n < UInt64.size) :
    Reads (Reader.integer least greatest) (toString n) n := by
  intro bound rest hbound hends
  rw [Int.toString_eq_repr, Int.repr_eq_if] at hbound ⊢
  have hpure : (pure n : Reader Int) bound rest = .ok (n, rest) := rfl
  by_cases hsign : 0 ≤ n
  · rw [if_pos hsign] at hbound ⊢
    have hreads := reads_natural (n := n.toNat) (by omega) bound rest hbound hends
    have hback : (n.toNat : Int) = n := Int.toNat_of_nonneg hsign
    rw [Reader.integer, Reader.bind_of_ok hreads]
    simp only [hback]
    rw [Reader.bind_of_ok hpure, if_pos ⟨hleast, hgreatest⟩]
    rfl
  · -- The sign and the digits of the opposite.
    rw [if_neg hsign] at hbound ⊢
    have hback : -((-n).toNat : Int) = n := by omega
    have hreads := reads_negative (n := (-n).toNat) (by omega) (by omega) bound rest hbound hends
    rw [hback] at hreads
    rw [Reader.integer, Reader.bind_of_ok hreads]
    simp only []
    rw [Reader.bind_of_ok hpure, if_pos ⟨hleast, hgreatest⟩]
    rfl

theorem reads_int32 (n : Int32) : Reads Reader.int32 (toString n) n := by
  have hleast := n.minValue_le_toInt
  have hgreatest := n.toInt_le
  have hmin : Int64.minValue.toInt ≤ Int32.minValue.toInt := by decide
  have hmax : Int32.maxValue.toInt < UInt64.size := by decide
  have h := (reads_integer hleast hgreatest (by omega) (by omega)).map Int32.ofInt
  rw [Int32.ofInt_toInt] at h
  exact h

theorem reads_int64 (n : Int64) : Reads Reader.int64 (toString n) n := by
  have hleast := n.minValue_le_toInt
  have hgreatest := n.toInt_le
  have hmax : Int64.maxValue.toInt < UInt64.size := by decide
  have h := (reads_integer hleast hgreatest hleast (by omega)).map Int64.ofInt
  rw [Int64.ofInt_toInt] at h
  exact h

theorem reads_uint64 (n : UInt64) : Reads Reader.uint64 (toString n) n := by
  have hlt : n.toNat < UInt64.size := n.toNat_lt
  have hmin : Int64.minValue.toInt ≤ 0 := by decide
  have hinteger : Reads (Reader.integer 0 (UInt64.size - 1)) (toString (n.toNat : Int)) n.toNat :=
    reads_integer (by omega) (by omega) (by omega) (by omega)
  have h := hinteger.map fun n => UInt64.ofNat n.toNat
  rw [Int.toNat_natCast, UInt64.ofNat_toNat] at h
  exact h

/-! ## 5. Doubles -/

/-- A visible character of ASCII. -/
def isVisible (c : Char) : Bool := 0x20 < c.toNat && c.toNat < 0x7f

theorem all_isVisible_digitsOf (n : Nat) : (Decimal.digitsOf n).all isVisible := by
  apply List.all_eq_true.2
  intro c h
  have hdigit : c.isDigit := Nat.isDigit_of_mem_toDigits (by decide) (by decide) h
  obtain ⟨hleast, hgreatest⟩ := Char.isDigit_iff_toNat.1 hdigit
  have hzero : '0'.toNat = 48 := rfl
  have hnine : '9'.toNat = 57 := rfl
  simp only [isVisible, Bool.and_eq_true, decide_eq_true_eq]
  omega

theorem all_isVisible_take {chars : List Char} (h : chars.all isVisible) (n : Nat) :
    (chars.take n).all isVisible :=
  List.all_eq_true.2 fun c hc => List.all_eq_true.1 h c (List.mem_of_mem_take hc)

theorem all_isVisible_drop {chars : List Char} (h : chars.all isVisible) (n : Nat) :
    (chars.drop n).all isVisible :=
  List.all_eq_true.2 fun c hc => List.all_eq_true.1 h c (List.mem_of_mem_drop hc)

theorem all_isVisible_positionalText {digits : List Char} {suffix : String}
    (hdigits : digits.all isVisible) (hsuffix : suffix.toList.all isVisible) (power : Int) :
    (Decimal.positionalText digits power suffix).toList.all isVisible := by
  have hzeros (n : Nat) : (List.replicate n '0').all isVisible :=
    List.all_eq_true.2 fun c hc => by rw [List.eq_of_mem_replicate hc]; rfl
  have htake := all_isVisible_take hdigits
  have hdrop := all_isVisible_drop hdigits
  have hpoint : isVisible '.' := rfl
  have hlead : ("0.".toList).all isVisible := rfl
  unfold Decimal.positionalText
  split
  · rw [String.toList_append, List.all_append, hlead, String.toList_ofList, List.all_append,
      hzeros, hdigits]
    rfl
  · simp only []
    split
    · rw [String.toList_append, List.all_append, hsuffix, String.toList_ofList, List.all_append,
        hzeros, hdigits]
      rfl
    · rw [String.toList_ofList, List.all_append, List.all_cons, htake, hdrop, hpoint]
      rfl

theorem all_isVisible_exponentText {digits : List Char} (hdigits : digits.all isVisible)
    (power : Int) (exponentPlus : Bool) :
    (Decimal.exponentText digits power exponentPlus).toList.all isVisible := by
  have htake := all_isVisible_take hdigits 1
  have hdrop : ('.' :: digits.drop 1).all isVisible := by
    rw [List.all_cons, all_isVisible_drop hdigits]
    rfl
  have hfraction : (if digits.length ≤ 1 then [] else '.' :: digits.drop 1).all isVisible := by
    split
    · rfl
    · exact hdrop
  have hsign : (if power < 0 then "-" else if exponentPlus then "+" else "").toList.all
      isVisible := by
    split
    · rfl
    · split <;> rfl
  have hexponent := all_isVisible_digitsOf power.natAbs
  have hmark : ("e".toList).all isVisible := rfl
  simp only [Decimal.exponentText, String.toList_append, String.toList_ofList, List.all_append,
    htake, hfraction, hsign, hexponent, hmark, Bool.and_self]

/-- The text of a finite double has neither blanks nor characters outside ASCII. -/
theorem all_isVisible_write {layout : Decimal.Layout} {x : Binary64} (hfinite : x.isFinite)
    (hsuffix : layout.wholeSuffix.toList.all isVisible) :
    (layout.write x).toList.all isVisible := by
  have hnan : x.isNaN = false := by
    simp only [Binary64.isFinite, decide_eq_true_eq] at hfinite
    exact decide_eq_false (UInt64.not_lt.2 (UInt64.le_of_lt hfinite))
  have hinfinite : x.isInfinite = false := by
    simp only [Binary64.isFinite, decide_eq_true_eq] at hfinite
    exact beq_eq_false_iff_ne.2 (UInt64.ne_of_lt hfinite)
  have hmagnitude : (layout.writeMagnitude x).toList.all isVisible := by
    unfold Decimal.Layout.writeMagnitude
    simp only []
    split
    · exact all_isVisible_positionalText (all_isVisible_digitsOf _) hsuffix _
    · exact all_isVisible_exponentText (all_isVisible_digitsOf _) _ _
  have hsign (signed : Bool) : (if signed then "-" else "").toList.all isVisible := by
    cases signed <;> rfl
  rw [Decimal.Layout.write, hnan, hinfinite]
  simp only [Bool.false_eq_true, if_false, String.toList_append, List.all_append, hsign,
    hmagnitude, Bool.and_self]

theorem isBlank_of_mem_bytes {text : String} (h : text.toList.all isVisible) {b : UInt8}
    (hb : b ∈ bytes text) : isBlank b = false := by
  have hvisible (c : Char) (hc : c ∈ text.toList) : 0x20 < c.toNat ∧ c.toNat < 0x7f := by
    have hall := List.all_eq_true.1 h c hc
    simp only [isVisible, Bool.and_eq_true, decide_eq_true_eq] at hall
    exact hall
  rw [bytes_of_ascii fun c hc => by have := hvisible c hc; omega] at hb
  obtain ⟨c, hc, rfl⟩ := List.mem_map.1 hb
  obtain ⟨hleast, hgreatest⟩ := hvisible c hc
  apply isBlank_of_lt
  rw [toNat_byte (by omega)]
  exact hleast

/-- The double that a number is read as where one is asked for. -/
def Number.double : Number → Binary64
  | .natural n => .ofNat n
  | .negative n => .ofInt n
  | .real x => x

theorem Reader.real_eq : Reader.real = do return (← Reader.anyNumber).double := by
  refine congrArg (Reader.anyNumber >>= ·) (funext fun number => ?_)
  cases number <;> rfl

theorem Reader.bind_fail_ne_ok (reader : Reader β) (fault : Fault) (bound : Nat)
    (input : List UInt8) (result : α × List UInt8) :
    (reader >>= fun _ => (fail fault : Reader α)) bound input ≠ .ok result := by
  intro h
  obtain ⟨_, _, _, hfail⟩ := of_bind_eq_ok h
  cases hfail

/-- A value of the wrong kind never yields anything. -/
theorem Reader.wrongKind_ne_ok (first : UInt8) (bound : Nat) (input : List UInt8)
    (result : α × List UInt8) : (wrongKind first : Reader α) bound input ≠ .ok result := by
  intro h
  -- One case for each first byte that a value of some kind starts with.
  unfold wrongKind at h
  split at h
  · exact bind_fail_ne_ok _ _ _ _ _ h
  split at h
  · exact bind_fail_ne_ok _ _ _ _ _ h
  split at h
  · exact bind_fail_ne_ok _ _ _ _ _ h
  split at h
  · exact bind_fail_ne_ok _ _ _ _ _ h
  split at h
  · obtain ⟨_, _, _, hbody⟩ := of_bind_eq_ok h
    exact bind_fail_ne_ok _ _ _ _ _ hbody
  split at h
  · exact bind_fail_ne_ok _ _ _ _ _ h
  · cases h

theorem Reader.anyNumber_eq_ok {bound : Nat} {input rest : List UInt8} {number : Number}
    (hblank : ∀ b ∈ input, isBlank b = false)
    (h : Reader.anyNumber bound input = .ok (number, rest)) :
    ∃ b, input.head? = some b ∧ startsNumber b ∧
      Reader.number bound input = .ok (number, rest) := by
  obtain ⟨first, between, hpeek, hfirst⟩ := of_bind_eq_ok h
  cases input with
  | nil => cases hpeek
  | cons b tail =>
    rw [peek_cons (hblank b List.mem_cons_self)] at hpeek
    cases hpeek
    split at hfirst
    · rename_i hstarts
      exact ⟨_, rfl, hstarts, hfirst⟩
    · exact absurd hfirst (wrongKind_ne_ok _ _ _ _)

/-- What the reader makes of the text of a finite double alone, it makes of the text anywhere. -/
theorem reads_real {style : Style} {x y : Binary64} (hfinite : x.isFinite)
    (hsuffix : style.number.wholeSuffix.toList.all isVisible)
    (h : decode Reader.real (bytes (style.real x)) = .ok y) :
    Reads Reader.real (style.real x) y := by
  have hblank (b : UInt8) (hb : b ∈ bytes (style.real x)) : isBlank b = false :=
    isBlank_of_mem_bytes (all_isVisible_write hfinite hsuffix) hb
  rw [Reader.real_eq] at h ⊢
  cases hread : Reader.anyNumber ((bytes (style.real x)).length + 1) (bytes (style.real x)) with
  | error fault =>
    rw [decode, Reader.bind_of_error hread] at h
    cases h
  | ok taken =>
    obtain ⟨number, rest⟩ := taken
    obtain ⟨b, hhead, hstarts, hnumber⟩ := Reader.anyNumber_eq_ok hblank hread
    obtain ⟨hsuffix', -⟩ := local_number _ _ _ _ hnumber
    -- Only blanks could be left over, but the text has none.
    have hrest : rest.dropWhile isBlank = rest := by
      cases rest with
      | nil => rfl
      | cons d tail =>
        have hd := hblank d (hsuffix'.subset List.mem_cons_self)
        rw [List.dropWhile_cons_of_neg (by rw [hd]; exact Bool.false_ne_true)]
    rw [decode, Reader.bind_of_ok hread] at h
    change (if (rest.dropWhile isBlank).isEmpty then Except.ok number.double
      else Except.error Fault.malformed) = .ok y at h
    rw [hrest] at h
    split at h
    · rename_i hempty
      cases h
      rw [List.isEmpty_iff.1 hempty] at hnumber
      exact (reads_anyNumber ⟨b, hhead, hstarts⟩ fun _ => hnumber).map Number.double
    · cases h

end RevisionLedger.Json
