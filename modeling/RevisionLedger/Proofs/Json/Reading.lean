import RevisionLedger.Json.Shape
import RevisionLedger.Json.Text

/-!
# What a reader takes off a text

`Reads reader text value` says that a reader, given the bytes of a text before any others that can
end a value, takes exactly the text and yields the value. The statements about whole structures are
put together from those about their parts by it, so each of them is about one reader and one writer.
-/

namespace RevisionLedger.Json

variable {α β : Type}

/-! ## 1. Bytes of a text -/

/-- The bytes of a text in UTF-8. -/
def bytes (text : String) : List UInt8 := text.toUTF8.data.toList

theorem bytes_eq_flatMap (text : String) :
    bytes text = text.toList.flatMap String.utf8EncodeChar := by
  rw [bytes, String.toUTF8_eq_toByteArray, ← String.utf8Encode_toList, List.utf8Encode,
    List.data_toByteArray]

@[simp] theorem bytes_append (a b : String) : bytes (a ++ b) = bytes a ++ bytes b := by
  rw [bytes_eq_flatMap, String.toList_append, List.flatMap_append, ← bytes_eq_flatMap,
    ← bytes_eq_flatMap]

theorem utf8EncodeChar_of_ascii {c : Char} (h : c.toNat < 0x80) :
    String.utf8EncodeChar c = [byte c] := by
  have hle : c.val.toNat ≤ 0x7f := Nat.le_of_lt_succ h
  rw [String.utf8EncodeChar, if_pos hle]
  rfl

theorem toNat_byte {c : Char} (h : c.toNat < 0x80) : (byte c).toNat = c.toNat := by
  have hlt : c.toNat < 2 ^ 8 := by omega
  rw [byte, UInt32.toNat_toUInt8]
  exact Nat.mod_eq_of_lt hlt

/-- A text in ASCII has one byte for each character. -/
theorem flatMap_utf8EncodeChar_of_ascii {chars : List Char} (h : ∀ c ∈ chars, c.toNat < 0x80) :
    chars.flatMap String.utf8EncodeChar = chars.map byte := by
  induction chars with
  | nil => rfl
  | cons c rest ih =>
    rw [List.flatMap_cons, List.map_cons, utf8EncodeChar_of_ascii (h c List.mem_cons_self),
      ih fun d hd => h d (List.mem_cons_of_mem _ hd)]
    rfl

theorem bytes_of_ascii {text : String} (h : ∀ c ∈ text.toList, c.toNat < 0x80) :
    bytes text = text.toList.map byte := by
  rw [bytes_eq_flatMap, flatMap_utf8EncodeChar_of_ascii h]

/-- The bytes of a character outside ASCII are outside ASCII, all of them. -/
theorem le_of_mem_utf8EncodeChar {c : Char} (h : 0x80 ≤ c.toNat) {b : UInt8}
    (hb : b ∈ String.utf8EncodeChar c) : 0x80 ≤ b := by
  have hnot : ¬c.val.toNat ≤ 0x7f := Nat.not_le_of_lt h
  rw [String.utf8EncodeChar, if_neg hnot] at hb
  rw [UInt8.le_iff_toNat_le]
  -- The code is written in two, three or four bytes, each with its highest bit set.
  split at hb
  · simp only [List.mem_cons, List.not_mem_nil, or_false] at hb
    rcases hb with rfl | rfl <;> simp only [UInt8.toNat_ofNat', UInt8.reduceToNat] <;> omega
  · split at hb
    · simp only [List.mem_cons, List.not_mem_nil, or_false] at hb
      rcases hb with rfl | rfl | rfl <;> simp only [UInt8.toNat_ofNat', UInt8.reduceToNat] <;> omega
    · simp only [List.mem_cons, List.not_mem_nil, or_false] at hb
      rcases hb with rfl | rfl | rfl | rfl <;>
        simp only [UInt8.toNat_ofNat', UInt8.reduceToNat] <;> omega

/-! ## 2. Readers one after another -/

namespace Reader

theorem bind_of_ok {reader : Reader α} {next : α → Reader β} {bound : Nat}
    {input rest : List UInt8} {value : α} (h : reader bound input = .ok (value, rest)) :
    (reader >>= next) bound input = next value bound rest := by
  show (reader bound input >>= fun result => next result.1 bound result.2) = _
  rw [h]
  rfl

theorem bind_of_error {reader : Reader α} {next : α → Reader β} {bound : Nat}
    {input : List UInt8} {fault : Fault} (h : reader bound input = .error fault) :
    (reader >>= next) bound input = .error fault := by
  show (reader bound input >>= fun result => next result.1 bound result.2) = _
  rw [h]
  rfl

/-- What comes of two readers comes of the first and then of the second. -/
theorem of_bind_eq_ok {reader : Reader α} {next : α → Reader β} {bound : Nat}
    {input rest : List UInt8} {value : β} (h : (reader >>= next) bound input = .ok (value, rest)) :
    ∃ first between, reader bound input = .ok (first, between) ∧
      next first bound between = .ok (value, rest) := by
  cases hfirst : reader bound input with
  | error fault =>
    rw [bind_of_error hfirst] at h
    cases h
  | ok result =>
    rw [bind_of_ok hfirst] at h
    exact ⟨result.1, result.2, rfl, h⟩

theorem peek_cons {bound : Nat} {b : UInt8} {rest : List UInt8} (h : isBlank b = false) :
    peek bound (b :: rest) = .ok (b, b :: rest) := by
  have hdrop : (b :: rest).dropWhile isBlank = b :: rest :=
    List.dropWhile_cons_of_neg (by rw [h]; exact Bool.false_ne_true)
  simp only [peek, ofInput, hdrop]

/-- The byte that a text starts with is seen whatever follows the text. -/
theorem peek_append {bound : Nat} {b : UInt8} {input : List UInt8} (hhead : input.head? = some b)
    (h : isBlank b = false) (rest : List UInt8) :
    peek bound (input ++ rest) = .ok (b, input ++ rest) := by
  obtain ⟨tail, rfl⟩ := List.head?_eq_some_iff.1 hhead
  rw [List.cons_append, peek_cons h]

theorem next_cons (bound : Nat) (b : UInt8) (rest : List UInt8) :
    next bound (b :: rest) = .ok (b, rest) :=
  rfl

theorem discard_next_cons (bound : Nat) (b : UInt8) (rest : List UInt8) :
    (discard next : Reader Unit) bound (b :: rest) = .ok ((), rest) :=
  rfl

theorem mark_cons {c : Char} (bound : Nat) (rest : List UInt8) (h : isBlank (byte c) = false) :
    mark c bound (byte c :: rest) = .ok ((), rest) := by
  rw [mark, bind_of_ok (peek_cons h), if_pos rfl, discard_next_cons]

theorem word_append (letters : List Char) (bound : Nat) (rest : List UInt8) :
    word letters bound (letters.map byte ++ rest) = .ok ((), rest) := by
  induction letters with
  | nil => rfl
  | cons letter letters ih =>
    rw [word, List.map_cons, List.cons_append, bind_of_ok (next_cons _ _ _), if_pos rfl, ih]

end Reader

/-! ## 3. Values before others -/

/-- Whether bytes can follow a value: there are none, or the first one ends a member. -/
def Ends (rest : List UInt8) : Prop := ∀ b ∈ rest.head?, b = byte ',' ∨ b = byte '\x7d'

theorem ends_nil : Ends [] := fun _ h => by cases h

theorem ends_comma (rest : List UInt8) : Ends (byte ',' :: rest) := fun _ h =>
  Or.inl (Option.some.inj h).symm

theorem ends_brace (rest : List UInt8) : Ends (byte '\x7d' :: rest) := fun _ h =>
  Or.inr (Option.some.inj h).symm

/-- The reader takes the text and leaves what follows. Its bound is past the length of the text. -/
def Reads (reader : Reader α) (text : String) (value : α) : Prop :=
  ∀ bound rest, (bytes text).length < bound → Ends rest →
    reader bound (bytes text ++ rest) = .ok (value, rest)

namespace Reads

variable {reader : Reader α} {text : String} {value : α}

theorem map (h : Reads reader text value) (f : α → β) :
    Reads (do let value ← reader; return f value) text (f value) := by
  intro bound rest hbound hends
  rw [Reader.bind_of_ok (h bound rest hbound hends)]
  rfl

theorem decode (h : Reads reader text value) : decode reader (bytes text) = .ok value := by
  have hread := h ((bytes text).length + 1) [] (Nat.lt_succ_self _) ends_nil
  rw [List.append_nil] at hread
  rw [Json.decode, hread]
  rfl

end Reads

/-! ## 4. Words -/

theorem reads_bool (b : Bool) : Reads Reader.bool (Json.bool b) b := by
  intro bound rest _ _
  -- The first letter decides which of the two words is taken.
  cases b with
  | true =>
    show Reader.bool bound (['t', 'r', 'u', 'e'].map byte ++ rest) = _
    rw [Reader.bool, Reader.bind_of_ok (Reader.peek_append rfl (by decide) rest),
      if_pos (by decide), Reader.bind_of_ok (Reader.word_append _ _ _)]
    rfl
  | false =>
    show Reader.bool bound (['f', 'a', 'l', 's', 'e'].map byte ++ rest) = _
    rw [Reader.bool, Reader.bind_of_ok (Reader.peek_append rfl (by decide) rest),
      if_neg (by decide), if_pos (by decide), Reader.bind_of_ok (Reader.word_append _ _ _)]
    rfl

/-- A value that may be missing is read if its text does not start as `null` does. -/
theorem reads_optional {reader : Reader α} {write : α → String} {value : Option α}
    (h : ∀ a ∈ value, Reads reader (write a) a ∧
      ∃ b, (bytes (write a)).head? = some b ∧ isBlank b = false ∧ b ≠ byte 'n') :
    Reads (Reader.optional reader) (optional write value) value := by
  intro bound rest hbound hends
  cases value with
  | none =>
    show Reader.optional reader bound (['n', 'u', 'l', 'l'].map byte ++ rest) = _
    rw [Reader.optional, Reader.bind_of_ok (Reader.peek_append rfl (by decide) rest),
      if_pos (by decide), Reader.bind_of_ok (Reader.word_append _ _ _)]
    rfl
  | some a =>
    obtain ⟨hread, b, hhead, hblank, hne⟩ := h a rfl
    show Reader.optional reader bound (bytes (write a) ++ rest) = _
    rw [Reader.optional, Reader.bind_of_ok (Reader.peek_append hhead hblank rest), if_neg hne,
      Reader.bind_of_ok (hread bound rest hbound hends)]
    rfl

end RevisionLedger.Json
