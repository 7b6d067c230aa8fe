import RevisionLedger.Proofs.Json.Reading

/-!
# Strings are read back

Each character of a string is written either as itself or behind a backslash. The reader looks at
single bytes, so a character that stands for itself must have no byte that means something to it:
those of a character outside ASCII are all past the ASCII range.
-/

namespace RevisionLedger.Json

/-! ## 1. The text of a string -/

theorem escapeChar_of_isPlain {c : Char} (h : isPlain c) : escapeChar c = [c] := by
  simp only [isPlain, Bool.and_eq_true, bne_iff_ne, decide_eq_true_eq] at h
  obtain ⟨⟨hquote, hslash⟩, hspace⟩ := h
  have hne (d : Char) (hd : d.toNat < 0x20) : c ≠ d := fun heq => by
    rw [heq] at hspace
    omega
  rw [escapeChar, if_neg hquote, if_neg hslash, if_neg (hne _ (by decide)),
    if_neg (hne _ (by decide)), if_neg (hne _ (by decide)), if_neg (hne _ (by decide)),
    if_neg (hne _ (by decide)), if_neg (Nat.not_lt_of_le hspace)]

theorem toList_quoted (text : String) :
    (quoted text).toList = '"' :: text.toList.flatMap escapeChar ++ ['"'] := by
  -- Induction on the characters, for whatever has been written before them.
  have hfold (chars : List Char) (written : String) :
      (chars.foldl (fun written c =>
        if isPlain c then written.push c else written ++ String.ofList (escapeChar c))
          written).toList = written.toList ++ chars.flatMap escapeChar := by
    induction chars generalizing written with
    | nil => rw [List.foldl_nil, List.flatMap_nil, List.append_nil]
    | cons c rest ih =>
      rw [List.foldl_cons, ih, List.flatMap_cons, ← List.append_assoc]
      congr 1
      split
      · rename_i hplain
        rw [String.toList_push, escapeChar_of_isPlain hplain]
      · rw [String.toList_append, String.toList_ofList]
  rw [quoted, String.toList_push, hfold]
  rfl

/-- The bytes of the characters of a string as they are written between its quotes. -/
def escapedBytes (chars : List Char) : List UInt8 :=
  (chars.flatMap escapeChar).flatMap String.utf8EncodeChar

theorem bytes_quoted (text : String) :
    bytes (quoted text) = byte '"' :: (escapedBytes text.toList ++ [byte '"']) := by
  rw [bytes_eq_flatMap, toList_quoted, List.cons_append, List.flatMap_cons, List.flatMap_append]
  rfl

theorem escapedBytes_cons (c : Char) (chars : List Char) :
    escapedBytes (c :: chars) =
      (escapeChar c).flatMap String.utf8EncodeChar ++ escapedBytes chars := by
  rw [escapedBytes, List.flatMap_cons, List.flatMap_append]
  rfl

/-! ## 2. One character -/

/-- A byte that a string holds as it is. -/
def isBare (b : UInt8) : Bool := b != 0x22 && b != 0x5c && 0x20 ≤ b

theorem isBare_of_mem_utf8EncodeChar {c : Char} (h : isPlain c) {b : UInt8}
    (hb : b ∈ String.utf8EncodeChar c) : isBare b := by
  have hplain := h
  simp only [isPlain, Bool.and_eq_true, bne_iff_ne, decide_eq_true_eq] at h
  obtain ⟨⟨hquote, hslash⟩, hspace⟩ := h
  simp only [isBare, Bool.and_eq_true, bne_iff_ne, decide_eq_true_eq]
  by_cases hascii : c.toNat < 0x80
  · -- The byte is the code of the character.
    rw [utf8EncodeChar_of_ascii hascii, List.mem_singleton] at hb
    have hcode : b.toNat = c.toNat := by
      rw [hb]
      exact toNat_byte hascii
    have hchar (d : Char) (hd : b.toNat = d.toNat) : c = d :=
      Char.ext (UInt32.toNat_inj.1 (hcode.symm.trans hd))
    refine ⟨⟨fun heq => hquote (hchar '"' (by rw [heq]; rfl)), fun heq =>
      hslash (hchar '\\' (by rw [heq]; rfl))⟩, ?_⟩
    rw [UInt8.le_iff_toNat_le, hcode]
    exact hspace
  · have hlarge := le_of_mem_utf8EncodeChar (Nat.le_of_not_lt hascii) hb
    exact ⟨⟨fun heq => absurd hlarge (by rw [heq]; decide), fun heq =>
      absurd hlarge (by rw [heq]; decide)⟩, UInt8.le_trans (by decide) hlarge⟩

theorem takeStringBody_bare {b : UInt8} (h : isBare b) (bound : Nat) (taken : ByteArray)
    (rest : List UInt8) :
    takeStringBody (bound + 1) taken (b :: rest) = takeStringBody bound (taken.push b) rest := by
  simp only [isBare, Bool.and_eq_true, bne_iff_ne, decide_eq_true_eq] at h
  obtain ⟨⟨hquote, hslash⟩, hspace⟩ := h
  rw [takeStringBody, if_neg hquote, if_neg hslash, if_neg (UInt8.not_lt.2 hspace)]

theorem takeStringBody_bares {bs : List UInt8} (h : ∀ b ∈ bs, isBare b) (bound : Nat)
    (taken : ByteArray) (rest : List UInt8) :
    takeStringBody (bound + bs.length) taken (bs ++ rest) =
      takeStringBody bound (bs.foldl ByteArray.push taken) rest := by
  induction bs generalizing taken with
  | nil => rfl
  | cons b bs ih =>
    rw [List.length_cons, ← Nat.add_assoc, List.cons_append,
      takeStringBody_bare (h b List.mem_cons_self), ih fun d hd => h d (List.mem_cons_of_mem _ hd),
      List.foldl_cons]

theorem hexValue?_hexDigit :
    ∀ n < 16, Text.hexValue? (Char.ofUInt8 (byte (Text.hexDigit n))) = some n := by
  decide

theorem unitOfHex_hexDigit {n : Nat} (h : n < 0x20) :
    unitOfHex (byte '0') (byte '0') (byte (Text.hexDigit (n / 16)))
      (byte (Text.hexDigit (n % 16))) = .ok n := by
  have hzero : Text.hexValue? (Char.ofUInt8 (byte '0')) = some 0 := hexValue?_hexDigit 0 (by decide)
  have hhigh := hexValue?_hexDigit (n / 16) (by omega)
  have hlow := hexValue?_hexDigit (n % 16) (by omega)
  have hsum : ((0 * 16 + 0) * 16 + n / 16) * 16 + n % 16 = n := by omega
  simp only [unitOfHex, hzero, hhigh, hlow, hsum]

/-- What the writer puts behind a backslash gives the character back. -/
theorem takeEscape_escapeChar {c : Char} (h : ¬isPlain c) (rest : List UInt8) :
    ∃ escaped, (escapeChar c).flatMap String.utf8EncodeChar = byte '\\' :: escaped ∧
      takeEscape (escaped ++ rest) = .ok (c, rest) := by
  -- Seven characters have letters of their own; the other controls have a code.
  unfold escapeChar
  split
  · subst_vars; exact ⟨[byte '"'], rfl, rfl⟩
  split
  · subst_vars; exact ⟨[byte '\\'], rfl, rfl⟩
  split
  · subst_vars; exact ⟨[byte 'b'], rfl, rfl⟩
  split
  · subst_vars; exact ⟨[byte 't'], rfl, rfl⟩
  split
  · subst_vars; exact ⟨[byte 'n'], rfl, rfl⟩
  split
  · subst_vars; exact ⟨[byte 'f'], rfl, rfl⟩
  split
  · subst_vars; exact ⟨[byte 'r'], rfl, rfl⟩
  split
  · rename_i hquote hslash _ _ _ _ _ hcontrol
    have hdigits : ∀ n < 0x20, (Text.hexDigit (n / 16)).toNat < 0x80 ∧
      (Text.hexDigit (n % 16)).toNat < 0x80 := by decide
    obtain ⟨hhigh, hlow⟩ := hdigits _ hcontrol
    refine ⟨[byte 'u', byte '0', byte '0', byte (Text.hexDigit (c.toNat / 16)),
      byte (Text.hexDigit (c.toNat % 16))], ?_, ?_⟩
    · simp only [List.flatMap_cons, List.flatMap_nil, utf8EncodeChar_of_ascii hhigh,
        utf8EncodeChar_of_ascii hlow]
      rfl
    · have hunit : takeEscapedUnit (byte '0' :: byte '0' :: byte (Text.hexDigit (c.toNat / 16)) ::
          byte (Text.hexDigit (c.toNat % 16)) :: rest) = .ok (c, rest) := by
        -- A control is far below the surrogates, so its code stands for it alone.
        have hlowSurrogate : isLowSurrogate c.toNat = false := by
          simp only [isLowSurrogate, Bool.and_eq_false_iff, decide_eq_false_iff_not]
          omega
        have hhighSurrogate : isHighSurrogate c.toNat = false := by
          simp only [isHighSurrogate, Bool.and_eq_false_iff, decide_eq_false_iff_not]
          omega
        simp only [takeEscapedUnit, takeUnit, unitOfHex_hexDigit hcontrol, bind, Except.bind,
          hlowSurrogate, hhighSurrogate, Bool.false_eq_true, if_false, Char.ofNat_toNat]
      exact hunit
  · rename_i hquote hslash _ _ _ _ _ hcontrol
    -- Nothing is left but the plain characters.
    refine absurd ?_ h
    simp only [isPlain, Bool.and_eq_true, bne_iff_ne, decide_eq_true_eq]
    exact ⟨⟨hquote, hslash⟩, Nat.le_of_not_lt hcontrol⟩

/-- A character takes at most one step of the bound for each of its bytes. -/
theorem takeStringBody_escapeChar (c : Char) {bound : Nat} (taken : ByteArray) (rest : List UInt8)
    (hbound : ((escapeChar c).flatMap String.utf8EncodeChar).length ≤ bound) : ∃ left,
      bound ≤ left + ((escapeChar c).flatMap String.utf8EncodeChar).length ∧
      takeStringBody bound taken ((escapeChar c).flatMap String.utf8EncodeChar ++ rest) =
        takeStringBody left (pushChar taken c) rest := by
  by_cases hplain : isPlain c
  · -- One step for each byte of the character.
    rw [escapeChar_of_isPlain hplain, List.flatMap_singleton] at hbound ⊢
    obtain ⟨left, rfl⟩ := Nat.exists_eq_add_of_le' hbound
    exact ⟨left, Nat.le_refl _,
      takeStringBody_bares (fun b hb => isBare_of_mem_utf8EncodeChar hplain hb) _ _ _⟩
  · -- One step for the backslash and all behind it.
    obtain ⟨escaped, hescaped, htake⟩ := takeEscape_escapeChar hplain rest
    rw [hescaped, List.length_cons] at hbound ⊢
    obtain ⟨left, rfl⟩ := Nat.exists_eq_add_of_le' (Nat.le_trans (Nat.le_add_left 1 _) hbound)
    refine ⟨left, by omega, ?_⟩
    rw [List.cons_append, takeStringBody, if_neg (by decide), if_pos (by decide), htake]

/-! ## 3. Whole strings -/

theorem data_foldl_push (bs : List UInt8) (taken : ByteArray) :
    (bs.foldl ByteArray.push taken).data.toList = taken.data.toList ++ bs := by
  induction bs generalizing taken with
  | nil => rw [List.foldl_nil, List.append_nil]
  | cons b bs ih =>
    rw [List.foldl_cons, ih, ByteArray.data_push, Array.toList_push, List.append_assoc,
      List.singleton_append]

/-- The reader takes the characters one by one and stops at the quote. -/
theorem takeStringBody_escapedBytes (chars : List Char) {bound : Nat} (taken : ByteArray)
    (rest : List UInt8) (hbound : (escapedBytes chars).length < bound) :
    ∃ bs, takeStringBody bound taken (escapedBytes chars ++ byte '"' :: rest) = .ok (bs, rest) ∧
      bs.data.toList = taken.data.toList ++ chars.flatMap String.utf8EncodeChar := by
  induction chars generalizing bound taken with
  | nil =>
    obtain ⟨left, rfl⟩ := Nat.exists_eq_add_of_le' (Nat.succ_le_of_lt hbound)
    exact ⟨taken, rfl, by rw [List.flatMap_nil, List.append_nil]⟩
  | cons c chars ih =>
    rw [escapedBytes_cons, List.length_append] at hbound
    have hhead : ((escapeChar c).flatMap String.utf8EncodeChar).length ≤ bound := by omega
    obtain ⟨left, hleft, htake⟩ := takeStringBody_escapeChar c taken
      (escapedBytes chars ++ byte '"' :: rest) hhead
    have htail : (escapedBytes chars).length < left := by omega
    obtain ⟨bs, hbs, hdata⟩ := ih (pushChar taken c) htail
    refine ⟨bs, ?_, ?_⟩
    · rw [escapedBytes_cons, List.append_assoc, htake, hbs]
    · rw [hdata, pushChar, data_foldl_push, List.flatMap_cons, List.append_assoc]

/-- What stands between the quotes of a string, and the closing quote, gives the string. -/
theorem stringBody_escapedBytes (text : String) {bound : Nat} (rest : List UInt8)
    (hbound : (escapedBytes text.toList).length < bound) :
    Reader.stringBody bound (escapedBytes text.toList ++ byte '"' :: rest) = .ok (text, rest) := by
  obtain ⟨bs, htake, hdata⟩ := takeStringBody_escapedBytes text.toList .empty rest hbound
  have hbytes : bs = text.toByteArray := by
    apply ByteArray.ext
    apply Array.toList_inj.1
    rw [hdata, ← bytes_eq_flatMap]
    rfl
  rw [Reader.stringBody, htake, hbytes]
  simp only [String.fromUTF8?, String.isValidUTF8, dif_pos]
  rfl

theorem reads_text (text : String) : Reads Reader.text (quoted text) text := by
  intro bound rest hbound _
  rw [bytes_quoted] at hbound ⊢
  have hlength : (escapedBytes text.toList).length < bound := by
    rw [List.length_cons, List.length_append] at hbound
    omega
  rw [Reader.text, Reader.bind_of_ok (Reader.peek_append rfl (by decide) rest), if_pos rfl,
    List.cons_append, Reader.bind_of_ok (Reader.discard_next_cons _ _ _), List.append_assoc]
  exact stringBody_escapedBytes text rest hlength

theorem head?_quoted (text : String) : (bytes (quoted text)).head? = some (byte '"') := by
  rw [bytes_quoted]
  rfl

end RevisionLedger.Json
