/-!
# Text from any bytes

Bytes are shown as the text that they encode in UTF-8. Where they encode nothing, a replacement
character stands for the longest run of bytes that could begin a character, and for any other single
byte.
-/

namespace RevisionLedger.Text

/-- What has to follow the first byte of a character: how many bytes, and the bounds of the first
of them. -/
structure Following where
  count : Nat
  least : UInt8 := 0x80
  greatest : UInt8 := 0xbf

/-- What has to follow a byte, if it can begin a character. The bounds leave out characters with a
shorter form, surrogates, and what is past the last character. -/
def following? (lead : UInt8) : Option Following :=
  if lead < 0x80 then some { count := 0 }
  else if lead < 0xc2 then none
  else if lead < 0xe0 then some { count := 1 }
  else if lead = 0xe0 then some { count := 2, least := 0xa0 }
  else if lead = 0xed then some { count := 2, greatest := 0x9f }
  else if lead < 0xf0 then some { count := 2 }
  else if lead = 0xf0 then some { count := 3, least := 0x90 }
  else if lead < 0xf4 then some { count := 3 }
  else if lead = 0xf4 then some { count := 3, greatest := 0x8f }
  else none

/-- The bytes at the front that can follow the first byte of a character. -/
def Following.take (following : Following) : List UInt8 → List UInt8
  | [] => []
  | b :: rest =>
    if following.count = 0 ∨ b < following.least ∨ following.greatest < b then []
    else b :: (rest.take (following.count - 1)).takeWhile fun b => 0x80 ≤ b && b ≤ 0xbf

def replacement : Char := '\ufffd'

/-- The character of a first byte and those that follow it. -/
def charOfBytes (lead : UInt8) (others : List UInt8) : Char :=
  let bits := if others = [] then lead.toNat else lead.toNat % (0x80 >>> (others.length + 1))
  Char.ofNat (others.foldl (fun code b => code * 0x40 + b.toNat % 0x40) bits)

/-- Adds what bytes show to characters that are given last one first. -/
def showFrom : Nat → List Char → List UInt8 → List Char
  | 0, shown, _ | _, shown, [] => shown.reverse
  | bound + 1, shown, lead :: rest =>
    match following? lead with
    | none => showFrom bound (replacement :: shown) rest
    | some following =>
      let others := following.take rest
      let c := if others.length = following.count then charOfBytes lead others else replacement
      showFrom bound (c :: shown) (rest.drop others.length)

/-- The text that bytes show. -/
def ofBytes (bytes : ByteArray) : String :=
  match String.fromUTF8? bytes with
  | some text => text
  | none => String.ofList (showFrom bytes.size [] bytes.data.toList)

end RevisionLedger.Text
