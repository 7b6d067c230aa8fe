import RevisionLedger.Text.Hex

/-!
# The SHA-256 digest

The message is padded to whole blocks of sixty-four bytes and the blocks are folded, in order, into
a state of eight words. The digest is the state after the last block.
-/

namespace RevisionLedger.Sha256

/-! ## 1. Constants -/

/-- The first 32 bits of the fractional parts of the cube roots of the first 64 primes. -/
def roundConstants : Array UInt32 := #[
  0x428a2f98, 0x71374491, 0xb5c0fbcf, 0xe9b5dba5, 0x3956c25b, 0x59f111f1, 0x923f82a4, 0xab1c5ed5,
  0xd807aa98, 0x12835b01, 0x243185be, 0x550c7dc3, 0x72be5d74, 0x80deb1fe, 0x9bdc06a7, 0xc19bf174,
  0xe49b69c1, 0xefbe4786, 0x0fc19dc6, 0x240ca1cc, 0x2de92c6f, 0x4a7484aa, 0x5cb0a9dc, 0x76f988da,
  0x983e5152, 0xa831c66d, 0xb00327c8, 0xbf597fc7, 0xc6e00bf3, 0xd5a79147, 0x06ca6351, 0x14292967,
  0x27b70a85, 0x2e1b2138, 0x4d2c6dfc, 0x53380d13, 0x650a7354, 0x766a0abb, 0x81c2c92e, 0x92722c85,
  0xa2bfe8a1, 0xa81a664b, 0xc24b8b70, 0xc76c51a3, 0xd192e819, 0xd6990624, 0xf40e3585, 0x106aa070,
  0x19a4c116, 0x1e376c08, 0x2748774c, 0x34b0bcb5, 0x391c0cb3, 0x4ed8aa4a, 0x5b9cca4f, 0x682e6ff3,
  0x748f82ee, 0x78a5636f, 0x84c87814, 0x8cc70208, 0x90befffa, 0xa4506ceb, 0xbef9a3f7, 0xc67178f2]

/-- The eight words that a digest is made of. -/
structure State where
  (a b c d e f g h : UInt32)

/-- The first 32 bits of the fractional parts of the square roots of the first eight primes. -/
def State.initial : State :=
  ⟨0x6a09e667, 0xbb67ae85, 0x3c6ef372, 0xa54ff53a, 0x510e527f, 0x9b05688c, 0x1f83d9ab, 0x5be0cd19⟩

/-! ## 2. One block -/

@[inline] def rotateRight (x : UInt32) (n : UInt32) : UInt32 := (x >>> n) ||| (x <<< (32 - n))

/-- The word at a byte offset, its highest byte first; past the end the bytes are zero. -/
@[inline] def wordAt (bytes : ByteArray) (offset : Nat) : UInt32 :=
  let byte (i : Nat) : UInt32 := (bytes.get! (offset + i)).toUInt32
  (byte 0 <<< 24) ||| (byte 1 <<< 16) ||| (byte 2 <<< 8) ||| byte 3

/-- Extends a message schedule by one word. -/
@[inline] def nextWord (schedule : Array UInt32) : UInt32 :=
  let n := schedule.size
  let x := schedule.getD (n - 15) 0
  let y := schedule.getD (n - 2) 0
  let s0 := rotateRight x 7 ^^^ rotateRight x 18 ^^^ (x >>> 3)
  let s1 := rotateRight y 17 ^^^ rotateRight y 19 ^^^ (y >>> 10)
  schedule.getD (n - 16) 0 + s0 + schedule.getD (n - 7) 0 + s1

def extend : Nat → Array UInt32 → Array UInt32
  | 0, schedule => schedule
  | count + 1, schedule => extend count (schedule.push (nextWord schedule))

/-- The words of a block from the given one on. -/
def loadWords (bytes : ByteArray) (offset : Nat) : Nat → Array UInt32 → Array UInt32
  | 0, words => words
  | count + 1, words => loadWords bytes (offset + 4) count (words.push (wordAt bytes offset))

/-- The message schedule of the block at a byte offset. -/
def schedule (bytes : ByteArray) (offset : Nat) : Array UInt32 :=
  extend 48 (loadWords bytes offset 16 (Array.mkEmpty 64))

/-- The rounds that are left, the one at `index` being the next. -/
def rounds (schedule : Array UInt32) :
    Nat → Nat → UInt32 → UInt32 → UInt32 → UInt32 → UInt32 → UInt32 → UInt32 → UInt32 → State
  | 0, _, a, b, c, d, e, f, g, h => ⟨a, b, c, d, e, f, g, h⟩
  | left + 1, index, a, b, c, d, e, f, g, h =>
    let s1 := rotateRight e 6 ^^^ rotateRight e 11 ^^^ rotateRight e 25
    let choice := (e &&& f) ^^^ (~~~e &&& g)
    let t1 := h + s1 + choice + roundConstants.getD index 0 + schedule.getD index 0
    let s0 := rotateRight a 2 ^^^ rotateRight a 13 ^^^ rotateRight a 22
    let majority := (a &&& b) ^^^ (a &&& c) ^^^ (b &&& c)
    rounds schedule left (index + 1) (t1 + s0 + majority) a b c (d + t1) e f g

/-- Folds the block at a byte offset into a state. -/
def State.absorb (state : State) (bytes : ByteArray) (offset : Nat) : State :=
  let mixed := rounds (schedule bytes offset) 64 0 state.a state.b state.c state.d state.e state.f
    state.g state.h
  ⟨state.a + mixed.a, state.b + mixed.b, state.c + mixed.c, state.d + mixed.d,
   state.e + mixed.e, state.f + mixed.f, state.g + mixed.g, state.h + mixed.h⟩

/-- Folds a number of blocks, from a byte offset on, into a state. -/
def State.absorbAll (bytes : ByteArray) : Nat → Nat → State → State
  | 0, _, state => state
  | blocks + 1, offset, state => absorbAll bytes blocks (offset + 64) (state.absorb bytes offset)

/-! ## 3. Padding and the digest -/

/-- The message with a one bit, zeros up to eight bytes short of a whole block, and its length in
bits as a 64-bit word. -/
def pad (message : ByteArray) : ByteArray :=
  let zeros := (119 - message.size % 64) % 64
  let tail := 0x80 :: List.replicate zeros 0 ++
    Text.wordBytes (UInt64.ofNat (8 * message.size))
  tail.foldl ByteArray.push message

/-- The four bytes of a word, the highest one first. -/
def bytesOf (word : UInt32) : List UInt8 :=
  [(word >>> 24).toUInt8, (word >>> 16).toUInt8, (word >>> 8).toUInt8, word.toUInt8]

def digest (message : ByteArray) : List UInt8 :=
  let padded := pad message
  let state := State.absorbAll padded (padded.size / 64) 0 .initial
  [state.a, state.b, state.c, state.d, state.e, state.f, state.g, state.h].flatMap bytesOf

/-- The digest in hexadecimal digits. -/
def hex (message : ByteArray) : String := Text.hexText (digest message)

end RevisionLedger.Sha256
