import RevisionLedger.Identifier

/-!
# Reproducible randomness

A stream of 64-bit words given by a seed: the n-th word is a mix of the bits of the seed advanced
n + 1 times by a fixed odd step. Equal seeds give equal streams.
-/

namespace RevisionLedger.Entropy

/-- Mixes the bits of a word, one to one. -/
def mix (word : UInt64) : UInt64 :=
  let word := (word ^^^ (word >>> 30)) * 0xbf58476d1ce4e5b9
  let word := (word ^^^ (word >>> 27)) * 0x94d049bb133111eb
  word ^^^ (word >>> 31)

/-- A word of the stream of a seed. -/
def word (seed : UInt64) (index : Nat) : UInt64 :=
  mix (seed + (UInt64.ofNat index + 1) * 0x9e3779b97f4a7c15)

/-- A version token of the stream of a seed. -/
def token (seed : UInt64) (index : Nat) : VersionToken :=
  .ofEntropy (word seed (2 * index)) (word seed (2 * index + 1))

end RevisionLedger.Entropy
