/-!
# Thirty-two bit block hashing

The structural hash of a table is a sum of per-entry words, so the order in which entries are
met cannot change it. Each entry word comes from the block step and the finalizer of a
multiply-rotate hash on 32-bit words.

* `CompactCollections.Hashing.mix` – folds one 32-bit block into a running hash: the block is
  scrambled by a multiply, a rotation by 15 and a second multiply, xored in, and the result
  rotated by 13 and stepped by `h * 5 + 0xe6546b64`.
* `CompactCollections.Hashing.finalize` – folds a length into a hash and avalanches it with two
  xor-shift-multiply rounds, so that every input bit reaches every output bit.
* `CompactCollections.Hashing.hashWord` – a 64-bit word as two blocks, low half first, with
  length eight.
* `CompactCollections.Hashing.hashValue` – the hash of any value: the 64-bit word its hasher
  finishes with, through `hashWord`. The hasher is a parameter, whatever function writes a value
  into a word.

All arithmetic is on `UInt32` and wraps.
-/

namespace CompactCollections.Hashing

/-- Rotates a 32-bit word left by `n` places, `0 < n < 32`. -/
def rotl32 (x : UInt32) (n : UInt32) : UInt32 :=
  (x <<< n) ||| (x >>> (32 - n))

/-- Folds the block `data` into the running hash `hash`. -/
def mix (hash data : UInt32) : UInt32 :=
  let k := rotl32 (data * 0xcc9e2d51) 15 * 0x1b873593
  rotl32 (hash ^^^ k) 13 * 5 + 0xe6546b64

/-- Folds `length` (reduced modulo `2 ^ 32`) into `hash` and avalanches the result. -/
def finalize (hash : UInt32) (length : Nat) : UInt32 :=
  let h := hash ^^^ UInt32.ofNat length
  let h := h ^^^ (h >>> 16)
  let h := h * 0x85ebca6b
  let h := h ^^^ (h >>> 13)
  let h := h * 0xc2b2ae35
  h ^^^ (h >>> 16)

/-- The hash of a 64-bit word: its low and then its high half as two blocks, length eight. -/
def hashWord (x : UInt64) : UInt32 :=
  finalize (mix (mix 0 x.toUInt32) (x >>> 32).toUInt32) 8

/-- The 32-bit hash of a value whose hasher finishes with the word `finish v`. -/
def hashValue {α : Type} (finish : α → UInt64) (v : α) : UInt32 :=
  hashWord (finish v)

end CompactCollections.Hashing
