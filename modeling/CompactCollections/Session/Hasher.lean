import CompactCollections.Hashing.Mix
/-!
# The hasher of the sessions

The collections take their hashers as parameters: a table hashes its keys with any function of
their bit patterns, and a structural hash takes the hash of each value from the caller
(`CompactCollections.Hashing.hashValue`). The sessions fix one hasher for both, a cheap
multiplicative hasher of 64-bit words: each word `w` updates the state `h` to
`(rotl h 5 ^^^ w) * 0x517cc1b727220a95`, starting from zero. A table that hashes its keys this
way places a key `k` at slot `k * 0x517cc1b727220a95` masked by its size, so keys that agree in
their low bits collide.

* `CompactCollections.Session.Hasher.ofWord` – one word written into a fresh state: the hash of
  a key pattern, and of a signed value's two's complement word.
* `CompactCollections.Session.Hasher.writeBytes` – a byte string as little-endian 8-byte words,
  then one 4-byte word when at least four bytes remain, then single bytes.
* `CompactCollections.Session.Datum.digest` – the 32-bit hash of a value, through
  `CompactCollections.Hashing.hashValue`: text ends with the byte `0xff`, so no text is a prefix
  of another in the stream, and the empty value writes nothing.
-/

namespace CompactCollections.Session.Hasher

/-- The multiplier of every step. -/
def seed : UInt64 := 0x517cc1b727220a95

/-- Rotates a 64-bit word left by `n` places, `0 < n < 64`. -/
def rotl64 (x : UInt64) (n : UInt64) : UInt64 :=
  (x <<< n) ||| (x >>> (64 - n))

/-- Writes one word into the state. -/
def step (h w : UInt64) : UInt64 :=
  (rotl64 h 5 ^^^ w) * seed

/-- The hash of a single word written into a fresh state: `w * seed`. -/
def ofWord (w : UInt64) : UInt64 :=
  step 0 w

/-- The little-endian number of a list of bytes. -/
def littleEndian : List UInt8 → UInt64
  | [] => 0
  | b :: rest => b.toUInt64 ||| (littleEndian rest <<< 8)

/-- Writes each byte as a word of its own. -/
def writeSingles (h : UInt64) : List UInt8 → UInt64
  | [] => h
  | b :: rest => writeSingles (step h b.toUInt64) rest

/-- Writes fewer than eight bytes: one 4-byte word if at least four remain, then singles. -/
def writeTail (h : UInt64) : List UInt8 → UInt64
  | b0 :: b1 :: b2 :: b3 :: rest => writeSingles (step h (littleEndian [b0, b1, b2, b3])) rest
  | rest => writeSingles h rest

/-- Writes a byte string: whole 8-byte words first, then the tail. -/
def writeBytes (h : UInt64) : List UInt8 → UInt64
  | b0 :: b1 :: b2 :: b3 :: b4 :: b5 :: b6 :: b7 :: rest =>
    writeBytes (step h (littleEndian [b0, b1, b2, b3, b4, b5, b6, b7])) rest
  | rest => writeTail h rest

end CompactCollections.Session.Hasher

namespace CompactCollections.Session

/-- A value whose 32-bit digest a session may ask for: text, a signed 64-bit number, a byte, or
nothing. -/
inductive Datum where
  /-- A text, hashed through its UTF-8 bytes and a closing `0xff`. -/
  | text (s : String)
  /-- A signed 64-bit number, hashed as its two's complement word. -/
  | int (v : Int64)
  /-- A byte, hashed as a word. -/
  | byte (b : UInt8)
  /-- No data at all: nothing is written. -/
  | unit
  deriving DecidableEq, Repr

/-- The state of the hasher after writing the datum into a fresh one. -/
def Datum.state : Datum → UInt64
  | .text s => Hasher.step (Hasher.writeBytes 0 s.toUTF8.toList) 0xff
  | .int v => Hasher.ofWord v.toUInt64
  | .byte b => Hasher.ofWord b.toUInt64
  | .unit => 0

/-- The 32-bit digest of a datum. -/
def Datum.digest (d : Datum) : UInt32 :=
  Hashing.hashValue Datum.state d

/-- The digest of a signed 64-bit value, as a map's structural hash uses it. -/
def digestInt (v : Int64) : UInt32 :=
  (Datum.int v).digest

/-- The digest of the empty value, as a set's structural hash uses it. -/
def digestUnit (_ : Unit) : UInt32 :=
  Datum.unit.digest

end CompactCollections.Session
