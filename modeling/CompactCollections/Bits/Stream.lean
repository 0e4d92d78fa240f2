/-!
# Word arrays as bit streams

A packed list keeps its bits in 64-bit words read as one stream: stream bit `p` is bit
`p % 64` of word `p / 64`. Past the last word the stream reads as zeros, and a write there
first extends the words with zeros, so only the words up to the last one written are ever
held. Fields of up to 64 bits sit at any stream position and may straddle two words.

* `CompactCollections.Stream.read`, `CompactCollections.Stream.write` – the field of `width`
  bits at stream position `pos`; a write touches exactly the bits `[pos, pos + width)`.
* `CompactCollections.Stream.shiftUp` – opens a gap of `width` bits at `pos`, moving every
  later bit below `stop` up by `width`; the gap keeps stale bits for the caller to overwrite.
* `CompactCollections.Stream.shiftDown` – closes the field at `pos`, moving every later bit
  down by `width`.
* `CompactCollections.Stream.clearRange` – zeroes the bits `[lo, hi)`.

Each shift rewrites the words it touches in place, walking them in the order that reads every
word before it is rewritten: down from the top when opening a gap, since word `t` takes bits
from word `t - 1`; up from the bottom when closing one, since word `t` takes bits from the words
above it.
-/

namespace CompactCollections.Stream

/-- Word `i` of the stream, zero past the last word. -/
def word (ws : Array UInt64) (i : Nat) : UInt64 :=
  ws[i]?.getD 0

/-- Sets word `i` to `w`, first extending the words with zeros up to `i`; a zero past the
last word changes nothing, since it reads as zero already. -/
def setWord (ws : Array UInt64) (i : Nat) (w : UInt64) : Array UInt64 :=
  if i < ws.size then ws.set! i w
  else if w = 0 then ws
  else (ws ++ Array.replicate (i - ws.size) 0).push w

/-- The first `n` words of the stream, zeros past the last word included. -/
def firstWords (ws : Array UInt64) (n : Nat) : Array UInt64 :=
  (Array.range n).map (word ws)

/-- A word whose low `n` bits are set, `n ≤ 64`. -/
def lowBits (n : Nat) : UInt64 :=
  if n = 0 then 0 else (~~~0 : UInt64) >>> (64 - n).toUInt64

/-- Stream bit `p`. -/
def testBit (ws : Array UInt64) (p : Nat) : Bool :=
  (word ws (p / 64) >>> (p % 64).toUInt64) &&& 1 != 0

/-- The 64 stream bits from position `start`. -/
def window (ws : Array UInt64) (start : Nat) : UInt64 :=
  let i := start / 64
  let b := start % 64
  if b = 0 then word ws i
  else (word ws i >>> b.toUInt64) ||| (word ws (i + 1) <<< (64 - b).toUInt64)

/-- The field under `mask` from bit `bit` of one word. -/
def value (w : UInt64) (bit : Nat) (mask : UInt64) : UInt64 :=
  (w >>> bit.toUInt64) &&& mask

/-- The field under `mask` from bit `bit` of `prev`, continued at the bottom of `next`; `bit` is
never 0 here. -/
def valueAcross (prev next : UInt64) (bit : Nat) (mask : UInt64) : UInt64 :=
  ((prev >>> bit.toUInt64) ||| (next <<< (64 - bit).toUInt64)) &&& mask

/-- The field of `width` bits at stream position `pos`, `1 ≤ width ≤ 64`: from its one word
when it fits there, else from the two it straddles. -/
def read (ws : Array UInt64) (pos width : Nat) : UInt64 :=
  let i := pos / 64
  let b := pos % 64
  if b + width ≤ 64 then value (word ws i) b (lowBits width)
  else valueAcross (word ws i) (word ws (i + 1)) b (lowBits width)

/-- Writes the low `width` bits of `v` into the field at `pos`. -/
def write (ws : Array UInt64) (pos width : Nat) (v : UInt64) : Array UInt64 :=
  let m := lowBits width
  let v := v &&& m
  let i := pos / 64
  let b := pos % 64
  let ws := setWord ws i ((word ws i &&& ~~~(m <<< b.toUInt64)) ||| (v <<< b.toUInt64))
  if 64 < b + width then
    let c := (64 - b).toUInt64
    setWord ws (i + 1) ((word ws (i + 1) &&& ~~~(m >>> c)) ||| (v >>> c))
  else ws

/-- Sets or clears stream bit `p`. -/
def writeBit (ws : Array UInt64) (p : Nat) (bit : Bool) : Array UInt64 :=
  write ws p 1 (if bit then 1 else 0)

/-- Word `t` moved up by `width` bits, `1 ≤ width ≤ 64`: the 64 stream bits that end `width`
bits below the top of word `t`. A whole-word move copies word `t - 1`. -/
def wordUp (ws : Array UInt64) (width t : Nat) : UInt64 :=
  if width = 64 then word ws (t - 1)
  else (word ws (t - 1) >>> (64 - width).toUInt64) ||| (word ws t <<< width.toUInt64)

/-- Moves the stream bits in `[pos, stop - width)` up by `width` (`1 ≤ width ≤ 64`,
`pos + width ≤ stop`), in place. The words above the one holding `pos`, up to the one holding
bit `stop - 1`, are rewritten from the top down, each from itself and the word below, which
are not yet rewritten; then in the word holding `pos` the bits below `pos` stay and the rest
move up within the word, a whole-word move leaving zeros. -/
def shiftUp (ws : Array UInt64) (pos width stop : Nat) : Array UInt64 :=
  let first := pos / 64
  let last := (stop - 1) / 64
  let moved := (List.range' (first + 1) (last - first)).reverse.foldl
    (fun acc t => setWord acc t (wordUp acc width t)) ws
  let keep := lowBits (pos % 64)
  let old := word moved first
  let up := if width < 64 then old <<< width.toUInt64 else 0
  setWord moved first ((old &&& keep) ||| (up &&& ~~~keep))

/-- Moves the stream bits in `[pos + width, stop)` down by `width`, dropping the field at
`pos` (`pos + width ≤ stop`), in place. The word holding `pos` keeps its bits below `pos` and
takes the rest from the window `width` bits higher; then each word up to the one holding bit
`stop - 1` becomes its window `width` bits higher, read from words at or above it, which are
not yet rewritten. -/
def shiftDown (ws : Array UInt64) (pos width stop : Nat) : Array UInt64 :=
  let first := pos / 64
  let last := (stop - 1) / 64
  let keep := lowBits (pos % 64)
  let old := word ws first
  let ws := setWord ws first ((old &&& keep) ||| (window ws (64 * first + width) &&& ~~~keep))
  (List.range' (first + 1) (last - first)).foldl
    (fun acc t => setWord acc t (window acc (64 * t + width))) ws

/-- Zeroes the stream bits `[lo, hi)`, word by word. -/
def clearRange (ws : Array UInt64) (lo hi : Nat) : Array UInt64 :=
  (List.range' (lo / 64) ((hi + 63) / 64 - lo / 64)).foldl
    (fun acc t =>
      let start := max lo (64 * t) - 64 * t
      let stop := min hi (64 * t + 64) - 64 * t
      if start < stop then
        setWord acc t (word acc t &&& ~~~(lowBits (stop - start) <<< start.toUInt64))
      else acc)
    ws

/-- The number of set bits of a word. -/
def popCount (w : UInt64) : Nat :=
  (List.range 64).countP fun i => (w >>> i.toUInt64) &&& 1 != 0

/-- The number of clear bits below the lowest set bit of a word; 64 for zero. -/
def trailingZeros (w : UInt64) : Nat :=
  w.toBitVec.ctz.toNat

/-- The number of clear bits above the highest set bit of a word; 64 for zero. -/
def leadingZeros (w : UInt64) : Nat :=
  w.toBitVec.clz.toNat

end CompactCollections.Stream
