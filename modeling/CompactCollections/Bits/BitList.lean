import CompactCollections.Bits.Stream
import CompactCollections.Capacity
/-!
# Lists of bits

A `CompactCollections.BitList` is a growable list of booleans, one stream bit each, in 64-bit
words. Every bit at or beyond the length is kept clear, so a read past the end sees `false`
and two lists are equal exactly when their lengths and used words are.

* `CompactCollections.BitList.set` – writes a bit, first extending the list with clear bits
  when the position is at or past the end; the storage may not exceed `maxCapacity` words.
* `CompactCollections.BitList.insert`, `CompactCollections.BitList.removeAt` – move the later
  bits up or down by one position, a word at a time from the word holding the position, each
  word passing its top or bottom bit on to its neighbour.
* `CompactCollections.BitList.rank` – the set bits at or before a position.
* `CompactCollections.BitList.scanForward`, `CompactCollections.BitList.scanBackward` – the
  nearest position whose bit a view of the words turns on: the word holding the start, masked
  to the side being searched, then whole words until one has a bit left, taking its lowest or
  highest. Read as they are, the words find set bits; complemented, clear ones.
  `CompactCollections.BitList.nextSetBit` and its three siblings are the four scans, and
  `CompactCollections.BitList.ones` steps from set bit to set bit.
-/

namespace CompactCollections

/-- A growable list of bits packed into 64-bit words. -/
structure BitList where
  /-- The stream's words up to the last one written; bits at or beyond `len` are clear. -/
  words : Array UInt64
  /-- The storage reserved, in words: the room that growth has made. -/
  reserved : Nat
  /-- The number of bits. -/
  len : Nat
  deriving Repr

namespace BitList

/-- The empty list. -/
def empty : BitList := ⟨#[], 0, 0⟩

/-- The number of words that hold `n` bits. -/
def wordsFor (n : Nat) : Nat := (n + 63) / 64

/-- An empty list with room for `n` bits. The room itself cannot be seen; only sizing it
can fail, by aborting when `n` is within 63 of `2 ^ 64`. -/
def withCapacity (n : Nat) : Except Stop BitList := do
  let _ ← Capacity.wordSum n 63
  pure empty

/-- Bit `i`; `false` at or beyond the length. -/
def get (l : BitList) (i : Nat) : Bool :=
  i < l.len && Stream.testBit l.words i

/-- The bits in order. -/
def toList (l : BitList) : List Bool :=
  (List.range l.len).map l.get

/-- Truncates to `n` bits, or extends with clear bits. Growing storage beyond `maxCapacity`
words is an overflow naming the words needed; a length within 63 of `2 ^ 64` aborts when it
is rounded up to words. -/
def setLen (l : BitList) (n : Nat) : Except Stop BitList := do
  let need := (← Capacity.wordSum n 63) / 64
  let reserved ← if l.reserved < need then (Capacity.grow l.reserved need).mapError .refused
    else pure l.reserved
  if n < l.len then pure ⟨Stream.clearRange l.words n (64 * l.words.size), reserved, n⟩
  else pure ⟨l.words, reserved, n⟩

/-- Writes bit `i`, extending the list with clear bits to `i + 1` bits when `i` is at or past
the end. -/
def set (l : BitList) (i : Nat) (b : Bool) : Except Stop BitList := do
  let l ← if l.len ≤ i then l.setLen (← Capacity.wordSum i 1) else pure l
  pure { l with words := Stream.writeBit l.words i b }

/-- Clears bit `i` below the length; the list is unchanged otherwise. -/
def clearBit (l : BitList) (i : Nat) : BitList :=
  if i < l.len then { l with words := Stream.writeBit l.words i false } else l

/-- Appends a bit. -/
def add (l : BitList) (b : Bool) : Except Stop BitList :=
  l.set l.len b

/-- One step of the walk up, at word `t`, carrying the highest bit the word below had: the word
holding the insertion point, `first`, keeps its bits under `keep` and shifts the rest up; a
later word shifts up and takes the carried bit as its lowest. Its own highest bit is carried
on. -/
def carryUpStep (first : Nat) (keep : UInt64) (acc : Array UInt64 × UInt64) (t : Nat) :
    Array UInt64 × UInt64 :=
  let old := Stream.word acc.1 t
  let new := if t = first then (old &&& keep) ||| ((old <<< 1) &&& ~~~keep)
    else (old <<< 1) ||| acc.2
  (Stream.setWord acc.1 t new, old >>> 63)

/-- Moves the bits from position `i` up by one through word `last`, walking up from the word
holding `i` (`CompactCollections.BitList.carryUpStep`). The bit at `i` is left for the caller
to write. -/
def carryUp (ws : Array UInt64) (i last : Nat) : Array UInt64 :=
  ((List.range' (i / 64) (last + 1 - i / 64)).foldl
    (carryUpStep (i / 64) (Stream.lowBits (i % 64))) (ws, 0)).1

/-- Moves the bits after position `i` down by one through word `last`, dropping bit `i`,
walking up from the word holding `i`: that word keeps its bits below `i` and shifts the rest
down; every word takes as its highest bit the lowest bit of the word above it, not yet
rewritten. -/
def carryDown (ws : Array UInt64) (i last : Nat) : Array UInt64 :=
  let first := i / 64
  let keep := Stream.lowBits (i % 64)
  (List.range' first (last + 1 - first)).foldl
    (fun acc t =>
      let old := Stream.word acc t
      let carry := Stream.word acc (t + 1) <<< 63
      Stream.setWord acc t (if t = first then (old &&& keep) ||| ((old >>> 1) &&& ~~~keep) ||| carry
        else (old >>> 1) ||| carry))
    ws

/-- Inserts a bit at `i`, moving later bits up; at or past the end this is `set`. -/
def insert (l : BitList) (i : Nat) (b : Bool) : Except Stop BitList :=
  if l.len ≤ i then l.set i b
  else do
    let l ← l.setLen (l.len + 1)
    let l := { l with words := carryUp l.words i ((l.len - 1) / 64) }
    l.set i b

/-- Removes bit `i`, moving later bits down, and returns it; aborts when `i` is not below the
length. -/
def removeAt (l : BitList) (i : Nat) : Except Abort (Bool × BitList) :=
  if l.len ≤ i then .error (.indexOutOfBounds .bits i l.len)
  else
    let moved := carryDown l.words i ((l.len - 1) / 64)
    .ok (l.get i, ⟨Stream.clearRange moved (l.len - 1) (64 * moved.size), l.reserved, l.len - 1⟩)

/-- The number of set bits. -/
def cardinality (l : BitList) : Nat :=
  l.words.foldl (fun n w => n + Stream.popCount w) 0

/-- The number of set bits at positions `≤ i`; the cardinality when `i` is at or past the
end. -/
def rank (l : BitList) (i : Nat) : Nat :=
  if l.len ≤ i then l.cardinality
  else
    (List.range (i / 64)).foldl (fun n t => n + Stream.popCount (Stream.word l.words t)) 0
      + Stream.popCount (Stream.word l.words (i / 64) &&& Stream.lowBits (i % 64 + 1))

/-- The forward word scan: word `t` with the bits `bits` still to look at, then up to `left`
whole words after it, each through `view`. The first word with a bit left gives its lowest
one, which is no answer when it lies at or past the length. -/
def scanUpWords (l : BitList) (view : UInt64 → UInt64) (t : Nat) (bits : UInt64)
    (left : Nat) : Option Nat :=
  if bits != 0 then
    let found := 64 * t + Stream.trailingZeros bits
    if found < l.len then some found else none
  else match left with
    | 0 => none
    | left + 1 => l.scanUpWords view (t + 1) (view (Stream.word l.words (t + 1))) left

/-- The least position at or after `i`, below the length, whose bit `view` turns on: the word
holding `i` masked below it, then the later words up to the last one holding a bit. -/
def scanForward (l : BitList) (i : Nat) (view : UInt64 → UInt64) : Option Nat :=
  if l.len ≤ i then none
  else
    let t := i / 64
    l.scanUpWords view t (view (Stream.word l.words t) &&& ~~~Stream.lowBits (i % 64))
      ((l.len - 1) / 64 - t)

/-- The backward word scan: word `t` with the bits `bits` still to look at, then every word
below it, each through `view`. The first word with a bit left gives its highest one. -/
def scanDownWords (l : BitList) (view : UInt64 → UInt64) (t : Nat) (bits : UInt64) :
    Option Nat :=
  if bits != 0 then some (64 * t + 63 - Stream.leadingZeros bits)
  else match t with
    | 0 => none
    | t + 1 => l.scanDownWords view t (view (Stream.word l.words t))

/-- The greatest position at or before `i`, looking only below the length, whose bit `view`
turns on: the word holding the start masked up to it, then the words below. -/
def scanBackward (l : BitList) (i : Nat) (view : UInt64 → UInt64) : Option Nat :=
  if l.len = 0 then none
  else
    let i := min i (l.len - 1)
    let t := i / 64
    l.scanDownWords view t (view (Stream.word l.words t) &&& Stream.lowBits (i % 64 + 1))

/-- The first set bit at or after `i`. -/
def nextSetBit (l : BitList) (i : Nat) : Option Nat := l.scanForward i id

/-- The first clear bit at or after `i`, below the length. -/
def nextClearBit (l : BitList) (i : Nat) : Option Nat := l.scanForward i (~~~ ·)

/-- The last set bit at or before `i`. -/
def prevSetBit (l : BitList) (i : Nat) : Option Nat := l.scanBackward i id

/-- The last clear bit at or before `i`, below the length. -/
def prevClearBit (l : BitList) (i : Nat) : Option Nat := l.scanBackward i (~~~ ·)

/-- Removes every bit, keeping the storage. -/
def clear (l : BitList) : BitList :=
  ⟨#[], l.reserved, 0⟩

/-- The set bits from `next` on, each step going to the next set bit after the last one; at
most `count` of them. -/
def onesFrom (l : BitList) : (count : Nat) → Option Nat → List Nat
  | 0, _ => []
  | _, none => []
  | count + 1, some q => q :: l.onesFrom count (l.nextSetBit (q + 1))

/-- The positions of the set bits, ascending: the first set bit, then each time the next one
after it. There are at most as many as the length. -/
def ones (l : BitList) : List Nat :=
  l.onesFrom l.len (l.nextSetBit 0)

/-- The words that hold the bits. -/
def usedWords (l : BitList) : Array UInt64 :=
  Stream.firstWords l.words (wordsFor l.len)

/-- Equal lengths and equal used words. -/
def sameBits (a b : BitList) : Bool :=
  a.len == b.len && a.usedWords == b.usedWords

/-- The bits as a text of `0` and `1`, first bit first. -/
def text (l : BitList) : String :=
  String.ofList (l.toList.map fun b => if b then '1' else '0')

/-- Appends bits in order. -/
def addAll (l : BitList) : List Bool → Except Stop BitList
  | [] => .ok l
  | b :: rest => do addAll (← l.add b) rest

end BitList

end CompactCollections
