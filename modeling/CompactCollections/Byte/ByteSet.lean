import CompactCollections.Bits.Stream
/-!
# Sets of bytes

A `CompactCollections.ByteSet` is a set of bytes held as 256 presence bits in four words: the
top two bits of a byte select its word and the low six its bit. It counts its bytes as they
come and go, and keeps a flag for the null element.

* `CompactCollections.ByteSet.rank` – the members at or below a byte: the set bits of the words
  below its word, and of its own word up to its bit;
* `CompactCollections.ByteSet.nextKey`, `CompactCollections.ByteSet.prevKey` – the nearest
  member at or above, at or below, a byte: its own word masked from, or up to, its bit, then the
  whole words above, or below, until one has a bit set;
* `CompactCollections.ByteSet.toList` – the members as the iterator yields them: the least, then
  each time the least member above the one before.

The null element counts for `isEmpty` but not for `len`.
-/

namespace CompactCollections

/-- A set of bytes, with an optional null element. -/
structure ByteSet where
  /-- Four words; bit `k % 64` of word `k / 64` is set when byte `k` is a member. -/
  words : Array UInt64
  /-- The number of byte members, counted by `insert` and `remove`. -/
  len : Nat
  /-- Whether the null element is a member. -/
  hasNull : Bool
  deriving Repr

namespace ByteSet

/-- The empty set. -/
def empty : ByteSet := ⟨Array.replicate 4 0, 0, false⟩

/-- The word that holds byte `k`: its top two bits. -/
def wordOf (k : UInt8) : Nat := (k >>> 6).toNat

/-- The bit of byte `k` within its word: the one its low six bits select. -/
def bitOf (k : UInt8) : UInt64 := 1 <<< (k &&& 63).toUInt64

/-- Whether byte `k` is a member. -/
def contains (s : ByteSet) (k : UInt8) : Bool :=
  Stream.word s.words (wordOf k) &&& bitOf k != 0

/-- No byte and no null element. -/
def isEmpty (s : ByteSet) : Bool :=
  s.len == 0 && !s.hasNull

/-- Adds byte `k`, telling whether it was new. -/
def insert (s : ByteSet) (k : UInt8) : Bool × ByteSet :=
  if s.contains k then (false, s)
  else (true, { s with words := s.words.modify (wordOf k) (· ||| bitOf k), len := s.len + 1 })

/-- Removes byte `k`, telling whether it was a member. -/
def remove (s : ByteSet) (k : UInt8) : Bool × ByteSet :=
  if !s.contains k then (false, s)
  else (true, { s with words := s.words.modify (wordOf k) (· &&& ~~~bitOf k), len := s.len - 1 })

/-- Adds the null element, telling whether it was new. -/
def insertNull (s : ByteSet) : Bool × ByteSet :=
  (!s.hasNull, { s with hasNull := true })

/-- Removes the null element, telling whether it was a member. -/
def removeNull (s : ByteSet) : Bool × ByteSet :=
  (s.hasNull, { s with hasNull := false })

/-- The number of members at or below byte `k`: the set bits of the words below its word, and
those of its own word up to its bit. -/
def rank (s : ByteSet) (k : UInt8) : Nat :=
  let w := wordOf k
  let below := (List.range w).foldl (fun n t => n + Stream.popCount (Stream.word s.words t)) 0
  let upto := Stream.word s.words w &&& (~~~0 >>> (63 - (k &&& 63)).toUInt64)
  below + Stream.popCount upto

/-- The scan up from word `w`, whose bits still to look at are `bits`, with `left` words above
it: the lowest set bit of the first word that has one. The scan ends after the last word. -/
def scanUp (words : Array UInt64) (w : Nat) (bits : UInt64) (left : Nat) : Option UInt8 :=
  if bits != 0 then some (UInt8.ofNat (w * 64) + UInt8.ofNat (Stream.trailingZeros bits))
  else
    match left with
    | 0 => none
    | left + 1 => scanUp words (w + 1) (Stream.word words (w + 1)) left

/-- The least member at or above `k`. -/
def nextKey (s : ByteSet) (k : UInt8) : Option UInt8 :=
  let w := wordOf k
  scanUp s.words w (Stream.word s.words w &&& (~~~0 <<< (k &&& 63).toUInt64)) (3 - w)

/-- The scan down from word `w`, whose bits still to look at are `bits`: the highest set bit of
the first word that has one. The scan ends after word 0. -/
def scanDown (words : Array UInt64) (w : Nat) (bits : UInt64) : Option UInt8 :=
  if bits != 0 then some (UInt8.ofNat (w * 64) + 63 - UInt8.ofNat (Stream.leadingZeros bits))
  else
    match w with
    | 0 => none
    | w + 1 => scanDown words w (Stream.word words w)

/-- The greatest member at or below `k`. -/
def prevKey (s : ByteSet) (k : UInt8) : Option UInt8 :=
  let w := wordOf k
  scanDown s.words w (Stream.word s.words w &&& (~~~0 >>> (63 - (k &&& 63)).toUInt64))

/-- The least member. -/
def first (s : ByteSet) : Option UInt8 := s.nextKey 0

/-- The greatest member. -/
def last (s : ByteSet) : Option UInt8 := s.prevKey 255

/-- What the iterator yields from `next` on, at most `count` items: `next`, then the least
member above it, until there is none or the last byte has been yielded. -/
def iterFrom (s : ByteSet) : (count : Nat) → Option UInt8 → List UInt8
  | 0, _ => []
  | _, none => []
  | count + 1, some k => k :: s.iterFrom count (if k = 255 then none else s.nextKey (k + 1))

/-- The members in ascending order, as the iterator yields them; it yields at most one item
per byte. -/
def toList (s : ByteSet) : List UInt8 :=
  s.iterFrom 256 s.first

/-- Removes every member and the null element. -/
def clear (_ : ByteSet) : ByteSet := empty

/-- The same words, count and null flag. -/
def same (a b : ByteSet) : Bool :=
  a.words == b.words && a.len == b.len && a.hasNull == b.hasNull

/-- Adds every byte in turn. -/
def insertAll (s : ByteSet) (elements : List UInt8) : ByteSet :=
  elements.foldl (fun s k => (s.insert k).2) s

end ByteSet

end CompactCollections
