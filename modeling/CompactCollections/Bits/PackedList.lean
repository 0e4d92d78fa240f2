import CompactCollections.Bits.Stream
import CompactCollections.Capacity
/-!
# Packed lists of fixed-width numbers

A `CompactCollections.PackedList` holds unsigned numbers of `width` bits each,
`1 ≤ width ≤ 64`, back to back in a bit stream: item `i` is the field at stream position
`i * width`. A written value keeps only its low `width` bits. Every stream bit at or beyond
`len * width` is clear, so the used words are a function of the items.

* `CompactCollections.PackedList.set` – writes an item; past the end the list first grows,
  and the new positions take the list's default value.
* `CompactCollections.PackedList.insert`, `CompactCollections.PackedList.removeAt` – shift the
  later items by one field.
* `CompactCollections.PackedList.reserveFor` – storage for a number of items: `⌈items ·
  width / 64⌉` words, grown by `CompactCollections.Capacity.grow`; an item count whose bit
  count does not fit a machine word is itself the overflow that is reported.

Positions and counts are machine words. Growth stops in one of two ways
(`CompactCollections.Stop`): a storage request the sizing rule refuses, which a fallible
caller reports, or a sum that passes the largest word – a position one below `2 ^ 64` grown
past, or a bit count within 63 of it rounded up to words – which always aborts.
-/

namespace CompactCollections

/-- A growable list of `width`-bit numbers packed into 64-bit words. -/
structure PackedList where
  /-- The stream's words up to the last one written; later words read as zero. -/
  words : Array UInt64
  /-- The storage reserved, in words: the room that growth has made. -/
  reserved : Nat
  /-- The number of items. -/
  len : Nat
  /-- The width of every item, `1 ≤ width ≤ 64`. -/
  width : Nat
  /-- The value that growth writes into new positions, already reduced to `width` bits. -/
  default : UInt64
  deriving Repr

namespace PackedList

/-- An empty list of `width`-bit items with default zero; widths outside `1..=64` are
refused. -/
def new? (width : Nat) : Except CollectionError PackedList :=
  if 1 ≤ width ∧ width ≤ 64 then .ok ⟨#[], 0, 0, width, 0⟩ else .error (.invalidBitWidth width)

/-- An empty list of the same width and default, without storage. -/
def emptied (l : PackedList) : PackedList :=
  { l with words := #[], reserved := 0, len := 0 }

/-- The largest item: all `width` bits set. -/
def mask (l : PackedList) : UInt64 :=
  Stream.lowBits l.width

/-- An empty list whose growth writes `d`, reduced to the width. -/
def withDefault (l : PackedList) (d : UInt64) : PackedList :=
  { l with default := d &&& l.mask }

/-- The number of items the storage holds without growing. -/
def capacity (l : PackedList) : Nat :=
  l.reserved * 64 / l.width

/-- The number of words that hold `items` items. -/
def wordsFor (l : PackedList) (items : Nat) : Nat :=
  (items * l.width + 63) / 64

/-- Item `i`, which must be below the length. -/
def read (l : PackedList) (i : Nat) : UInt64 :=
  Stream.read l.words (i * l.width) l.width

/-- Writes the low bits of `v` as item `i`. -/
def write (l : PackedList) (i : Nat) (v : UInt64) : PackedList :=
  { l with words := Stream.write l.words (i * l.width) l.width v }

/-- Item `i`, or `none` at or past the end. -/
def get? (l : PackedList) (i : Nat) : Option UInt64 :=
  if i < l.len then some (l.read i) else none

/-- Item `i`; aborts at or past the end. -/
def get (l : PackedList) (i : Nat) : Except Abort UInt64 :=
  if i < l.len then .ok (l.read i) else .error (.indexOutOfBounds .packed i l.len)

/-- The items in order. -/
def toList (l : PackedList) : List UInt64 :=
  (List.range l.len).map l.read

/-- Grows the storage to hold `items` items. A bit count past the largest word is refused,
naming the items; rounding a bit count within 63 of it up to words aborts. -/
def reserveFor (l : PackedList) (items : Nat) : Except Stop PackedList :=
  if Capacity.wordLimit ≤ items * l.width then .error (.refused (.capacityOverflow items))
  else do
    let required := (← Capacity.wordSum (items * l.width) 63) / 64
    if required ≤ l.reserved then pure l
    else do
      let grown ← (Capacity.grow l.reserved required).mapError .refused
      pure { l with reserved := grown }

/-- Makes room for `additional` more items; a total past the largest word is refused. -/
def reserve (l : PackedList) (additional : Nat) : Except Stop PackedList :=
  if Capacity.wordLimit ≤ l.len + additional then
    .error (.refused (.capacityOverflow (Capacity.wordLimit - 1)))
  else l.reserveFor (l.len + additional)

/-- Writes the default value into positions `[i, i + count)`. -/
def fill (l : PackedList) (i : Nat) : Nat → PackedList
  | 0 => l
  | count + 1 => (l.write i l.default).fill (i + 1) count

/-- Extends the list to `n > len` items, new positions holding the default. -/
def growTo (l : PackedList) (n : Nat) : Except Stop PackedList := do
  let l ← l.reserveFor n
  let l' := { l with len := n }
  pure (if l.default = 0 then l' else l'.fill l.len (n - l.len))

/-- Writes `v` as item `i`, first growing the list to `i + 1` items when `i` is at or past the
end. -/
def set (l : PackedList) (i : Nat) (v : UInt64) : Except Stop PackedList := do
  let l ← if l.len ≤ i then l.growTo (← Capacity.wordSum i 1) else pure l
  pure (l.write i v)

/-- Appends `v`. -/
def add (l : PackedList) (v : UInt64) : Except Stop PackedList :=
  l.set l.len v

/-- Inserts `v` at `i`, moving later items up; at or past the end this is `set`. -/
def insert (l : PackedList) (i : Nat) (v : UInt64) : Except Stop PackedList :=
  if l.len ≤ i then l.set i v
  else do
    let l ← l.reserveFor (l.len + 1)
    let words := Stream.shiftUp l.words (i * l.width) l.width ((l.len + 1) * l.width)
    pure ({ l with words := words, len := l.len + 1 }.write i v)

/-- Drops item `i`, moving later items down; nothing changes at or past the end. -/
def erase (l : PackedList) (i : Nat) : PackedList :=
  if i < l.len then
    { l with words := Stream.shiftDown l.words (i * l.width) l.width (l.len * l.width),
             len := l.len - 1 }
  else l

/-- Removes item `i`, moving later items down, and returns it; aborts at or past the end. -/
def removeAt (l : PackedList) (i : Nat) : Except Abort (UInt64 × PackedList) := do
  let v ← l.get i
  pure (v, l.erase i)

/-- The first position holding `v`; a value wider than the items is never found. -/
def indexOf (l : PackedList) (v : UInt64) : Option Nat :=
  if v &&& ~~~l.mask != 0 then none
  else (List.range l.len).find? fun i => l.read i == v

/-- The last position holding `v`. -/
def lastIndexOf (l : PackedList) (v : UInt64) : Option Nat :=
  if v &&& ~~~l.mask != 0 then none
  else (List.range l.len).reverse.find? fun i => l.read i == v

/-- Truncates to `n ≤ len` items, clearing the fields it drops. -/
def truncate (l : PackedList) (n : Nat) : PackedList :=
  { l with words := Stream.clearRange l.words (n * l.width) (l.len * l.width), len := n }

/-- Truncates to `n` items, or extends with the default. -/
def setLen (l : PackedList) (n : Nat) : Except Stop PackedList :=
  if l.len < n then l.growTo n else .ok (l.truncate n)

/-- Removes the first occurrence of `v`, telling whether there was one. -/
def removeValue (l : PackedList) (v : UInt64) : Except Abort (Bool × PackedList) :=
  match l.indexOf v with
  | some i => do
    let (_, l') ← l.removeAt i
    pure (true, l')
  | none => .ok (false, l)

/-- Removes and returns the last item. -/
def pop (l : PackedList) : Option UInt64 × PackedList :=
  if l.len = 0 then (none, l) else (some (l.read (l.len - 1)), l.truncate (l.len - 1))

/-- Removes every item; the storage stays reserved. -/
def clear (l : PackedList) : PackedList :=
  { l with words := #[], len := 0 }

/-- Shrinks the storage to the words that hold the items. -/
def fit (l : PackedList) : PackedList :=
  { l with words := l.words.extract 0 (l.wordsFor l.len), reserved := l.wordsFor l.len }

/-- The words that hold the items. -/
def usedWords (l : PackedList) : Array UInt64 :=
  Stream.firstWords l.words (l.wordsFor l.len)

/-- Appends each value, after making room for all of them. -/
def extend (l : PackedList) (vs : List UInt64) : Except Stop PackedList := do
  let l ← l.reserve vs.length
  vs.foldlM (fun l v => l.add v) l

/-- A list of `width`-bit items holding `vs`, each reduced to the width. -/
def ofValues (width : Nat) (vs : List UInt64) : Except Stop PackedList := do
  let l ← (new? width).mapError .refused
  l.extend vs

/-- Equal widths, lengths and used words. -/
def sameItems (a b : PackedList) : Bool :=
  a.width == b.width && a.len == b.len && a.usedWords == b.usedWords

end PackedList

end CompactCollections
