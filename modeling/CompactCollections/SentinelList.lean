import CompactCollections.Bits.PackedList
/-!
# Packed lists with a sentinel for absence

A `CompactCollections.SentinelList` is a packed list of `width`-bit numbers in which one value,
the sentinel, marks an absent position. Growth fills new positions with the sentinel, so a
list that grows past its end gains absent positions. Storing the sentinel as a value is
refused, before anything changes: the value would read back as an absence.
-/

namespace CompactCollections

/-- A packed list of optional numbers whose absent positions hold `sentinel`. -/
structure SentinelList where
  /-- The packed items; growth writes the sentinel. -/
  list : PackedList
  /-- The value that marks an absent position, reduced to the width. -/
  sentinel : UInt64
  deriving Repr

namespace SentinelList

/-- An empty list of `width`-bit items whose absent positions hold `sentinel` (reduced to the
width). -/
def withSentinel (list : PackedList) (sentinel : UInt64) : SentinelList :=
  let list := list.withDefault sentinel
  ⟨list, list.default⟩

/-- The stored form of a position: a value reduced to the width, which must differ from the
sentinel, or the sentinel for an absence. -/
def encode (l : SentinelList) : Option UInt64 → Except Abort UInt64
  | some v =>
    let v := v &&& l.list.mask
    if v = l.sentinel then .error (.reservedNull v.toNat) else .ok v
  | none => .ok l.sentinel

/-- The value at position `i`; absent at or past the end. -/
def get? (l : SentinelList) (i : Nat) : Option UInt64 :=
  (l.list.get? i).filter (· != l.sentinel)

/-- Writes a position and returns what was there. -/
def set (l : SentinelList) (i : Nat) (v : Option UInt64) : Except Abort (Option UInt64 × SentinelList) := do
  let raw ← l.encode v
  let list ← abortOnStop (l.list.set i raw)
  pure (l.get? i, { l with list := list })

/-- Appends a position. -/
def add (l : SentinelList) (v : Option UInt64) : Except Abort SentinelList := do
  let raw ← l.encode v
  pure { l with list := ← abortOnStop (l.list.add raw) }

/-- Inserts a position at `i`, moving later ones up. -/
def insert (l : SentinelList) (i : Nat) (v : Option UInt64) : Except Abort SentinelList := do
  let raw ← l.encode v
  pure { l with list := ← abortOnStop (l.list.insert i raw) }

/-- Removes position `i` and returns its value; aborts at or past the end. -/
def removeAt (l : SentinelList) (i : Nat) : Except Abort (Option UInt64 × SentinelList) := do
  let (raw, list) ← l.list.removeAt i
  pure (if raw = l.sentinel then none else some raw, { l with list := list })

/-- Every position, a value or an absence. -/
def toList (l : SentinelList) : List (Option UInt64) :=
  l.list.toList.map fun v => if v = l.sentinel then none else some v

/-- Appends positions in order. -/
def addAll (l : SentinelList) : List (Option UInt64) → Except Abort SentinelList
  | [] => .ok l
  | v :: rest => do addAll (← l.add v) rest

/-- Equal packed items and equal sentinels. -/
def same (a b : SentinelList) : Bool :=
  a.list.sameItems b.list && a.sentinel == b.sentinel

end SentinelList

end CompactCollections
