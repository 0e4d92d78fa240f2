import CompactCollections.Bits.BitList
import CompactCollections.Bits.PackedList
/-!
# Rank-indexed overlays

A `CompactCollections.Ranked` stores a partial map from positions to values in two parts: a
`CompactCollections.BitList` of presence bits, and a dense list holding only the values of
present positions, in position order. The value of a present position `i` sits at index
`rank i - 1` of the dense list, where `rank i` counts the present positions `≤ i`; an absent
position costs one bit.

The dense list is any `CompactCollections.DenseStore`: a plain array, or a
`CompactCollections.PackedList` whose values keep only their low bits.

* `CompactCollections.Ranked.put` – stores a value and returns the one it replaces; a new
  position is marked first and its value inserted at its rank.
* `CompactCollections.Ranked.take` – removes a position's value and clears its bit; the
  presence list keeps its length.
-/

namespace CompactCollections

/-- A dense list of values, as a rank-indexed overlay uses it. -/
class DenseStore (S : Type) (α : outParam Type) where
  /-- The number of values. -/
  size : S → Nat
  /-- The value at an index. -/
  get? : S → Nat → Option α
  /-- Inserts a value at an index, moving later ones up. -/
  insertAt : S → Nat → α → Except Stop S
  /-- Removes the value at an index, moving later ones down. -/
  eraseAt : S → Nat → S
  /-- Replaces the value at an index. -/
  replace : S → Nat → α → S
  /-- Removes every value. -/
  clear : S → S
  /-- The values in order. -/
  toList : S → List α
  /-- Whether two stores hold the same values. -/
  same : S → S → Bool

instance {α : Type} [BEq α] : DenseStore (Array α) α where
  size a := a.size
  get? a i := a[i]?
  insertAt a i v := .ok (a.insertIdxIfInBounds i v)
  eraseAt a i := a.eraseIdxIfInBounds i
  replace a i v := a.setIfInBounds i v
  clear _ := #[]
  toList a := a.toList
  same a b := a == b

instance : DenseStore PackedList UInt64 where
  size l := l.len
  get? l i := l.get? i
  insertAt l i v := l.insert i v
  eraseAt l i := l.erase i
  replace l i v := if i < l.len then l.write i v else l
  clear l := l.clear
  toList l := l.toList
  same a b := a.sameItems b

/-- A partial map from positions to values: presence bits and the present values in
position order. -/
structure Ranked (S : Type) where
  /-- Bit `i` is set when position `i` holds a value. -/
  presence : BitList
  /-- The values of the present positions, in position order. -/
  values : S

namespace Ranked

variable {S α : Type} [DenseStore S α]

/-- No position holds a value; the dense list is emptied. -/
def ofStore (values : S) : Ranked S :=
  ⟨BitList.empty, DenseStore.clear values⟩

/-- Whether position `i` holds a value. -/
def contains (r : Ranked S) (i : Nat) : Bool :=
  r.presence.get i

/-- The index in the dense list of the value of position `i`. -/
def denseIndex (r : Ranked S) (i : Nat) : Option Nat :=
  if r.contains i then some (r.presence.rank i - 1) else none

/-- The value of position `i`. -/
def get? (r : Ranked S) (i : Nat) : Option α :=
  (r.denseIndex i).bind (DenseStore.get? r.values)

/-- Stores `v` at position `i` and returns the value it replaces. Marking a new position may
extend the presence list, which can overflow. -/
def put (r : Ranked S) (i : Nat) (v : α) : Except Stop (Option α × Ranked S) :=
  match r.denseIndex i with
  | some d => .ok (DenseStore.get? r.values d, { r with values := DenseStore.replace r.values d v })
  | none => do
    let presence ← r.presence.set i true
    let values ← DenseStore.insertAt r.values (presence.rank i - 1) v
    pure (none, ⟨presence, values⟩)

/-- Removes the value of position `i` and returns it. -/
def take (r : Ranked S) (i : Nat) : Option α × Ranked S :=
  match r.denseIndex i with
  | some d =>
    (DenseStore.get? r.values d, ⟨r.presence.clearBit i, DenseStore.eraseAt r.values d⟩)
  | none => (none, r)

/-- Removes every value and every presence bit. -/
def clear (r : Ranked S) : Ranked S :=
  ⟨r.presence.clear, DenseStore.clear r.values⟩

/-- The number of values. -/
def cardinality (r : Ranked S) : Nat :=
  DenseStore.size r.values

/-- Equal presence bits and equal dense values. -/
def same (a b : Ranked S) : Bool :=
  a.presence.sameBits b.presence && DenseStore.same a.values b.values

end Ranked

end CompactCollections
