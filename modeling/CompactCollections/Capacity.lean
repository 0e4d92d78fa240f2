import CompactCollections.Error
/-!
# Sizing policies

Two small rules decide how large a collection's storage becomes.

* `CompactCollections.Capacity.nextPowerOfTwo` – the least power of two at or above a request
  (at least one), refused when it exceeds `CompactCollections.maxCapacity`. Tables and ring
  buffers take their sizes from it, so an index is reduced by a mask.
* `CompactCollections.Capacity.wrap` – a position reduced into storage of such a size by
  masking with `size - 1`, as the tables and the ring buffers index their slots.
* `CompactCollections.Capacity.grow` – the storage size after a growth that must hold
  `required` units: half as much again as before, but never less than asked for nor less than
  four, and refused when the request alone exceeds `maxCapacity`.

Both report the request itself in the error, which is what a caller sees in the message.
Counts are machine words: `CompactCollections.Capacity.wordLimit` bounds every count a caller
can pass, and a sum that reaches it is an overflow.
-/

namespace CompactCollections.Capacity

/-- Every count is below `2 ^ 64`, the range of a machine word. -/
def wordLimit : Nat := 1 <<< 64

/-- The machine-word sum `n + k`; aborts when it reaches `wordLimit`. -/
def wordSum (n k : Nat) : Except Stop Nat :=
  if wordLimit ≤ n + k then .error (.aborted .wordOverflow) else .ok (n + k)

/-- The least power of two that is at least `n` and at least one: the power just above the
highest set bit of `n - 1`. -/
def powerOfTwoAtLeast (n : Nat) : Nat :=
  if n ≤ 1 then 1 else 1 <<< ((n - 1).log2 + 1)

/-- The least power of two that is at least `max n 1`, or an overflow error naming `n` when
that power exceeds `maxCapacity`. -/
def nextPowerOfTwo (n : Nat) : Except CollectionError Nat :=
  let p := powerOfTwoAtLeast n
  if p ≤ maxCapacity then .ok p else .error (.capacityOverflow n)

/-- Position `x` wrapped into storage of `size` units, a power of two: its bits under the mask
`size - 1`. -/
def wrap (x size : Nat) : Nat :=
  x &&& (size - 1)

/-- The new storage size when `current` units must grow to hold `required`: one and a half
times `current` (capped at `maxCapacity`), raised to `required` and to four. A request beyond
`maxCapacity` is an overflow. -/
def grow (current required : Nat) : Except CollectionError Nat :=
  if maxCapacity < required then .error (.capacityOverflow required)
  else .ok (max (max (min (current + current / 2) maxCapacity) required) 4)

end CompactCollections.Capacity
