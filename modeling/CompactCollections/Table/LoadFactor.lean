import CompactCollections.Capacity
/-!
# Load factors and table sizes

A table grows when the share of its slots in use reaches its load factor. The load factor is a
single-precision number, kept here as its bit pattern, clamped into `[0.01, 0.99]`; NaN stands
for one half. Every clamped value is a normal number `m / 2 ^ s` with a 24-bit significand
`m` and `24 ≤ s ≤ 30`, so the two quantities that sizing needs are exact in `Nat`:

* `CompactCollections.LoadFactor.floorMul` – `⌊n · lf⌋`, the number of slots a table of `n`
  slots may fill;
* `CompactCollections.LoadFactor.ceilDiv` – `⌈e / lf⌉`, the slots that `e` entries need.

Double-precision division and rounding give the same ceiling: a quotient below `2 ^ 30` lies
at least `1 / m > 2 ^ -24` away from every integer it does not equal, farther than half a unit
in the last place (`CompactCollections.LoadFactor.tableCapacityDouble_eq`).

* `CompactCollections.LoadFactor.threshold` – the fill at which a table of `n` slots grows,
  kept within `[1, n - 1]` so that one slot always stays empty.
* `CompactCollections.LoadFactor.tableCapacity` – the slots for `e` expected entries: the
  power of two above the need (at least four), doubled once more when the threshold would be
  reached by `e` entries; an overflow names `e` when the need reaches `maxCapacity`.
-/

namespace CompactCollections

/-- A load factor, as the bit pattern of a single-precision number in `[0.01, 0.99]`. -/
structure LoadFactor where
  /-- The single-precision bit pattern. -/
  bits : UInt32
  deriving DecidableEq, Repr

namespace LoadFactor

/-- One half, the load factor of a table built without one and the stand-in for NaN. -/
def half : LoadFactor := ⟨0x3F000000⟩

/-- The pattern of the least load factor, `0.01`. -/
def leastBits : UInt32 := 0x3C23D70A

/-- The pattern of the greatest load factor, `0.99`. -/
def mostBits : UInt32 := 0x3F7D70A4

/-- Whether a single-precision pattern is a NaN: all exponent bits set, fraction non-zero. -/
def isNaNBits (b : UInt32) : Bool :=
  (b &&& 0x7F800000) == 0x7F800000 && (b &&& 0x007FFFFF) != 0

/-- Clamps a single-precision number, given by its pattern, into `[0.01, 0.99]`; NaN becomes
one half. Negative numbers, both zeros among them, fall below the range; among non-negative
patterns the order of numbers is the order of patterns. -/
def clamp (b : UInt32) : LoadFactor :=
  if isNaNBits b then half
  else if 0x80000000 ≤ b then ⟨leastBits⟩
  else if b < leastBits then ⟨leastBits⟩
  else if mostBits < b then ⟨mostBits⟩
  else ⟨b⟩

/-- The 24-bit significand `m` of the value `m / 2 ^ s`. -/
def significand (lf : LoadFactor) : Nat :=
  ((lf.bits &&& 0x007FFFFF) ||| 0x00800000).toNat

/-- The exponent `s` of the value `m / 2 ^ s`. -/
def scale (lf : LoadFactor) : Nat :=
  150 - (lf.bits >>> 23).toNat

/-- `⌊n · lf⌋`. -/
def floorMul (lf : LoadFactor) (n : Nat) : Nat :=
  (n * lf.significand) >>> lf.scale

/-- `⌈e / lf⌉`. -/
def ceilDiv (lf : LoadFactor) (e : Nat) : Nat :=
  ((e <<< lf.scale) + lf.significand - 1) / lf.significand

/-- The number of occupied slots at which a table of `n` slots grows: `⌊n · lf⌋`, at least one
and at most `n - 1`. -/
def threshold (lf : LoadFactor) (n : Nat) : Nat :=
  min (max (lf.floorMul n) 1) (n - 1)

/-- The number of slots of a table built for `expected` entries. -/
def tableCapacity (lf : LoadFactor) (expected : Nat) : Except CollectionError Nat := do
  let needed := lf.ceilDiv expected
  if maxCapacity ≤ needed then
    throw (.capacityOverflow expected)
  let capacity ← Capacity.nextPowerOfTwo (max (needed + 1) 4)
  if lf.threshold capacity ≤ expected then
    Capacity.nextPowerOfTwo (capacity * 2)
  else
    pure capacity

end LoadFactor

end CompactCollections
