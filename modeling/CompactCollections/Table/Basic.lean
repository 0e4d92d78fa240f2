import CompactCollections.Table.LoadFactor
import Std.Data.ExtTreeMap
/-!
# Open-addressing tables

A `CompactCollections.Table` maps keys, given as non-zero 64-bit patterns, to values. Its slots
form a power-of-two array; a key lives in the first slot, going forward from its *ideal slot*
(its hash masked by one less than the size, wrapping at the end), that is empty or holds the
key. Every slot index is reduced by that mask (`CompactCollections.Capacity.wrap`). Two keys are
kept beside the slots, because no slot can tell them apart from emptiness: the all-zero
pattern and the null key. Only the occupied slots are stored, in an ordered map from slot
index to entry, so that a table costs what it holds rather than its size, and its entries
come out in slot order.

* `CompactCollections.Table.probe` – the linear probe for a key: the slot holding it, or the
  first empty slot on its way.
* `CompactCollections.Table.insert` – stores a value and returns the previous one. A new key
  in a slot may bring the number of occupied slots to the table's threshold; the table then
  doubles, re-placing the entries in slot order (`CompactCollections.Table.rehash`).
* `CompactCollections.Table.take` – removes a key and returns its value. The slot it leaves is
  closed by shifting later keys of the same run back (`CompactCollections.Table.shiftBack`),
  so that every remaining key sits where it would had the removed key never been there.
* `CompactCollections.Table.reserve` – makes room for more entries ahead of time.

Every probe walks at most as many slots as the table has. Since the threshold is below the
size, at least one slot is always empty, and the walk always ends at a key or a gap.
-/

namespace CompactCollections

/-- The occupied slots of a table: slot index to a non-zero key and its value. -/
abbrev Slots (V : Type) := Std.ExtTreeMap Nat (UInt64 × V)

/-- An open-addressing table with linear probing, keyed by 64-bit patterns. -/
structure Table (V : Type) where
  /-- The hash of a key pattern; a key's ideal slot is its hash masked by the number of slots less
  one. -/
  hash : UInt64 → UInt64
  /-- The share of slots that may be occupied before the table grows. -/
  loadFactor : LoadFactor
  /-- The number of slots. -/
  capacity : Nat
  /-- The occupied slots, each below `capacity`; a slot missing here is empty. -/
  slots : Slots V
  /-- The number of occupied slots. -/
  assigned : Nat
  /-- The number of occupied slots at which the table grows. -/
  resizeAt : Nat
  /-- The value under the all-zero key, if present. -/
  zero : Option V
  /-- The value under the null key, if present. -/
  null : Option V

/-- The outcome of a linear probe. -/
inductive Probe where
  /-- The key is in this slot. -/
  | found (slot : Nat)
  /-- The key is absent, and this is the first empty slot on its way. -/
  | vacant (slot : Nat)
  /-- Every slot was looked at; this cannot happen while one slot is empty. -/
  | exhausted
  deriving DecidableEq, Repr

namespace Table

variable {V : Type}

/-- An empty table of `capacity` slots. -/
def empty (hash : UInt64 → UInt64) (lf : LoadFactor) (capacity : Nat) : Table V where
  hash := hash
  loadFactor := lf
  capacity := capacity
  slots := ∅
  assigned := 0
  resizeAt := lf.threshold capacity
  zero := none
  null := none

/-- An empty table sized for `expected` entries at load factor `lf`. -/
def withConfig (hash : UInt64 → UInt64) (expected : Nat) (lf : LoadFactor) :
    Except CollectionError (Table V) := do
  let capacity ← lf.tableCapacity expected
  pure (empty hash lf capacity)

/-- The number of keys, the zero and null keys included. -/
def len (t : Table V) : Nat :=
  t.assigned + (if t.zero.isSome then 1 else 0) + (if t.null.isSome then 1 else 0)

/-- The slot where the probe for key `k` starts: its hash masked by `capacity - 1`. -/
def ideal (t : Table V) (k : UInt64) : Nat :=
  Capacity.wrap (t.hash k).toNat t.capacity

/-- The entry in slot `i`, if the slot is occupied. -/
def entryAt? (t : Table V) (i : Nat) : Option (UInt64 × V) :=
  t.slots[i]?

/-- Looks at slots from `i` on, at most `fuel` of them, for `k` or an empty slot, wrapping
after slot `size - 1`. -/
def seek (slots : Slots V) (size : Nat) (k : UInt64) (i : Nat) : Nat → Probe
  | 0 => .exhausted
  | fuel + 1 =>
    match slots[i]? with
    | some (key, _) =>
      if key = k then .found i else seek slots size k (Capacity.wrap (i + 1) size) fuel
    | none => .vacant i

/-- The linear probe for a non-zero key. -/
def probe (t : Table V) (k : UInt64) : Probe :=
  seek t.slots t.capacity k (t.ideal k) t.capacity

/-- The first empty slot from `i` on, looking at most at `fuel` slots, wrapping after slot
`size - 1`. -/
def vacancy (slots : Slots V) (size : Nat) (i : Nat) : Nat → Option Nat
  | 0 => none
  | fuel + 1 =>
    match slots[i]? with
    | some _ => vacancy slots size (Capacity.wrap (i + 1) size) fuel
    | none => some i

/-- Puts an entry into the first empty slot from its ideal slot, without looking for its key:
the placement that a rehash uses, where keys are known to be distinct. -/
def place (t : Table V) (e : UInt64 × V) : Table V :=
  match vacancy t.slots t.capacity (t.ideal e.1) t.capacity with
  | some i => { t with slots := t.slots.insert i e }
  | none => t

/-- The entries in the slots, in slot order. -/
def slotEntries (t : Table V) : List (UInt64 × V) :=
  t.slots.toList.map Prod.snd

/-- Moves the entries into `capacity` empty slots, placing them in the order of their old
slots; refused when `capacity` exceeds `maxCapacity`. -/
def rehash (t : Table V) (capacity : Nat) : Except CollectionError (Table V) :=
  if maxCapacity < capacity then .error (.capacityOverflow capacity)
  else
    let fresh : Table V :=
      { t with capacity := capacity, slots := ∅,
               resizeAt := t.loadFactor.threshold capacity }
    .ok (t.slotEntries.foldl place fresh)

/-- Stores `v` under `k` and returns the value it replaces. A new key in a slot counts towards
the threshold, and reaching it doubles the table, which fails beyond `maxCapacity`. -/
def insert (t : Table V) (k : UInt64) (v : V) : Except CollectionError (Option V × Table V) :=
  if k = 0 then .ok (t.zero, { t with zero := some v })
  else
    match t.probe k with
    | .found i => .ok ((t.entryAt? i).map Prod.snd, { t with slots := t.slots.insert i (k, v) })
    | .vacant i =>
      let t' := { t with slots := t.slots.insert i (k, v), assigned := t.assigned + 1 }
      if t'.resizeAt ≤ t'.assigned then
        (t'.rehash (2 * t'.capacity)).map fun grown => (none, grown)
      else .ok (none, t')
    | .exhausted => .ok (none, t)

/-- Stores `v` under the null key and returns the value it replaces. -/
def insertNull (t : Table V) (v : V) : Option V × Table V :=
  (t.null, { t with null := some v })

/-- Stores `v` under a key that may be the null key. -/
def insertNullable (t : Table V) (k : Option UInt64) (v : V) :
    Except CollectionError (Option V × Table V) :=
  match k with
  | some k => t.insert k v
  | none => .ok (t.insertNull v)

/-- Closes the gap at slot `gap`. The slots after it are scanned in turn, `distance` being how
far the scan has gone past the gap; a key whose ideal slot is at least `distance` slots behind
its own, the wrapping difference of the two slots masked, moves into the gap, and its slot
becomes the gap. The scan ends at an empty slot, and
the last gap is emptied. -/
def shiftBack (hash : UInt64 → UInt64) (size : Nat) (slots : Slots V) (gap distance : Nat) :
    Nat → Slots V
  | 0 => slots.erase gap
  | fuel + 1 =>
    let d := distance + 1
    let s := Capacity.wrap (gap + d) size
    match slots[s]? with
    | some (key, value) =>
      let ideal := Capacity.wrap (hash key).toNat size
      let displacement := Capacity.wrap (s.toUInt64 - ideal.toUInt64).toNat size
      if d ≤ displacement then
        shiftBack hash size (slots.insert gap (key, value)) s 0 fuel
      else shiftBack hash size slots gap d fuel
    | none => slots.erase gap

/-- Removes key `k` and returns its value. -/
def take (t : Table V) (k : UInt64) : Option V × Table V :=
  if k = 0 then (t.zero, { t with zero := none })
  else
    match t.probe k with
    | .found i =>
      ((t.entryAt? i).map Prod.snd,
        { t with slots := shiftBack t.hash t.capacity t.slots i 0 t.capacity,
                 assigned := t.assigned - 1 })
    | _ => (none, t)

/-- Removes the null key and returns its value. -/
def takeNull (t : Table V) : Option V × Table V :=
  (t.null, { t with null := none })

/-- Removes a key that may be the null key. -/
def takeNullable (t : Table V) : Option UInt64 → Option V × Table V
  | some k => t.take k
  | none => t.takeNull

/-- Removes every key; the number of slots stays. -/
def clear (t : Table V) : Table V :=
  { t with slots := ∅, assigned := 0, zero := none, null := none }

/-- Makes room for `additional` more keys in slots without further growth. Nothing changes
when the threshold is not reached; otherwise the table grows to the size built for all of
them, and an overflow leaves it as it was. -/
def reserve (t : Table V) (additional : Nat) : Except CollectionError (Table V) :=
  let wanted := t.assigned + additional
  if Capacity.wordLimit ≤ wanted then .error (.capacityOverflow (Capacity.wordLimit - 1))
  else if wanted < t.resizeAt then .ok t
  else do
    let capacity ← t.loadFactor.tableCapacity wanted
    if t.capacity < capacity then t.rehash capacity else pure t

/-- The slot holding non-zero key `k`, if any. -/
def find? (t : Table V) (k : UInt64) : Option Nat :=
  match t.probe k with
  | .found i => some i
  | _ => none

end Table

end CompactCollections
