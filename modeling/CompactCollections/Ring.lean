import CompactCollections.Capacity
/-!
# Ring buffers

A `CompactCollections.Ring` is a first-in first-out queue of values of any type with a fixed
power-of-two capacity. Two free-running 64-bit counters tell how many values were ever written
and read; they wrap past `2 ^ 64`, and their wrapping difference is the number of values
held. Value `i` of the queue, oldest first, sits in the cell that the wrapping sum `read + i`
masked by `capacity - 1` names, which the wrap does not disturb because the capacity divides
`2 ^ 64`. The cells are a function from cell number to content, each the type's default until
written, so that a queue of any capacity costs only the values put into it.

* `CompactCollections.Ring.put` – appends a value unless the queue is full.
* `CompactCollections.Ring.pop` – takes the oldest value.

A `CompactCollections.SpinRing` shares a queue behind a spin lock: each shared call takes the
lock, runs the queue operation, and clears the lock when it returns.
-/

namespace CompactCollections

/-- A bounded FIFO queue in a power-of-two number of cells with free-running counters. -/
structure Ring (α : Type) where
  /-- The number of cells. -/
  capacity : Nat
  /-- The content of each cell; a cell never written holds the default value. -/
  cells : Nat → α
  /-- The number of values ever taken, modulo `2 ^ 64`. -/
  read : UInt64
  /-- The number of values ever put, modulo `2 ^ 64`. -/
  write : UInt64

namespace Ring

variable {α : Type}

/-- An empty queue whose capacity is the least power of two at or above `capacity`. -/
def new? [Inhabited α] (capacity : Nat) : Except CollectionError (Ring α) := do
  let c ← Capacity.nextPowerOfTwo capacity
  pure ⟨c, fun _ => default, 0, 0⟩

/-- The number of values held. -/
def len (r : Ring α) : Nat :=
  (r.write - r.read).toNat

/-- Whether no value is held. -/
def isEmpty (r : Ring α) : Bool :=
  r.read == r.write

/-- Whether every cell holds a value. -/
def isFull (r : Ring α) : Bool :=
  r.len == r.capacity

/-- The cell of a counter value: the counter masked by `capacity - 1`. -/
def cell (r : Ring α) (counter : UInt64) : Nat :=
  Capacity.wrap counter.toNat r.capacity

/-- Appends `v`, telling whether there was room. -/
def put (r : Ring α) (v : α) : Bool × Ring α :=
  if r.isFull then (false, r)
  else
    let place := r.cell r.write
    (true, { r with cells := fun i => if i = place then v else r.cells i, write := r.write + 1 })

/-- The oldest value, left in place. -/
def peek (r : Ring α) : Option α :=
  if r.isEmpty then none else some (r.cells (r.cell r.read))

/-- Takes the oldest value. -/
def pop (r : Ring α) : Option α × Ring α :=
  if r.isEmpty then (none, r) else (r.peek, { r with read := r.read + 1 })

/-- Takes the oldest value, or answers `fallback` when empty. -/
def get (r : Ring α) (fallback : α) : α × Ring α :=
  let (v, r') := r.pop
  (v.getD fallback, r')

/-- Drops every value. -/
def clear (r : Ring α) : Ring α :=
  { r with read := r.write }

/-- The values held, oldest first. -/
def toList (r : Ring α) : List α :=
  (List.range r.len).map fun i => r.cells (r.cell (r.read + i.toUInt64))

end Ring

/-- A queue shared behind a spin lock. -/
structure SpinRing (α : Type) where
  /-- Whether a caller holds the lock. -/
  locked : Bool
  /-- The queue the lock guards. -/
  buffer : Ring α

namespace SpinRing

variable {α : Type}

/-- A queue that no caller holds. -/
def ofRing (r : Ring α) : SpinRing α :=
  ⟨false, r⟩

/-- Takes the lock by swapping the flag from clear to set. A set flag is retried until another
caller clears it, so a caller alone never gets past a held lock: there is no result. -/
def lock (s : SpinRing α) : Option (SpinRing α) :=
  if s.locked then none else some { s with locked := true }

/-- Runs `f` on the queue under the lock; the guard clears the flag when `f` returns. -/
def withLock {β : Type} (s : SpinRing α) (f : Ring α → β × Ring α) : Option (β × SpinRing α) := do
  let held ← s.lock
  let (b, r) := f held.buffer
  pure (b, { held with locked := false, buffer := r })

/-- Appends under the lock, telling whether there was room. -/
def putShared (s : SpinRing α) (v : α) : Option (Bool × SpinRing α) :=
  s.withLock (·.put v)

/-- Takes the oldest value under the lock, or answers `fallback` when empty. -/
def getShared (s : SpinRing α) (fallback : α) : Option (α × SpinRing α) :=
  s.withLock (·.get fallback)

/-- The number of values, read under the lock. -/
def lenShared (s : SpinRing α) : Option (Nat × SpinRing α) :=
  s.withLock fun r => (r.len, r)

/-- The number of cells, read under the lock. -/
def capacityShared (s : SpinRing α) : Option (Nat × SpinRing α) :=
  s.withLock fun r => (r.capacity, r)

/-- The queue itself, once no other caller can reach it. -/
def intoInner (s : SpinRing α) : Ring α :=
  s.buffer

end SpinRing

end CompactCollections
