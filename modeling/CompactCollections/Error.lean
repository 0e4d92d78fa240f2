/-!
# Errors and aborts

Every collection of this library can fail in two ways, and the two are kept apart because
they end differently.

* `CompactCollections.CollectionError` – a failure that a fallible operation reports and the
  collection survives unchanged: a bit width outside `1..=64`, or a growth that would need more
  than `CompactCollections.maxCapacity` slots.
* `CompactCollections.Abort` – a failure after which the collection cannot be used any more:
  an infallible operation that met a `CollectionError`, a position out of range, a value
  that a list reserves for absence, or a position or count whose sum with a small amount
  passes the largest machine word.

The wording of each lives in one function, `CollectionError.message` and `Abort.message`.
-/

namespace CompactCollections

/-- The most slots a table, or storage words a packed list, may ever hold: `2 ^ 30`. -/
def maxCapacity : Nat := 1 <<< 30

/-- A failure that a fallible operation reports; the collection is left as it was. -/
inductive CollectionError where
  /-- A packed list was asked for items of a width outside `1..=64`. -/
  | invalidBitWidth (bits : Nat)
  /-- Growing a collection would need `requested` slots, more than `maxCapacity`. -/
  | capacityOverflow (requested : Nat)
  deriving DecidableEq, Repr

/-- The text that describes an error. -/
def CollectionError.message : CollectionError → String
  | .invalidBitWidth bits => s!"bit width must be in 1..=64, got {bits}"
  | .capacityOverflow requested =>
    s!"capacity overflow: {requested} slots requested, at most {maxCapacity} allowed"

/-- The three lists that check positions, each named in its out-of-range message. -/
inductive ListKind where
  /-- The list of fixed-width packed items. -/
  | packed
  /-- The list of single bits. -/
  | bits
  /-- The list whose positions may be absent. -/
  | nullable
  deriving DecidableEq, Repr

/-- The name under which a list reports an out-of-range position. -/
def ListKind.name : ListKind → String
  | .packed => "BitsList"
  | .bits => "BitList"
  | .nullable => "NullList"

/-- A failure that ends all further work on a collection. -/
inductive Abort where
  /-- An operation that promises to succeed met an error. -/
  | failed (error : CollectionError)
  /-- Position `index` was read or removed in a list of `length` positions. -/
  | indexOutOfBounds (list : ListKind) (index length : Nat)
  /-- Positions `a` and `b` were to be exchanged in a list of `length` positions. -/
  | swapOutOfBounds (a b length : Nat)
  /-- A value equal to the sentinel that marks an absent position was to be stored. -/
  | reservedNull (value : Nat)
  /-- A sum of a position or count and a small amount passed `2 ^ 64 - 1`, the largest
  machine word. -/
  | wordOverflow
  deriving DecidableEq, Repr

/-- The text that describes an abort. -/
def Abort.message : Abort → String
  | .failed error => error.message
  | .indexOutOfBounds list index length =>
    s!"index {index} out of bounds for {list.name} of length {length}"
  | .swapOutOfBounds a b length =>
    s!"swap indices ({a}, {b}) out of bounds for NullList of length {length}"
  | .reservedNull value => s!"{value} is reserved as the null value of this list"
  | .wordOverflow => "attempt to add with overflow"

/-- How a step that gave no answer ended: an error that leaves the collection usable, or an
abort. -/
inductive Stop where
  /-- A fallible operation reported an error; the collection is unchanged. -/
  | refused (error : CollectionError)
  /-- The collection cannot be used any more. -/
  | aborted (abort : Abort)
  deriving DecidableEq, Repr

/-- Runs a fallible step where the operation promises success: an error becomes an abort. -/
def abortOnError {α : Type} : Except CollectionError α → Except Abort α
  | .ok a => .ok a
  | .error e => .error (.failed e)

/-- The abort a stop becomes where the operation promised success: a refusal is a failed
promise, an abort stays as it is. -/
def Stop.toAbort : Stop → Abort
  | .refused e => .failed e
  | .aborted a => a

/-- Runs a step that may stop where the operation promises success: every stop is an abort. -/
def abortOnStop {α : Type} : Except Stop α → Except Abort α
  | .ok a => .ok a
  | .error s => .error s.toAbort

end CompactCollections
