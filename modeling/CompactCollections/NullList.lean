import CompactCollections.Ranked
/-!
# Lists with absent positions

A `CompactCollections.NullList` is a list whose positions each hold a value or nothing. It is
a rank-indexed overlay whose presence list has the list's length: a position past the last
present one is still part of the list when it is below the length.

* `CompactCollections.NullList.set` – writes a value or an absence and returns what was
  there; past the end the list first grows with absent positions.
* `CompactCollections.NullList.insert`, `CompactCollections.NullList.removeAt` – move later
  positions by one, in the presence bits and, for a value, in the dense list.
* `CompactCollections.NullList.swap` – exchanges two positions in all four combinations of
  present and absent.
-/

namespace CompactCollections

/-- A list whose positions may hold no value, over a dense store `S`. -/
structure NullList (S : Type) where
  /-- The presence bits (whose length is the list's) and the present values. -/
  cells : Ranked S

namespace NullList

variable {S α : Type} [DenseStore S α]

/-- The empty list over a store, which is emptied first. -/
def ofStore (values : S) : NullList S :=
  ⟨Ranked.ofStore values⟩

/-- The number of positions. -/
def len (l : NullList S) : Nat :=
  l.cells.presence.len

/-- The number of present values. -/
def cardinality (l : NullList S) : Nat :=
  l.cells.cardinality

/-- Whether position `i` holds a value. -/
def hasValue (l : NullList S) (i : Nat) : Bool :=
  l.cells.contains i

/-- The value at position `i`. -/
def get? (l : NullList S) (i : Nat) : Option α :=
  l.cells.get? i

/-- Writes `v` (a value or an absence) at position `i` and returns what was there. Past the
end the list first grows to `i + 1` positions. -/
def set (l : NullList S) (i : Nat) (v : Option α) : Except Stop (Option α × NullList S) := do
  let cells ← if l.len ≤ i then do
      let presence ← l.cells.presence.setLen (← Capacity.wordSum i 1)
      pure { l.cells with presence := presence }
    else pure l.cells
  match v with
  | some v => do
    let (prev, cells) ← cells.put i v
    pure (prev, ⟨cells⟩)
  | none =>
    let (prev, cells) := cells.take i
    pure (prev, ⟨cells⟩)

/-- Appends a position. -/
def add (l : NullList S) (v : Option α) : Except Stop (NullList S) := do
  pure (← l.set l.len v).2

/-- Inserts a position at `i`, moving later ones up; at or past the end this is `set`. -/
def insert (l : NullList S) (i : Nat) (v : Option α) : Except Stop (NullList S) :=
  if l.len ≤ i then do pure (← l.set i v).2
  else do
    let presence ← l.cells.presence.insert i v.isSome
    match v with
    | some v => do
      let values ← DenseStore.insertAt l.cells.values (presence.rank i - 1) v
      pure ⟨⟨presence, values⟩⟩
    | none => pure ⟨{ l.cells with presence := presence }⟩

/-- Removes position `i`, moving later ones down, and returns its value; aborts when `i` is
not below the length. -/
def removeAt (l : NullList S) (i : Nat) : Except Abort (Option α × NullList S) :=
  if l.len ≤ i then .error (.indexOutOfBounds .nullable i l.len)
  else
    let (v, cells) := l.cells.take i
    match cells.presence.removeAt i with
    | .ok (_, presence) => .ok (v, ⟨{ cells with presence := presence }⟩)
    | .error a => .error a

/-- Moves the value of `src` to `dst` when `src` holds one. -/
def moveValue (l : NullList S) (src dst : Nat) : Except Stop (NullList S) :=
  match l.cells.take src with
  | (some v, cells) => do
    let (_, cells) ← cells.put dst v
    pure ⟨cells⟩
  | (none, _) => .ok l

/-- Exchanges positions `a` and `b`; aborts when either is not below the length. -/
def swap (l : NullList S) (a b : Nat) : Except Abort (NullList S) :=
  if l.len ≤ a ∨ l.len ≤ b then .error (.swapOutOfBounds a b l.len)
  else
    match l.cells.denseIndex a, l.cells.denseIndex b with
    | some i, some j =>
      match DenseStore.get? l.cells.values i, DenseStore.get? l.cells.values j with
      | some x, some y =>
        let values := DenseStore.replace (DenseStore.replace l.cells.values i y) j x
        .ok ⟨{ l.cells with values := values }⟩
      | _, _ => .ok l
    | some _, none => abortOnStop (l.moveValue a b)
    | none, some _ => abortOnStop (l.moveValue b a)
    | none, none => .ok l

/-- The first present position at or after `i`. -/
def nextValueIndex (l : NullList S) (i : Nat) : Option Nat := l.cells.presence.nextSetBit i

/-- The last present position at or before `i`. -/
def prevValueIndex (l : NullList S) (i : Nat) : Option Nat := l.cells.presence.prevSetBit i

/-- The first absent position at or after `i`, below the length. -/
def nextNullIndex (l : NullList S) (i : Nat) : Option Nat := l.cells.presence.nextClearBit i

/-- The last absent position at or before `i`, below the length. -/
def prevNullIndex (l : NullList S) (i : Nat) : Option Nat := l.cells.presence.prevClearBit i

/-- Removes every position. -/
def clear (l : NullList S) : NullList S :=
  ⟨l.cells.clear⟩

/-- The present values in position order. -/
def values (l : NullList S) : List α :=
  DenseStore.toList l.cells.values

/-- Every position, a value or an absence. -/
def toList (l : NullList S) : List (Option α) :=
  (List.range l.len).map l.get?

/-- Appends positions in order. -/
def addAll (l : NullList S) : List (Option α) → Except Stop (NullList S)
  | [] => .ok l
  | v :: rest => do addAll (← l.add v) rest

/-- Equal presence bits and equal values. -/
def same (a b : NullList S) : Bool :=
  a.cells.same b.cells

end NullList

end CompactCollections
