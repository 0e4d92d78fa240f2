/-!
# Tokens

A token names one entry of a keyed collection, so that a caller can read or update it, or step
to the next entry, without looking the key up again. An entry in a slot is named by the slot's
index; the entry under the all-zero key and the entry under the null key have tokens of their
own; and `none` names nothing, the answer of a failed lookup and the end of a walk.
-/

namespace CompactCollections

/-- The name of an entry of a keyed collection. -/
inductive Token where
  /-- The entry stored in slot `index`. -/
  | slot (index : Nat)
  /-- The entry under the all-zero key. -/
  | zero
  /-- The entry under the null key. -/
  | null
  /-- No entry. -/
  | none
  deriving DecidableEq, Repr, Inhabited

end CompactCollections
