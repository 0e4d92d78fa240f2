import CompactCollections.Table.Basic
import CompactCollections.Token
/-!
# Walking a table by tokens

The entries of a table are met in a fixed order: the occupied slots in increasing index, then
the all-zero key, then the null key. A walk starts at `CompactCollections.Table.firstToken`
and steps with `CompactCollections.Table.nextToken` until `Token.none`; the step from any
token, stale or out of range ones included, goes to the first live entry after it in that
order.

* `CompactCollections.Table.token` – the token of a key, `none` when absent.
* `CompactCollections.Table.value?`, `CompactCollections.Table.key?` – the entry a token names;
  a slot token names nothing unless its slot exists and is occupied.
* `CompactCollections.Table.entries` – the keyed entries in walk order, the null key left out;
  `CompactCollections.Table.values` appends the null key's value.
-/

namespace CompactCollections

namespace Table

variable {V : Type}

/-- The token of the null key, `none` when it is absent. -/
def nullToken (t : Table V) : Token :=
  if t.null.isSome then .null else .none

/-- The token after the last slot: the zero key's when present, else the null key's. -/
def tailToken (t : Table V) : Token :=
  if t.zero.isSome then .zero else t.nullToken

/-- The token of key `k`, `none` when absent. -/
def token (t : Table V) (k : UInt64) : Token :=
  if k = 0 then (if t.zero.isSome then .zero else .none)
  else
    match t.find? k with
    | some i => .slot i
    | none => .none

/-- The token of a key that may be the null key. -/
def tokenNullable (t : Table V) : Option UInt64 → Token
  | some k => t.token k
  | none => t.nullToken

/-- The value of the entry a token names. -/
def value? (t : Table V) : Token → Option V
  | .slot i => (t.entryAt? i).map Prod.snd
  | .zero => t.zero
  | .null => t.null
  | .none => none

/-- The key of the entry a token names; the null key has none. -/
def key? (t : Table V) : Token → Option UInt64
  | .slot i => (t.entryAt? i).map Prod.fst
  | .zero => if t.zero.isSome then some 0 else none
  | _ => none

/-- Replaces the value of the entry a token names, if there is one. -/
def setValue (t : Table V) (tok : Token) (v : V) : Table V :=
  match tok with
  | .slot i =>
    match t.entryAt? i with
    | some (k, _) => { t with slots := t.slots.insert i (k, v) }
    | none => t
  | .zero => if t.zero.isSome then { t with zero := some v } else t
  | .null => if t.null.isSome then { t with null := some v } else t
  | .none => t

/-- The value under key `k`. -/
def get? (t : Table V) (k : UInt64) : Option V :=
  t.value? (t.token k)

/-- Whether key `k` is present. -/
def contains (t : Table V) (k : UInt64) : Bool :=
  t.token k != .none

/-- The token of the first occupied slot at or after slot `i`, else the tail token. -/
def scanFrom (t : Table V) (i : Nat) : Token :=
  match t.slots.keys.find? (i ≤ ·) with
  | some j => .slot j
  | none => t.tailToken

/-- The token of the first entry. -/
def firstToken (t : Table V) : Token :=
  t.scanFrom 0

/-- The token of the first entry after the one `tok` names. -/
def nextToken (t : Table V) : Token → Token
  | .slot i => t.scanFrom (i + 1)
  | .zero => t.nullToken
  | .null | .none => .none

/-- The keyed entries in walk order: the slots, then the all-zero key. -/
def entries (t : Table V) : List (UInt64 × V) :=
  t.slotEntries ++ (t.zero.map fun v => (0, v)).toList

/-- The keys in walk order, the null key left out. -/
def keys (t : Table V) : List UInt64 :=
  t.entries.map Prod.fst

/-- The values in walk order, the null key's value last. -/
def values (t : Table V) : List V :=
  t.entries.map Prod.snd ++ t.null.toList

/-- The tokens met from `tok` on, stepping with `nextToken` until `none`, at most `fuel`. -/
def tokensFrom (t : Table V) (tok : Token) : Nat → List Token
  | 0 => []
  | fuel + 1 => if tok = .none then [] else tok :: t.tokensFrom (t.nextToken tok) fuel

/-- The tokens of a walk from the first entry. A walk meets each occupied slot once and at
most two keys beside them, so it ends within that many steps. -/
def tokens (t : Table V) : List Token :=
  t.tokensFrom t.firstToken (t.slots.size + 2)

/-- Every entry with its token, in walk order; the null key's entry has no key. -/
def walk (t : Table V) : List (Token × Option UInt64 × Option V) :=
  t.tokens.map fun tok => (tok, t.key? tok, t.value? tok)

/-- The in-slot entries ordered by key pattern, then the all-zero key: an order that does not
depend on where keys happen to sit. -/
def entriesByKey (t : Table V) : List (UInt64 × V) :=
  t.slotEntries.mergeSort (fun a b => a.1 ≤ b.1) ++ (t.zero.map fun v => (0, v)).toList

end Table

end CompactCollections
