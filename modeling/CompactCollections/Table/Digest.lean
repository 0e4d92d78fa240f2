import CompactCollections.Table.Walk
import CompactCollections.Hashing.Mix
/-!
# Hash, equality and text of a table

Two tables are equal when they hold the same keys with the same values, whatever their hash
functions, sizes or histories; the structural hash agrees with that equality because it is a
wrapping sum over entries, blind to their order.

* `CompactCollections.Table.digest` – `finalize (Σ mix (hashWord k) (h v)) len`, with the null
  key's value mixed into the constant `0x9e3779b9` in place of a key's hash.
* `CompactCollections.Table.sameContents` – same length, same null value, and every keyed
  entry of one found with its value in the other.
* `CompactCollections.Table.describe` – the text `{Some(k): v, …, None: v}` in walk order.
-/

namespace CompactCollections

namespace Table

variable {V : Type}

/-- The hash that stands in for a key's hash when the null key's value is mixed in. -/
def nullSeed : UInt32 := 0x9e3779b9

/-- The structural hash of a table, given the 32-bit hash of a value. -/
def digest (t : Table V) (valueHash : V → UInt32) : UInt32 :=
  let keyed := t.entries.foldl (fun s (k, v) => s + Hashing.mix (Hashing.hashWord k) (valueHash v)) 0
  let total := match t.null with
    | some v => keyed + Hashing.mix nullSeed (valueHash v)
    | none => keyed
  Hashing.finalize total t.len

/-- Whether two tables hold the same keys with the same values. -/
def sameContents [BEq V] (a b : Table V) : Bool :=
  a.len == b.len && a.null == b.null && a.entries.all fun (k, v) => b.get? k == some v

/-- The text of a table: each keyed entry as `Some(k): v`, then `None: v` for the null key,
between braces. -/
def describe (t : Table V) (keyText : UInt64 → String) (valueText : V → String) : String :=
  let items := t.entries.map (fun (k, v) => s!"Some({keyText k}): {valueText v}")
    ++ t.null.toList.map (fun v => s!"None: {valueText v}")
  "\x7b" ++ ", ".intercalate items ++ "\x7d"

/-- The text of a table used as a set: `Some(k)` for each key, then `None`, between braces. -/
def describeKeys (t : Table V) (keyText : UInt64 → String) : String :=
  let items := t.keys.map (fun k => s!"Some({keyText k})")
    ++ (if t.null.isSome then ["None"] else [])
  "\x7b" ++ ", ".intercalate items ++ "\x7d"

end Table

end CompactCollections
