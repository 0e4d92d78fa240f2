/-!
# Tables of code point ranges

A property of characters given by the Unicode Character Database is a set of code points,
and such a set is a short list of closed ranges. A table is written as lines of hexadecimal
entries separated by spaces, `a-b` for the range from `a` to `b` and `a` alone for one code
point, which keeps the data readable beside the database it was taken from.

* `CompactCollections.Text.Ranges.ofLines` – the ranges of a table's lines.
* `CompactCollections.Text.Ranges.contains` – whether a code point lies in one of them.
-/

namespace CompactCollections.Text

/-- Closed ranges of code points. -/
structure Ranges where
  /-- The ranges, each from its first to its last code point. -/
  spans : List (Nat × Nat)
  deriving Repr

namespace Ranges

/-- The value of a hexadecimal digit, either case. -/
def hexDigit (c : Char) : Option Nat :=
  if '0' ≤ c ∧ c ≤ '9' then some (c.toNat - '0'.toNat)
  else if 'a' ≤ c ∧ c ≤ 'f' then some (c.toNat - 'a'.toNat + 10)
  else if 'A' ≤ c ∧ c ≤ 'F' then some (c.toNat - 'A'.toNat + 10)
  else none

/-- The number a nonempty run of hexadecimal digits stands for. -/
def ofHex (s : String) : Option Nat :=
  if s.isEmpty then none
  else s.toList.foldlM (fun acc c => (hexDigit c).map (16 * acc + ·)) 0

/-- One entry of a table: `a-b` or `a`. -/
def entry (s : String) : Option (Nat × Nat) :=
  match s.splitOn "-" with
  | [a] => (ofHex a).map fun n => (n, n)
  | [a, b] => do pure (← ofHex a, ← ofHex b)
  | _ => none

/-- The ranges of a table's lines; an entry that is not of the form is left out. -/
def ofLines (lines : List String) : Ranges :=
  ⟨lines.flatMap fun l => (l.splitOn " ").filterMap entry⟩

/-- Whether the code point `n` lies in one of the ranges. -/
def contains (t : Ranges) (n : Nat) : Bool :=
  t.spans.any fun (a, b) => a ≤ n && n ≤ b

end Ranges

end CompactCollections.Text
