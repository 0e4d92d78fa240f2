import CompactCollections.Floating.Format

/-!
# The shortest decimal that reads back

A finite magnitude is shown in the fewest significant digits that read back as it: rounded
to the nearest magnitude of its format, ties to the even significand, the decimal gives the
magnitude again.

* `CompactCollections.Floating.Binary.readsBack` – whether a decimal lies among the reals
  that round to the magnitude: from halfway to the neighbour below to halfway to the
  neighbour above, the ends included exactly when `m` is even.
* `CompactCollections.Floating.Binary.shortest` – the search: for one significant digit,
  two, … seventeen, the two neighbours of the magnitude on the grid of that many digits. The
  first grid with a hit wins; of two hits the nearer, and of two equally near the one the
  `Tie` names.

Every comparison is made between naturals by cross-multiplying, so no step rounds.
-/

namespace CompactCollections.Floating

/-- A decimal `digits · 10 ^ exp`. -/
structure Dec where
  /-- The significant digits, as a number. -/
  digits : Nat
  /-- The power of ten of the last digit. -/
  exp : Int
  deriving Repr, DecidableEq

/-- How an exact tie between the two neighbours on a grid is broken. -/
inductive Tie where
  /-- The neighbour whose last digit is even. -/
  | even
  /-- The neighbour above. -/
  | up
  deriving DecidableEq, Repr

/-- `10 ^ k`. -/
def pow10 (k : Nat) : Nat :=
  Nat.pow 10 k

/-- Compares `a · 10 ^ i` with `n · 2 ^ j`, exactly. -/
def cmpScaled (a : Nat) (i : Int) (n : Nat) (j : Int) : Ordering :=
  compare (a * pow10 i.toNat * (1 <<< (-j).toNat)) (n * (1 <<< j.toNat) * pow10 (-i).toNat)

namespace Binary

/-- Whether `d` lies among the reals that round to `x`, to nearest with ties to even. In units
of `2 ^ (q - 2)` the magnitude is `4m`, and the interval runs from `4m - 2` (or `4m - 1` over a
narrow gap) to `4m + 2`. -/
def readsBack (x : Binary) (d : Dec) : Bool :=
  let lo := if x.narrowBelow then 4 * x.m - 1 else 4 * x.m - 2
  let hi := 4 * x.m + 2
  let incl := x.m % 2 == 0
  let cl := cmpScaled d.digits d.exp lo (x.q - 2)
  let ch := cmpScaled d.digits d.exp hi (x.q - 2)
  (cl == .gt || (incl && cl == .eq)) && (ch == .lt || (incl && ch == .eq))

/-- `⌊m · 2 ^ q / 10 ^ k⌋`: the magnitude's neighbour below on the grid `10 ^ k`. -/
def floorOn (x : Binary) (k : Int) : Nat :=
  (x.m * (1 <<< x.q.toNat) * pow10 (-k).toNat) / ((1 <<< (-x.q).toNat) * pow10 k.toNat)

end Binary

/-- The number of decimal digits of `n`, less one: `⌊log₁₀ n⌋` for positive `n`. -/
def digitsLess (n : Nat) : Nat :=
  (Nat.toDigits 10 n).length - 1

namespace Binary

/-- The exponent of the leading digit of a nonzero magnitude: the `e` with
`10 ^ e ≤ m · 2 ^ q < 10 ^ (e + 1)`. Scaled by `10 ^ 330` every nonzero magnitude of the
formats here is at least one, and the floor of a number at least one has its leading digit at
the same place. -/
def leading (x : Binary) : Int :=
  (digitsLess (x.floorOn (-330)) : Int) - 330

/-- On the grid `10 ^ k`, the neighbour of the magnitude that reads back; of two, the nearer,
and of two equally near the one the tie names. -/
def onGrid (tie : Tie) (x : Binary) (k : Int) : Option Dec :=
  let c := x.floorOn k
  let below : Dec := ⟨c, k⟩
  let above : Dec := ⟨c + 1, k⟩
  match x.readsBack below, x.readsBack above with
  | true, true =>
    -- the midpoint of the two neighbours, `(2c + 1) · 10 ^ k`, against twice the magnitude
    match cmpScaled (2 * c + 1) k (2 * x.m) x.q with
    | .gt => some below
    | .lt => some above
    | .eq => match tie with
      | .even => some (if c % 2 = 0 then below else above)
      | .up => some above
  | true, false => some below
  | false, true => some above
  | false, false => none

end Binary

/-- Moves trailing zeros of the digits into the exponent. -/
def stripZeros (digits : Nat) (exp : Int) : Dec :=
  if h : digits ≠ 0 ∧ digits % 10 = 0 then stripZeros (digits / 10) (exp + 1) else ⟨digits, exp⟩
termination_by digits
decreasing_by omega

namespace Binary

/-- The exact decimal value of `m · 2 ^ q`: `m · 2 ^ q` itself for `q ≥ 0`, and
`m · 5 ^ (-q) · 10 ^ q` below. -/
def exact (x : Binary) : Dec :=
  if 0 ≤ x.q then ⟨x.m * (1 <<< x.q.toNat), 0⟩ else ⟨x.m * Nat.pow 5 (-x.q).toNat, x.q⟩

/-- The decimal of fewest significant digits that reads back as the nonzero magnitude `x`: the
first of the grids of one to seventeen digits with a neighbour that reads back. Seventeen
digits always suffice; should none, the exact value is returned. -/
def shortest (tie : Tie) (x : Binary) : Dec :=
  let e := x.leading
  match (List.range 17).findSome? fun (i : Nat) => x.onGrid tie (e - i) with
  | some d => stripZeros d.digits d.exp
  | none => stripZeros x.exact.digits x.exact.exp

end Binary

end CompactCollections.Floating
