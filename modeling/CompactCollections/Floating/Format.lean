/-!
# Binary floating-point formats

A binary interchange format is fixed by two widths: the stored fraction and the biased
exponent. A pattern of the format is a natural number below `2 ^ (1 + exponent + fraction)`,
read as a sign bit, a biased exponent and a fraction. Every finite pattern stands for
`m · 2 ^ q` with a natural significand `m`, so every statement about values is one about
naturals and no step rounds.

* `CompactCollections.Floating.Format` – the two widths; `double` and `single`.
* `CompactCollections.Floating.Binary` – a finite magnitude `m · 2 ^ q`.
* `CompactCollections.Floating.Format.decode` – what a pattern stands for: NaN, an infinity,
  or a signed finite magnitude.
* `CompactCollections.Floating.Format.pack` – the pattern of a significand at an exponent,
  infinity past the greatest finite magnitude.
-/

namespace CompactCollections.Floating

/-- A binary interchange format, by the widths of its fields. -/
structure Format where
  /-- The bits of the stored fraction. -/
  fractionBits : Nat
  /-- The bits of the biased exponent. -/
  exponentBits : Nat
  deriving DecidableEq, Repr

/-- A finite non-negative magnitude `m · 2 ^ q`. -/
structure Binary where
  /-- The significand. -/
  m : Nat
  /-- The binary exponent of the last place. -/
  q : Int
  /-- The gap to the magnitude below is half the gap to the magnitude above: the significand
  is the least of a binade above the least one. -/
  narrowBelow : Bool
  deriving DecidableEq, Repr

/-- What a pattern stands for. -/
inductive Reading where
  /-- Not a number, whatever its payload and sign. -/
  | nan
  /-- An infinity of the sign. -/
  | infinite (negative : Bool)
  /-- A finite magnitude with a sign; zero has both signs. -/
  | finite (negative : Bool) (x : Binary)
  deriving DecidableEq, Repr

namespace Format

/-- The 64-bit format: 52 fraction bits, 11 exponent bits. -/
def double : Format := ⟨52, 11⟩

/-- The 32-bit format: 23 fraction bits, 8 exponent bits. -/
def single : Format := ⟨23, 8⟩

/-- The biased exponent of infinities and NaNs, all ones. -/
def topExponent (f : Format) : Nat :=
  (1 <<< f.exponentBits) - 1

/-- The bias of the exponent. -/
def bias (f : Format) : Nat :=
  (1 <<< (f.exponentBits - 1)) - 1

/-- The weight of the implicit leading bit of a normal significand, `2 ^ fractionBits`. -/
def unit (f : Format) : Nat :=
  1 <<< f.fractionBits

/-- The exponent of the last place of subnormal magnitudes and of the least binade of normal
ones: `-1074` for `double`, `-149` for `single`. -/
def leastExponent (f : Format) : Int :=
  1 - (f.bias : Int) - f.fractionBits

/-- The pattern of positive infinity. -/
def infinity (f : Format) : Nat :=
  f.topExponent <<< f.fractionBits

/-- The sign bit of a pattern. -/
def signBit (f : Format) : Nat :=
  1 <<< (f.fractionBits + f.exponentBits)

/-- Reads a pattern: the bit above the exponent is the sign; a biased exponent of all ones is
an infinity (zero fraction) or a NaN; zero is the subnormal binade, whose significand is the
fraction; every other exponent adds the implicit leading bit. -/
def decode (f : Format) (bits : Nat) : Reading :=
  let negative := (bits >>> (f.fractionBits + f.exponentBits)) % 2 == 1
  let e := (bits >>> f.fractionBits) % (1 <<< f.exponentBits)
  let fraction := bits % f.unit
  if e = f.topExponent then
    if fraction = 0 then .infinite negative else .nan
  else if e = 0 then .finite negative ⟨fraction, f.leastExponent, false⟩
  else .finite negative ⟨f.unit + fraction, (e : Int) - 1 + f.leastExponent, fraction == 0 && 1 < e⟩

/-- The pattern of the non-negative magnitude `m · 2 ^ q`, for `m < 2 · unit` and `q` at
least the least exponent, with `m < unit` only at the least exponent. A significand of
`2 · unit`, left by rounding up, moves to the next binade; a biased exponent that reaches
all ones gives infinity. -/
def pack (f : Format) (m : Nat) (q : Int) : Nat :=
  let (m, q) := if m = 2 * f.unit then (f.unit, q + 1) else (m, q)
  if m < f.unit then m
  else
    let e := (q - f.leastExponent).toNat + 1
    if f.topExponent ≤ e then f.infinity else (e <<< f.fractionBits) + (m - f.unit)

/-- The pattern with the sign bit set when `negative`. -/
def withSign (f : Format) (negative : Bool) (bits : Nat) : Nat :=
  if negative then bits + f.signBit else bits

end Format

/-- The magnitude as a fraction `numerator / denominator` of naturals, both powers of two
apart from the significand. -/
def Binary.ratio (x : Binary) : Nat × Nat :=
  (x.m * (1 <<< x.q.toNat), 1 <<< (-x.q).toNat)

end CompactCollections.Floating
