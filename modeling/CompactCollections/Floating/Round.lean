import CompactCollections.Floating.Format

/-!
# Rounding to the nearest magnitude of a format

Every arithmetic step a request reader takes on floating-point values is one rounding of an
exact quotient: the product of two magnitudes, their quotient, a natural number, a magnitude
of a wider format. All of them go through `Format.nearest`, which rounds a positive fraction
of naturals to the nearest magnitude of the format, a tie to the even significand, and past
the greatest finite magnitude to infinity.

* `CompactCollections.Floating.Format.nearest` – the rounding of `n / d`.
* `CompactCollections.Floating.Format.mul`, `div` – the rounded product and quotient of two
  finite patterns.
* `CompactCollections.Floating.Format.narrow` – a pattern of one format rounded into another.

The exponent of the result is read off the bit lengths of `n` and `d`, which fix
`⌊log₂ (n / d)⌋` up to one; one comparison settles it. The significand is then an integer
quotient, and its remainder decides the rounding.
-/

namespace CompactCollections.Floating

namespace Format

/-- Whether `n / d < 2 ^ e`, by cross-multiplying. -/
def below (n d : Nat) (e : Int) : Bool :=
  if 0 ≤ e then n < d <<< e.toNat else n <<< (-e).toNat < d

/-- `⌊log₂ (n / d)⌋` for positive `n` and `d`: the difference of the bit lengths, or one less. -/
def floorLog2 (n d : Nat) : Int :=
  let e : Int := (n.log2 : Int) - d.log2
  if below n d e then e - 1 else e

/-- The pattern of the magnitude of the format nearest to `n / d`; of two equally near, the one
with the even significand; infinity past the greatest finite magnitude, and zero for `n = 0`.
The last place is `2 ^ q` with `q` the exponent of the leading bit less the fraction width, but
never below the least exponent, where the subnormals lose precision. -/
def nearest (f : Format) (n d : Nat) : Nat :=
  if n = 0 ∨ d = 0 then 0
  else
    let q := max (floorLog2 n d - f.fractionBits) f.leastExponent
    let num := n <<< (-q).toNat
    let den := d <<< q.toNat
    let m := num / den
    let r := num % den
    let up := den < 2 * r ∨ (2 * r = den ∧ m % 2 = 1)
    f.pack (if up then m + 1 else m) q

/-- The rounded product of two patterns of the format, both finite; the sign of the product is
the exclusive or of the signs. -/
def mul (f : Format) (a b : Nat) : Nat :=
  match f.decode a, f.decode b with
  | .finite sa x, .finite sb y =>
    let (nx, dx) := x.ratio
    let (ny, dy) := y.ratio
    f.withSign (sa != sb) (f.nearest (nx * ny) (dx * dy))
  | _, _ => f.infinity

/-- The rounded quotient of two patterns of the format, both finite and the divisor nonzero. -/
def div (f : Format) (a b : Nat) : Nat :=
  match f.decode a, f.decode b with
  | .finite sa x, .finite sb y =>
    let (nx, dx) := x.ratio
    let (ny, dy) := y.ratio
    f.withSign (sa != sb) (f.nearest (nx * dy) (dx * ny))
  | _, _ => f.infinity

/-- The pattern of the natural number `n`, rounded. -/
def ofNat (f : Format) (n : Nat) : Nat :=
  f.nearest n 1

/-- A pattern of the format `f` rounded into the format `g`: a finite magnitude to the nearest
of `g`, an infinity to the infinity of its sign, a NaN to the quiet NaN of `g` with the sign
kept. -/
def narrow (f g : Format) (bits : Nat) : Nat :=
  match f.decode bits with
  | .finite negative x =>
    let (n, d) := x.ratio
    g.withSign negative (g.nearest n d)
  | .infinite negative => g.withSign negative g.infinity
  | .nan =>
    g.withSign ((bits >>> (f.fractionBits + f.exponentBits)) % 2 == 1)
      (g.infinity + (g.unit >>> 1))

/-- Whether a pattern is an infinity of either sign. -/
def isInfinite (f : Format) (bits : Nat) : Bool :=
  match f.decode bits with
  | .infinite _ => true
  | _ => false

/-- Whether a pattern is a zero of either sign. -/
def isZero (f : Format) (bits : Nat) : Bool :=
  match f.decode bits with
  | .finite _ x => x.m == 0
  | _ => false

end Format

end CompactCollections.Floating
