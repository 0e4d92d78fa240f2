import CompactCollections.Floating.Round
import CompactCollections.Request.Value

/-!
# From a written decimal to a double

A request's reader splits a number into a sign, a significand of at most nineteen or twenty
digits (the digits after those are dropped, or counted into the exponent when they stand
before the point) and a power of ten. It then makes the double in at most a few rounded steps,
not by one rounding of the exact value: the significand is rounded to a double, then
multiplied by the double nearest to `10 ^ e` for a non-negative exponent, or divided by the
double nearest to `10 ^ (-e)` for a negative one. Below `10 ^ -308`, it divides by `1e308`
first, as often as it takes, and stops at zero. The double read may therefore differ in its
last bit from the double nearest to the decimal.

* `CompactCollections.Request.powerOfTen` – the double nearest to `10 ^ k`.
* `CompactCollections.Request.decimalDouble` – the double of `± significand · 10 ^ exponent`,
  or `none` past the greatest double.
* `CompactCollections.Request.Number.toDouble`, `toSingle` – any number of a request as a
  double, and that double rounded to single precision.
-/

namespace CompactCollections.Request

open Floating

/-- The pattern of the double nearest to `10 ^ k`. -/
def powerOfTen (k : Nat) : Nat :=
  Format.double.ofNat (Nat.pow 10 k)

/-- Divides a non-negative double by `10 ^ k`: in one step when `k ≤ 308`, and otherwise by
`1e308` first, unless the double is already zero. -/
def scaleDown (f : Nat) (k : Nat) : Nat :=
  if k ≤ 308 then Format.double.div f (powerOfTen k)
  else if Format.double.isZero f then f
  else scaleDown (Format.double.div f (powerOfTen 308)) (k - 308)
termination_by k

/-- The pattern of the double a request reads for `± significand · 10 ^ exponent`; `none` when
the product passes the greatest double, or when a nonzero significand meets an exponent above
`308`. A zero significand gives a zero of the sign. -/
def decimalDouble (negative : Bool) (significand : Nat) (exponent : Int) : Option UInt64 :=
  let f := Format.double.ofNat significand
  let magnitude : Option Nat :=
    if 0 ≤ exponent then
      if exponent ≤ 308 then
        let g := Format.double.mul f (powerOfTen exponent.toNat)
        if Format.double.isInfinite g then none else some g
      else if Format.double.isZero f then some f
      else none
    else some (scaleDown f (-exponent).toNat)
  magnitude.map fun m => UInt64.ofNat (Format.double.withSign negative m)

namespace Number

/-- A number as a double: an integer rounded to the nearest double, a double as it is. -/
def toDouble : Number → Nat
  | .word n => Format.double.ofNat n
  | .negative n => Format.double.withSign true (Format.double.ofNat n.natAbs)
  | .double bits => bits.toNat

/-- A number as a double rounded to the nearest single-precision value. -/
def toSingle (n : Number) : UInt32 :=
  UInt32.ofNat (Format.narrow .double .single n.toDouble)

end Number

end CompactCollections.Request
