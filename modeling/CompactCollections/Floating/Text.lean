import CompactCollections.Floating.Shortest

/-!
# The text of a floating-point pattern

A finite nonzero magnitude is written with the digits of its shortest decimal. Where they go
is a matter of style, and a `Style` holds every decision: which exponents of the leading
digit are written positionally, whether a non-negative exponent carries a plus sign, how a
tie between two shortest decimals goes, and the words for NaN and infinity.

* `CompactCollections.Floating.Style.message` – numbers quoted back in request errors:
  positional from `1e-5` below `1e16`, otherwise `1e+16` or `1.5e-7`.
* `CompactCollections.Floating.Style.listing` – float keys inside a table's description:
  positional from `1e-4` below `1e16`, otherwise `1e16` or `1.1754944e-38`.
* `CompactCollections.Floating.Style.text` – the text of a pattern of a format.

Positional text always shows a point: an integral value ends in `.0`, and a value below one
starts with `0.`. Zero is `0.0` with its sign.
-/

namespace CompactCollections.Floating

/-- The decisions of a floating-point text. -/
structure Style where
  /-- The least exponent of the leading digit that is written positionally. -/
  plainFrom : Int
  /-- The least exponent of the leading digit, above, that is written with an exponent. -/
  plainBelow : Int
  /-- Whether a non-negative exponent is written with a plus sign. -/
  plusSign : Bool
  /-- How a tie between the two shortest decimals is broken. -/
  tie : Tie
  /-- The text of every NaN, with no sign. -/
  nan : String
  /-- The text of an infinity, after its sign. -/
  infinity : String
  deriving Repr

namespace Style

/-- Numbers quoted back in request errors: positional for leading exponents `-5 … 15`, the
exponent otherwise signed and unpadded, ties to even. -/
def message : Style := ⟨-5, 16, true, .even, "NaN", "inf"⟩

/-- Float keys in a table's description: positional for leading exponents `-4 … 15`, a
negative exponent alone signed, ties up. -/
def listing : Style := ⟨-4, 16, false, .up, "NaN", "inf"⟩

/-- `n` zeros. -/
def zeros (n : Nat) : String :=
  String.ofList (List.replicate n '0')

/-- The layout of a nonzero decimal in the style. -/
def layout (s : Style) (d : Dec) : String :=
  let ds := Nat.toDigits 10 d.digits
  let n := ds.length
  let e : Int := d.exp + n - 1
  if s.plainFrom ≤ e ∧ e < s.plainBelow then
    if e < 0 then "0." ++ zeros (-e - 1).toNat ++ String.ofList ds
    else if n ≤ e.toNat + 1 then String.ofList ds ++ zeros (e.toNat + 1 - n) ++ ".0"
    else String.ofList (ds.take (e.toNat + 1)) ++ "." ++ String.ofList (ds.drop (e.toNat + 1))
  else
    let mantissa := if n = 1 then String.ofList ds
      else String.ofList (ds.take 1) ++ "." ++ String.ofList (ds.drop 1)
    let sign := if e < 0 then "-" else if s.plusSign then "+" else ""
    mantissa ++ "e" ++ sign ++ toString e.natAbs

/-- The text of a pattern of the format: the NaN word, or the sign and then the infinity word,
`0.0`, or the layout of the shortest decimal. -/
def text (s : Style) (f : Format) (bits : Nat) : String :=
  match f.decode bits with
  | .nan => s.nan
  | .infinite negative => (if negative then "-" else "") ++ s.infinity
  | .finite negative x =>
    (if negative then "-" else "") ++ (if x.m = 0 then "0.0" else s.layout (x.shortest s.tie))

end Style

end CompactCollections.Floating
