import CompactCollections.Key
import CompactCollections.Floating.Text
import CompactCollections.Text.Quoted

/-!
# The text of a key in a description

A table's description lists its keys as text. An integer key is written in decimal, with its
sign for the signed kinds; a character between single quotes, escaped as `quoteChar` says; a
float by its value, in the listing style of `Floating.Style`, where every NaN is `NaN` and the
zero pattern of the other sign is `-0.0`.

* `CompactCollections.KeyKind.describe` – the text of a key's pattern.
-/

namespace CompactCollections.KeyKind

/-- The text of the key with pattern `bits` inside a table's description. -/
def describe (k : KeyKind) (bits : UInt64) : String :=
  match k with
  | .char => Text.quoteChar (Char.ofNat bits.toNat)
  | .f32 => Floating.Style.listing.text Floating.Format.single bits.toNat
  | .f64 => Floating.Style.listing.text Floating.Format.double bits.toNat
  | _ =>
    match k.valueOf bits with
    | .number n => toString n
    | .char c => c.toString

end CompactCollections.KeyKind
