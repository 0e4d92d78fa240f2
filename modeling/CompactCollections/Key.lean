/-!
# Keys as bit patterns

A table stores every key as the 64-bit pattern of its value, and compares keys by pattern
alone. Integers are widened without sign extension, a character is its scalar value, and a
floating-point number is its IEEE pattern, so `-0.0` and each NaN payload are keys of their
own. The all-zero pattern is the one key that tables keep outside their slots.

* `CompactCollections.KeyKind` – the eleven kinds of key, each with its width.
* `CompactCollections.KeyKind.bitsOfInt?` – the pattern of a number given as a key of a kind,
  refused when the number is outside the kind's range.
* `CompactCollections.KeyKind.valueOf` – reads a pattern back as the key it stands for.
-/

namespace CompactCollections

/-- The kinds of value a table may be keyed by. -/
inductive KeyKind where
  | i8 | u8 | i16 | u16 | i32 | u32 | i64 | u64
  /-- A Unicode scalar value. -/
  | char
  /-- A single-precision float, given and answered as its 32-bit pattern. -/
  | f32
  /-- A double-precision float, given and answered as its 64-bit pattern. -/
  | f64
  deriving DecidableEq, Repr

namespace KeyKind

/-- Every kind of key. -/
def all : List KeyKind := [.i8, .u8, .i16, .u16, .i32, .u32, .i64, .u64, .char, .f32, .f64]

/-- The name of a kind, as requests spell it. -/
def name : KeyKind → String
  | .i8 => "i8" | .u8 => "u8" | .i16 => "i16" | .u16 => "u16"
  | .i32 => "i32" | .u32 => "u32" | .i64 => "i64" | .u64 => "u64"
  | .char => "char" | .f32 => "f32" | .f64 => "f64"

/-- The number of bits of a key's pattern. -/
def width : KeyKind → Nat
  | .i8 | .u8 => 8
  | .i16 | .u16 => 16
  | .i32 | .u32 | .char | .f32 => 32
  | .i64 | .u64 | .f64 => 64

/-- Whether the kind is a two's complement integer. -/
def isSigned : KeyKind → Bool
  | .i8 | .i16 | .i32 | .i64 => true
  | _ => false

/-- Whether the kind is a number written as itself (an integer or a float's pattern). -/
def isNumeric : KeyKind → Bool
  | .char => false
  | _ => true

/-- The number of patterns of the kind, `2 ^ width`. -/
def span (k : KeyKind) : Nat :=
  1 <<< k.width

/-- Half the number of patterns, `2 ^ (width - 1)`: the least pattern of a negative signed
key. -/
def half (k : KeyKind) : Nat :=
  1 <<< (k.width - 1)

/-- The pattern of the number `n` as a key of this kind: two's complement at the kind's width
for signed integers, the number itself otherwise; `none` outside the kind's range. -/
def bitsOfInt? (k : KeyKind) (n : Int) : Option UInt64 :=
  if !k.isNumeric then none
  else if k.isSigned then
    if -(k.half : Int) ≤ n ∧ n < k.half then
      some (UInt64.ofNat (n % k.span).toNat)
    else none
  else if 0 ≤ n ∧ n < k.span then some (UInt64.ofNat n.toNat)
  else none

/-- The pattern of a character key: its scalar value. -/
def bitsOfChar (c : Char) : UInt64 :=
  c.val.toUInt64

/-- What a pattern stands for: a number, or a character. -/
inductive Reading where
  | number (n : Int)
  | char (c : Char)
  deriving DecidableEq, Repr

/-- Reads a pattern back: signed kinds by two's complement at their width, characters by
scalar value, every other kind as the pattern's number. -/
def valueOf (k : KeyKind) (bits : UInt64) : Reading :=
  match k with
  | .char => .char (Char.ofNat bits.toNat)
  | _ =>
    if k.isSigned ∧ k.half ≤ bits.toNat then
      .number (bits.toNat - k.span : Int)
    else .number bits.toNat

end KeyKind

end CompactCollections
