import Mathlib.Data.FinEnum
import Mathlib.Data.Fintype.Card
import CompactCollections.Hashing.Invertible
import CompactCollections.Key
/-!
# Narrow keys never share a word hash

The structural hash of a table adds up one block per entry, and each block starts from
`CompactCollections.Hashing.hashWord` of the entry's key pattern. This file shows that for
keys at most 32 bits wide that first step loses nothing.

Every step of the block mix and of the finalizer is invertible (`Hashing.Invertible`), and a
map from a finite type to itself that is injective is a bijection, so `finalize · n`,
`mix h` and `mix · d` are bijections on 32-bit words. `hashWord` reads the high half of its
word only through one of those bijections, so two words with the same high half and the same
hash are equal. The pattern of a key of width at most 32 has high half zero, and distinct keys
of one kind have distinct patterns:

* `CompactCollections.KeyKind.bitsOfInt?_eq_some` – what a numeric key's pattern is;
* `CompactCollections.KeyKind.narrow_bits` – narrow numeric patterns fit in 32 bits and
  determine their key;
* `CompactCollections.Hashing.hash_steps_bijective` – the bijections, and distinct narrow keys
  of one kind (numbers or characters) have distinct word hashes.
-/

namespace CompactCollections

/-! ### Key patterns -/

namespace KeyKind

/-- A numeric key's pattern: two's complement at the width for a signed kind, the number itself
for an unsigned one, in range in both cases. -/
theorem bitsOfInt?_eq_some {k : KeyKind} {n : Int} {a : UInt64}
    (h : k.bitsOfInt? n = some a) :
    (k.isSigned = true ∧ -(k.half : Int) ≤ n ∧ n < k.half ∧
        a = UInt64.ofNat (n % k.span).toNat) ∨
      (k.isSigned = false ∧ 0 ≤ n ∧ n < k.span ∧ a = UInt64.ofNat n.toNat) := by
  unfold KeyKind.bitsOfInt? at h
  split at h
  · cases h
  split at h
  · split at h
    · cases h
      exact Or.inl ⟨by assumption, by omega, by omega, rfl⟩
    · cases h
  · split at h
    · cases h
      exact Or.inr ⟨by simpa using (by assumption : ¬k.isSigned = true), by omega, by omega, rfl⟩
    · cases h

/-- On a kind at most 32 bits wide, patterns fit in 32 bits and tell their keys apart. -/
theorem narrow_bits (k : KeyKind) (hk : k.width ≤ 32) {n m : Int} {a b : UInt64}
    (ha : k.bitsOfInt? n = some a) (hb : k.bitsOfInt? m = some b) :
    a.toNat < 2 ^ 32 ∧ b.toNat < 2 ^ 32 ∧ (a = b → n = m) := by
  have ha := bitsOfInt?_eq_some ha
  have hb := bitsOfInt?_eq_some hb
  cases k <;> simp [KeyKind.width] at hk <;>
    simp only [KeyKind.half, KeyKind.span, KeyKind.width, KeyKind.isSigned] at ha hb <;>
    simp at ha hb
  all_goals
    obtain ⟨ha1, ha2, rfl⟩ := ha
    obtain ⟨hb1, hb2, rfl⟩ := hb
    refine ⟨?_, ?_, fun hab => ?_⟩
    · simp only [UInt64.toNat_ofNat']
      omega
    · simp only [UInt64.toNat_ofNat']
      omega
    · have := congrArg UInt64.toNat hab
      simp only [UInt64.toNat_ofNat'] at this
      omega

/-- A character's pattern is its scalar value, below `2 ^ 32`. -/
theorem bitsOfChar_lt (c : Char) : (bitsOfChar c).toNat < 2 ^ 32 := by
  simp only [bitsOfChar, UInt32.toNat_toUInt64]
  exact c.val.toNat_lt

/-- Distinct characters have distinct patterns. -/
theorem bitsOfChar_injective : Function.Injective bitsOfChar := by
  intro c d h
  have := congrArg UInt64.toNat h
  simp only [bitsOfChar, UInt32.toNat_toUInt64] at this
  exact Char.ext (UInt32.toNat_inj.mp this)

end KeyKind

namespace Hashing

/-! ### Word hashes of narrow keys -/

/-- A word below `2 ^ 32` has high half zero. -/
theorem high_eq_zero_of_lt {x : UInt64} (h : x.toNat < 2 ^ 32) : x >>> 32 = 0 := by
  apply UInt64.toNat_inj.mp
  simp only [UInt64.toNat_shiftRight, Nat.shiftRight_eq_div_pow]
  simp only [show (32 : UInt64).toNat % 64 = 32 from rfl]
  simp
  omega

/-- The finalizer and both arguments of the block mix are bijections on 32-bit words;
`hashWord` is injective on each set of words sharing a high half; hence distinct keys of a kind
at most 32 bits wide, numbers or characters, have distinct word hashes. -/
theorem hash_steps_bijective :
    (∀ n : Nat, Function.Bijective (fun h => finalize h n)) ∧
    (∀ hash : UInt32, Function.Bijective (mix hash)) ∧
    (∀ data : UInt32, Function.Bijective (fun h => mix h data)) ∧
    (∀ x y : UInt64, x >>> 32 = y >>> 32 → hashWord x = hashWord y → x = y) ∧
    (∀ k : KeyKind, k.width ≤ 32 → ∀ (n m : Int) (a b : UInt64),
      k.bitsOfInt? n = some a → k.bitsOfInt? m = some b → n ≠ m → hashWord a ≠ hashWord b) ∧
    (∀ c d : Char, c ≠ d →
      hashWord (KeyKind.bitsOfChar c) ≠ hashWord (KeyKind.bitsOfChar d)) := by
  refine ⟨fun n => Finite.injective_iff_bijective.mp (finalize_injective n),
    fun hash => Finite.injective_iff_bijective.mp (mix_injective_right hash),
    fun data => Finite.injective_iff_bijective.mp (mix_injective_left data),
    fun x y hhi hxy => hashWord_injective_of_high_eq hhi hxy, ?_, ?_⟩
  · intro k hk n m a b ha hb hnm hab
    obtain ⟨hal, hbl, hinj⟩ := KeyKind.narrow_bits k hk ha hb
    have hhi : a >>> 32 = b >>> 32 := by
      rw [high_eq_zero_of_lt hal, high_eq_zero_of_lt hbl]
    exact hnm (hinj (hashWord_injective_of_high_eq hhi hab))
  · intro c d hcd hab
    have hhi : KeyKind.bitsOfChar c >>> 32 = KeyKind.bitsOfChar d >>> 32 := by
      rw [high_eq_zero_of_lt (KeyKind.bitsOfChar_lt c), high_eq_zero_of_lt (KeyKind.bitsOfChar_lt d)]
    exact hcd (KeyKind.bitsOfChar_injective (hashWord_injective_of_high_eq hhi hab))

/-- The keys `1` and `2` of kind `u8` have distinct word hashes. -/
theorem hashWord_u8_one_ne_two :
    KeyKind.u8.width ≤ 32 ∧ KeyKind.u8.bitsOfInt? 1 = some 1 ∧
      KeyKind.u8.bitsOfInt? 2 = some 2 ∧ (1 : Int) ≠ 2 ∧ hashWord 1 ≠ hashWord 2 :=
  ⟨by decide, by decide, by decide, by decide,
    hash_steps_bijective.2.2.2.2.1 .u8 (by decide) 1 2 1 2 (by decide) (by decide) (by decide)⟩

end Hashing

end CompactCollections
