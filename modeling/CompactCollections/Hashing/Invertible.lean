import CompactCollections.Hashing.Mix
/-!
# The block steps are invertible

Every step of `CompactCollections.Hashing.mix` and `CompactCollections.Hashing.finalize` can
be undone, so neither loses information:

* a rotation by `n` is undone by a rotation by `32 - n` (`rotl32_rotl32`);
* `x ^^^ (x >>> 16)` is its own inverse on 32-bit words, and `x ^^^ (x >>> 13)` is undone by
  `y ^^^ (y >>> 13) ^^^ (y >>> 26)` (`xorShift_sixteen_involutive`, `xorShift_thirteen_inverse`);
* a product by an odd constant is undone by the product by its inverse modulo `2 ^ 32`;
* xoring or adding a constant is undone by xoring or subtracting it.

Composing them, `finalize · n` (`finalize_injective`), `mix h` (`mix_injective_right`) and
`mix · d` (`mix_injective_left`) are injective, and `hashWord` tells apart any two words with
the same high half (`hashWord_injective_of_high_eq`).
-/

namespace CompactCollections.Hashing

/-! ### Bits beyond the width -/

/-- A 32-bit word has no bits at or beyond position 32. -/
theorem getLsbD_of_ge_thirtyTwo (x : UInt32) {j : Nat} (hj : 32 ≤ j) :
    x.toBitVec.getLsbD j = false :=
  BitVec.getLsbD_of_ge _ _ hj

/-! ### Rotations -/

/-- Rotating by `n` and then by `32 - n` restores the word. -/
theorem rotl32_rotl32 (x : UInt32) (n : Nat) (h0 : 0 < n) (h : n < 32) :
    rotl32 (rotl32 x (UInt32.ofNat n)) (UInt32.ofNat (32 - n)) = x := by
  apply UInt32.toBitVec_inj.mp
  apply BitVec.eq_of_getLsbD_eq
  intro i hi
  simp [rotl32, UInt32.toBitVec_or, UInt32.toBitVec_shiftLeft, UInt32.toBitVec_shiftRight,
    BitVec.getLsbD_or, BitVec.getLsbD_shiftLeft, BitVec.getLsbD_ushiftRight]
  have a1 : (32 - n) % 32 = 32 - n := by omega
  have a2 : n % 32 = n := by omega
  have a3 : n % 4294967296 = n := by omega
  have a4 : (4294967296 - n) % 32 = 32 - n := by omega
  have a5 : (4294967296 - (32 - n) % 4294967296) % 32 = n := by omega
  simp only [a1, a2, a3, a4, a5, hi, decide_true, Bool.true_and]
  rw [getLsbD_of_ge_thirtyTwo x (by omega : 32 ≤ 32 - n + (n + i))]
  by_cases hc : i < 32 - n
  · have b1 : n + i < 32 := by omega
    simp [hc, b1]
  · have b1 : ¬ (n + i < 32) := by omega
    have b2 : i - (32 - n) < 32 := by omega
    have b3 : i - (32 - n) < n := by omega
    have b4 : 32 - n + (i - (32 - n)) = i := by omega
    simp [hc, b1, b2, b3, b4]

/-- A rotation by `n`, `0 < n < 32`, is injective. -/
theorem rotl32_injective (n : Nat) (h0 : 0 < n) (h : n < 32) :
    Function.Injective (fun x => rotl32 x (UInt32.ofNat n)) := by
  intro a b hab
  have := congrArg (fun y => rotl32 y (UInt32.ofNat (32 - n))) hab
  simpa only [rotl32_rotl32 _ n h0 h] using this

/-! ### Xor-shifts -/

/-- The word xored with itself shifted right by `s`. -/
def xorShift (s : UInt32) (x : UInt32) : UInt32 :=
  x ^^^ (x >>> s)

/-- The xor-shift by 16 undoes itself on 32-bit words. -/
theorem xorShift_sixteen_involutive (x : UInt32) : xorShift 16 (xorShift 16 x) = x := by
  apply UInt32.toBitVec_inj.mp
  apply BitVec.eq_of_getLsbD_eq
  intro i hi
  simp [xorShift, UInt32.toBitVec_xor, UInt32.toBitVec_shiftRight, BitVec.getLsbD_xor,
    BitVec.getLsbD_ushiftRight]
  rw [getLsbD_of_ge_thirtyTwo x (by omega : 32 ≤ 16 + (16 + i))]
  simp

/-- The xor-shift by 13 is undone by xoring in the shifts by 13 and by 26. -/
theorem xorShift_thirteen_inverse (x : UInt32) :
    xorShift 13 x ^^^ (xorShift 13 x >>> 13) ^^^ (xorShift 13 x >>> 26) = x := by
  apply UInt32.toBitVec_inj.mp
  apply BitVec.eq_of_getLsbD_eq
  intro i hi
  simp [xorShift, UInt32.toBitVec_xor, UInt32.toBitVec_shiftRight, BitVec.getLsbD_xor,
    BitVec.getLsbD_ushiftRight]
  rw [getLsbD_of_ge_thirtyTwo x (by omega : 32 ≤ 13 + (26 + i))]
  simp [show 13 + (13 + i) = 26 + i by omega]

/-- The xor-shift by 16 is injective. -/
theorem xorShift_sixteen_injective : Function.Injective (xorShift 16) := by
  intro a b hab
  rw [← xorShift_sixteen_involutive a, ← xorShift_sixteen_involutive b, hab]

/-- The xor-shift by 13 is injective. -/
theorem xorShift_thirteen_injective : Function.Injective (xorShift 13) := by
  intro a b hab
  rw [← xorShift_thirteen_inverse a, ← xorShift_thirteen_inverse b, hab]

/-! ### Constants -/

/-- A product by a constant with an inverse is injective. -/
theorem mul_injective_of_mul_eq_one (c c' : UInt32) (h : c * c' = 1) :
    Function.Injective (fun x : UInt32 => x * c) := by
  intro a b hab
  have := congrArg (fun y => y * c') hab
  simpa only [UInt32.mul_assoc, h, UInt32.mul_one] using this

/-- Xoring a constant is injective. -/
theorem xor_injective (k : UInt32) : Function.Injective (fun x : UInt32 => x ^^^ k) :=
  fun _ _ hab => (UInt32.xor_left_inj k).mp hab

/-- Xoring into a constant is injective. -/
theorem xor_injective_left (k : UInt32) : Function.Injective (fun x : UInt32 => k ^^^ x) := by
  intro a b hab
  have : a ^^^ k = b ^^^ k := by
    simpa only [UInt32.xor_comm] using hab
  exact (UInt32.xor_left_inj k).mp this

/-- Adding a constant is injective. -/
theorem add_injective (k : UInt32) : Function.Injective (fun x : UInt32 => x + k) := by
  intro a b hab
  have := congrArg (fun y => y - k) hab
  simpa only [UInt32.add_sub_cancel] using this

/-! ### The block steps -/

/-- The finalizer as a chain of invertible steps. -/
theorem finalize_eq_chain (h : UInt32) (n : Nat) :
    finalize h n =
      xorShift 16 (xorShift 13 (xorShift 16 (h ^^^ UInt32.ofNat n) * 0x85ebca6b) * 0xc2b2ae35) :=
  rfl

/-- For every length, the finalizer is injective. -/
theorem finalize_injective (n : Nat) : Function.Injective (fun h => finalize h n) := by
  intro a b hab
  simp only [finalize_eq_chain] at hab
  have h1 := xorShift_sixteen_injective hab
  have h2 := mul_injective_of_mul_eq_one _ 0x7ed1b41d (by decide) h1
  have h3 := xorShift_thirteen_injective h2
  have h4 := mul_injective_of_mul_eq_one _ 0xa5cb9243 (by decide) h3
  have h5 := xorShift_sixteen_injective h4
  exact xor_injective _ h5

/-- The block step as a chain of invertible steps. -/
theorem mix_eq_chain (hash data : UInt32) :
    mix hash data =
      rotl32 (hash ^^^ rotl32 (data * 0xcc9e2d51) (UInt32.ofNat 15) * 0x1b873593)
        (UInt32.ofNat 13) * 5 + 0xe6546b64 :=
  rfl

/-- For every running hash, the block step is injective in the block. -/
theorem mix_injective_right (hash : UInt32) : Function.Injective (mix hash) := by
  intro a b hab
  simp only [mix_eq_chain] at hab
  have h1 := add_injective _ hab
  have h2 := mul_injective_of_mul_eq_one _ 0xcccccccd (by decide) h1
  have h3 := rotl32_injective 13 (by decide) (by decide) h2
  have h4 := xor_injective_left _ h3
  have h5 := mul_injective_of_mul_eq_one _ 0x56ed309b (by decide) h4
  have h6 := rotl32_injective 15 (by decide) (by decide) h5
  exact mul_injective_of_mul_eq_one _ 0xdee13bb1 (by decide) h6

/-- For every block, the block step is injective in the running hash. -/
theorem mix_injective_left (data : UInt32) : Function.Injective (fun h => mix h data) := by
  intro a b hab
  simp only [mix_eq_chain] at hab
  have h1 := add_injective _ hab
  have h2 := mul_injective_of_mul_eq_one _ 0xcccccccd (by decide) h1
  have h3 := rotl32_injective 13 (by decide) (by decide) h2
  exact xor_injective _ h3

/-! ### Words -/

/-- A word is determined by its high half and its low half. -/
theorem eq_of_high_low_eq {x y : UInt64} (hhi : x >>> 32 = y >>> 32)
    (hlo : x.toUInt32 = y.toUInt32) : x = y := by
  apply UInt64.toNat_inj.mp
  have h1 := congrArg UInt64.toNat hhi
  have h2 := congrArg UInt32.toNat hlo
  simp only [UInt64.toNat_shiftRight, UInt64.toNat_toUInt32] at h1 h2
  have e1 := Nat.div_add_mod x.toNat (2 ^ 32)
  have e2 := Nat.div_add_mod y.toNat (2 ^ 32)
  rw [Nat.shiftRight_eq_div_pow, Nat.shiftRight_eq_div_pow] at h1
  simp only [show (32 : UInt64).toNat % 64 = 32 from rfl] at h1
  omega

/-- Two words with the same high half and the same hash are equal. -/
theorem hashWord_injective_of_high_eq {x y : UInt64} (hhi : x >>> 32 = y >>> 32)
    (h : hashWord x = hashWord y) : x = y := by
  unfold hashWord at h
  have h1 := finalize_injective 8 h
  rw [hhi] at h1
  have h2 := mix_injective_left _ h1
  have h3 := mix_injective_right 0 h2
  exact eq_of_high_low_eq hhi h3

end CompactCollections.Hashing
