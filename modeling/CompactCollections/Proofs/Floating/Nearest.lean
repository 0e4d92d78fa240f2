import CompactCollections.Floating.Round
import Mathlib.Algebra.Order.Field.Power
import Mathlib.Algebra.Order.Floor.Semifield
import Mathlib.Data.Rat.Floor
import Mathlib.Tactic.FieldSimp
import Mathlib.Tactic.GCongr
import Mathlib.Tactic.Linarith
import Mathlib.Tactic.NormNum
import Mathlib.Tactic.Positivity
import Mathlib.Tactic.Ring
/-!
# Rounding to the nearest magnitude is rounding to a grid

`CompactCollections.Floating.Format.nearest f n d` rounds a positive quotient `n / d` of
naturals to a magnitude of the format `f`. Read as rational numbers, in the normal range and
below the greatest binade, it rounds to a grid: with `E = ⌊log₂ (n / d)⌋` the binade of the
quotient and `p` the fraction width, the magnitudes of the binade are the multiples of
`2 ^ (E - p)`, and the result is one of them, within half a step of `n / d`, and on the same
side as `n / d` of every other multiple (`CompactCollections.Floating.RoundsTo`,
`CompactCollections.Floating.Format.nearest_roundsTo`).

The proof follows the code. `floorLog2` finds `E` from the bit lengths of `n` and `d`; the
scaled quotient `n · 2 ^ -q / d` with `q = E - p` then lies in `[2 ^ p, 2 ^ (p + 1))`, so its
integer quotient is a significand of the binade, and the remainder decides between it and the
next one. Packing the significand and reading the pattern back gives the magnitude
`M · 2 ^ q`, a carry into the next binade included.

Two consequences serve the callers:

* a quotient that is itself on the grid comes back exactly, in particular every `K · 2 ^ j`
  with `K < 2 ^ (p + 1)` (`CompactCollections.Floating.RoundsTo.eq_of_onGrid`);
* rounding keeps the quotient's side of every grid point, and moves it by at most half a step.
-/

namespace CompactCollections.Floating

/-- The value of a finite magnitude, `m · 2 ^ q`. -/
def Binary.toRat (x : Binary) : ℚ :=
  x.m * 2 ^ x.q

/-- A power of two with an integer exponent, as a quotient of powers with natural exponents. -/
theorem two_zpow_eq_div (q : ℤ) : (2 : ℚ) ^ q = 2 ^ q.toNat / 2 ^ (-q).toNat := by
  rcases le_total 0 q with hq | hq
  · rw [Int.toNat_of_nonpos (by omega : -q ≤ 0), pow_zero, div_one, ← zpow_natCast,
      Int.toNat_of_nonneg hq]
  · rw [Int.toNat_of_nonpos hq, pow_zero, one_div, ← zpow_natCast, Int.toNat_of_nonneg (by omega),
      zpow_neg, inv_inv]

/-- The fraction `Binary.ratio` gives is the value of the magnitude. -/
theorem Binary.ratio_div (x : Binary) : (x.ratio.1 : ℚ) / x.ratio.2 = x.toRat := by
  simp only [Binary.ratio, Nat.one_shiftLeft, Nat.cast_mul, Nat.cast_pow, Nat.cast_ofNat]
  rw [toRat, two_zpow_eq_div, mul_div_assoc]

namespace Format

variable {n d : Nat}

/-! ### The binade of a quotient -/

theorem below_iff (hd : 0 < d) (e : ℤ) : below n d e = true ↔ (n : ℚ) / d < 2 ^ e := by
  have hdq : (0 : ℚ) < d := by exact_mod_cast hd
  unfold below
  split
  · rename_i he
    have h2 : (2 : ℚ) ^ e = ((2 ^ e.toNat : ℕ) : ℚ) := by
      rw [Nat.cast_pow, Nat.cast_ofNat, ← zpow_natCast, Int.toNat_of_nonneg he]
    rw [decide_eq_true_iff, Nat.shiftLeft_eq, h2, div_lt_iff₀ hdq, ← Nat.cast_mul, Nat.cast_lt,
      Nat.mul_comm]
  · rename_i he
    have h2 : (2 : ℚ) ^ e = 1 / ((2 ^ (-e).toNat : ℕ) : ℚ) := by
      rw [Nat.cast_pow, Nat.cast_ofNat, ← zpow_natCast, Int.toNat_of_nonneg (by omega), zpow_neg,
        one_div, inv_inv]
    rw [decide_eq_true_iff, Nat.shiftLeft_eq, h2, div_lt_div_iff₀ hdq (by positivity), one_mul,
      ← Nat.cast_mul, Nat.cast_lt]

/-- **`floorLog2` finds the binade**: `2 ^ E ≤ n / d < 2 ^ (E + 1)`. -/
theorem floorLog2_spec (hn : 0 < n) (hd : 0 < d) :
    (2 : ℚ) ^ floorLog2 n d ≤ n / d ∧ (n : ℚ) / d < 2 ^ (floorLog2 n d + 1) := by
  have hn1 : ((2 ^ n.log2 : ℕ) : ℚ) ≤ n := by exact_mod_cast Nat.log2_self_le (by omega)
  have hn2 : (n : ℚ) < ((2 ^ (n.log2 + 1) : ℕ) : ℚ) := by exact_mod_cast Nat.lt_log2_self
  have hd1 : ((2 ^ d.log2 : ℕ) : ℚ) ≤ d := by exact_mod_cast Nat.log2_self_le (by omega)
  have hd2 : (d : ℚ) < ((2 ^ (d.log2 + 1) : ℕ) : ℚ) := by exact_mod_cast Nat.lt_log2_self
  have hdq : (0 : ℚ) < d := by exact_mod_cast hd
  push_cast at hn1 hn2 hd1 hd2
  -- the bit lengths put the quotient strictly between `2 ^ (e - 1)` and `2 ^ (e + 1)`
  have hlow : (2 : ℚ) ^ ((n.log2 : ℤ) - d.log2 - 1) < n / d := by
    calc (2 : ℚ) ^ ((n.log2 : ℤ) - d.log2 - 1) = 2 ^ n.log2 / 2 ^ (d.log2 + 1) := by
          rw [show (n.log2 : ℤ) - d.log2 - 1 = (n.log2 : ℤ) - ((d.log2 + 1 : ℕ) : ℤ) by push_cast; ring,
            zpow_sub₀ (by norm_num), zpow_natCast, zpow_natCast]
      _ < 2 ^ n.log2 / d := div_lt_div_of_pos_left (by positivity) hdq hd2
      _ ≤ n / d := div_le_div_of_nonneg_right hn1 hdq.le
  have hhigh : (n : ℚ) / d < 2 ^ ((n.log2 : ℤ) - d.log2 + 1) := by
    calc (n : ℚ) / d < 2 ^ (n.log2 + 1) / d := div_lt_div_of_pos_right hn2 hdq
      _ ≤ 2 ^ (n.log2 + 1) / 2 ^ d.log2 := div_le_div_of_nonneg_left (by positivity) (by positivity) hd1
      _ = 2 ^ ((n.log2 : ℤ) - d.log2 + 1) := by
          rw [show (n.log2 : ℤ) - d.log2 + 1 = ((n.log2 + 1 : ℕ) : ℤ) - (d.log2 : ℤ) by push_cast; ring,
            zpow_sub₀ (by norm_num), zpow_natCast, zpow_natCast]
  unfold floorLog2
  dsimp only
  split
  · rename_i hb
    rw [below_iff hd] at hb
    exact ⟨hlow.le, by rwa [sub_add_cancel]⟩
  · rename_i hb
    rw [below_iff hd, not_lt] at hb
    exact ⟨hb, hhigh⟩

/-- Scaling the quotient by shifting the numerator or the divisor divides it by `2 ^ q`. -/
theorem scaled_div (n d : Nat) (q : ℤ) :
    ((n <<< (-q).toNat : Nat) : ℚ) / (d <<< q.toNat : Nat) = n / d / 2 ^ q := by
  rw [Nat.shiftLeft_eq, Nat.shiftLeft_eq, two_zpow_eq_div, div_div_eq_mul_div, div_mul_eq_mul_div,
    div_div]
  push_cast
  ring

end Format

/-! ### Rounding to a grid -/

/-- **`v` rounds `x` to the multiples of `2 ^ q`**: it is one of them, within half a step of
`x`, and on the same side as `x` of every other multiple. -/
structure RoundsTo (q : ℤ) (x v : ℚ) : Prop where
  onGrid : ∃ M : ℕ, v = M * 2 ^ q
  abs_sub_le : |v - x| ≤ 2 ^ q / 2
  le_of_le : ∀ K : ℕ, K * 2 ^ q ≤ x → K * 2 ^ q ≤ v
  le_of_ge : ∀ K : ℕ, x ≤ K * 2 ^ q → v ≤ K * 2 ^ q

namespace RoundsTo

variable {q : ℤ} {x v : ℚ}

/-- A value on the grid is its own rounding. -/
theorem eq_of_onGrid (h : RoundsTo q x v) {K : ℕ} (hx : x = K * 2 ^ q) : v = x :=
  le_antisymm (hx ▸ h.le_of_ge K hx.le) (hx ▸ h.le_of_le K hx.ge)

/-- A rounding to the integers: a natural within one half of `x`, on the same side as `x` of
every other natural. -/
theorem zero_of {M : ℕ} (habs : |(M : ℚ) - x| ≤ 1 / 2) (hle : ∀ K : ℕ, (K : ℚ) ≤ x → K ≤ M)
    (hge : ∀ K : ℕ, x ≤ K → M ≤ K) : RoundsTo 0 x M := by
  refine ⟨⟨M, by rw [zpow_zero, mul_one]⟩, by rwa [zpow_zero], fun K hK => ?_, fun K hK => ?_⟩
  · rw [zpow_zero, mul_one] at hK ⊢
    exact_mod_cast hle K hK
  · rw [zpow_zero, mul_one] at hK ⊢
    exact_mod_cast hge K hK

theorem natCast_le (h : RoundsTo 0 x v) {K : ℕ} (hK : (K : ℚ) ≤ x) : (K : ℚ) ≤ v := by
  have := h.le_of_le K (by rwa [zpow_zero, mul_one])
  rwa [zpow_zero, mul_one] at this

theorem le_natCast (h : RoundsTo 0 x v) {K : ℕ} (hK : x ≤ K) : v ≤ K := by
  have := h.le_of_ge K (by rwa [zpow_zero, mul_one])
  rwa [zpow_zero, mul_one] at this

/-- A multiple of `2 ^ j`, for `q ≤ j`, is a multiple of the step `2 ^ q`. -/
theorem mul_zpow_eq_mul (K : ℕ) {j : ℤ} (hj : q ≤ j) :
    (K : ℚ) * 2 ^ j = ((K * 2 ^ (j - q).toNat : ℕ) : ℚ) * 2 ^ q := by
  push_cast
  rw [mul_assoc, ← zpow_natCast, ← zpow_add₀ two_ne_zero, Int.toNat_of_nonneg (by omega),
    sub_add_cancel]

/-- A multiple of a step no finer than the grid that the value reaches, its rounding reaches
too. -/
theorem mul_zpow_le (h : RoundsTo q x v) (K : ℕ) {j : ℤ} (hj : q ≤ j)
    (hx : (K : ℚ) * 2 ^ j ≤ x) : (K : ℚ) * 2 ^ j ≤ v := by
  rw [mul_zpow_eq_mul K hj] at hx ⊢
  exact h.le_of_le _ hx

/-- A multiple of a step no finer than the grid that the value stays under, its rounding stays
under too. -/
theorem le_mul_zpow (h : RoundsTo q x v) (K : ℕ) {j : ℤ} (hj : q ≤ j)
    (hx : x ≤ (K : ℚ) * 2 ^ j) : v ≤ (K : ℚ) * 2 ^ j := by
  rw [mul_zpow_eq_mul K hj] at hx ⊢
  exact h.le_of_ge _ hx

/-- A value `K · 2 ^ j` on a grid of step at most `2 ^ j` is its own rounding. -/
theorem eq_of_eq_mul (h : RoundsTo q x v) {K : ℕ} {j : ℤ} (hx : x = K * 2 ^ j) (hq : q ≤ j) :
    v = x :=
  h.eq_of_onGrid (hx.trans (mul_zpow_eq_mul K hq))

/-- **On a grid no coarser than the integers, rounding keeps the side of a natural number `k`**
that the value does not pass by half a step or less. -/
theorem le_natCast_iff (h : RoundsTo q x v) (hq : q ≤ 0) {k : ℕ}
    (hgap : (k : ℚ) < x → k + 2 ^ q / 2 < x) : v ≤ k ↔ x ≤ k := by
  constructor
  · intro hv
    by_contra hx
    have hfar := hgap (lt_of_not_ge hx)
    have hnear := (abs_le.mp h.abs_sub_le).1
    linarith
  · intro hx
    have hle := h.le_mul_zpow k hq (by rwa [zpow_zero, mul_one])
    rwa [zpow_zero, mul_one] at hle

/-- A power of two on the grid that the value reaches, its rounding reaches too. -/
theorem two_zpow_le (h : RoundsTo q x v) {j : ℤ} (hj : q ≤ j) (hx : (2 : ℚ) ^ j ≤ x) :
    (2 : ℚ) ^ j ≤ v := by
  have hle := h.mul_zpow_le 1 hj (by rwa [Nat.cast_one, one_mul])
  rwa [Nat.cast_one, one_mul] at hle

/-- A power of two on the grid that the value stays under, its rounding stays under too. -/
theorem le_two_zpow (h : RoundsTo q x v) {j : ℤ} (hj : q ≤ j) (hx : x ≤ (2 : ℚ) ^ j) :
    v ≤ (2 : ℚ) ^ j := by
  have hle := h.le_mul_zpow 1 hj (by rwa [Nat.cast_one, one_mul])
  rwa [Nat.cast_one, one_mul] at hle

/-- Scaling a rounding to the integers by `2 ^ q` rounds to the multiples of `2 ^ q`. -/
theorem scale (h : RoundsTo 0 x v) (q : ℤ) : RoundsTo q (x * 2 ^ q) (v * 2 ^ q) := by
  have hpos : (0 : ℚ) < 2 ^ q := by positivity
  obtain ⟨⟨M, hM⟩, habs, hle, hge⟩ := h
  simp only [zpow_zero, mul_one] at hM habs hle hge
  refine ⟨⟨M, by rw [hM]⟩, ?_, fun K hK => ?_, fun K hK => ?_⟩
  · rw [← sub_mul, abs_mul, abs_of_pos hpos]
    calc |v - x| * 2 ^ q ≤ 1 / 2 * 2 ^ q := mul_le_mul_of_nonneg_right habs hpos.le
      _ = 2 ^ q / 2 := by ring
  · exact mul_le_mul_of_nonneg_right (hle K (le_of_mul_le_mul_right hK hpos)) hpos.le
  · exact mul_le_mul_of_nonneg_right (hge K (le_of_mul_le_mul_right hK hpos)) hpos.le

end RoundsTo

/-- The significand `nearest` rounds `num / den` to: the integer quotient, or the next one when
the remainder is more than half the divisor, or exactly half of it with an odd quotient. -/
def roundedQuotient (num den : Nat) : Nat :=
  if den < 2 * (num % den) ∨ (2 * (num % den) = den ∧ num / den % 2 = 1) then num / den + 1
  else num / den

/-- **The rounded quotient rounds `num / den` to the integers.** -/
theorem roundsTo_roundedQuotient {num den : Nat} (hden : 0 < den) :
    RoundsTo 0 ((num : ℚ) / den) (roundedQuotient num den) := by
  have hdq : (0 : ℚ) < den := by exact_mod_cast hden
  -- the quotient is its integer part plus the remainder over the divisor
  have hsplit : (num : ℚ) / den = (num / den : ℕ) + (num % den : ℕ) / den := by
    rw [div_eq_iff hdq.ne', add_mul, div_mul_cancel₀ _ hdq.ne']
    exact_mod_cast (Nat.div_add_mod' num den).symm
  have hrq : ((num % den : ℕ) : ℚ) / den < 1 := by
    rw [div_lt_one hdq]
    exact_mod_cast Nat.mod_lt _ hden
  have hr0 : (0 : ℚ) ≤ ((num % den : ℕ) : ℚ) / den := by positivity
  unfold roundedQuotient
  split
  · rename_i hup
    -- rounding up: the remainder is at least half the divisor, and not zero
    have hhalf : (1 : ℚ) / 2 ≤ ((num % den : ℕ) : ℚ) / den := by
      rw [div_le_div_iff₀ (by norm_num) hdq, one_mul]
      exact_mod_cast (by omega : den ≤ (num % den) * 2)
    refine RoundsTo.zero_of ?_ (fun K hK => ?_) (fun K hK => ?_)
    · rw [hsplit, abs_le]
      push_cast
      constructor <;> linarith
    · have hK : (K : ℚ) < (num / den : ℕ) + 1 := by linarith
      exact_mod_cast hK.le
    · have hK : ((num / den : ℕ) : ℚ) < K := by linarith
      have hK' : num / den < K := by exact_mod_cast hK
      omega
  · rename_i hdown
    -- rounding down: the remainder is at most half the divisor
    have hhalf : ((num % den : ℕ) : ℚ) / den ≤ 1 / 2 := by
      rw [div_le_div_iff₀ hdq (by norm_num), one_mul]
      exact_mod_cast (by omega : (num % den) * 2 ≤ den)
    refine RoundsTo.zero_of ?_ (fun K hK => ?_) (fun K hK => ?_)
    · rw [hsplit, abs_le]
      constructor <;> linarith
    · have hK : (K : ℚ) < (num / den : ℕ) + 1 := by linarith
      have hK' : K < num / den + 1 := by exact_mod_cast hK
      omega
    · have hK : ((num / den : ℕ) : ℚ) ≤ K := by linarith
      exact_mod_cast hK

/-! ### Packing a significand -/

namespace Format

variable {f : Format} {n d : Nat}

theorem unit_eq (f : Format) : f.unit = 2 ^ f.fractionBits :=
  Nat.one_shiftLeft _

/-- A pattern with a biased exponent strictly between zero and the top reads as the normal
magnitude of its exponent and fraction. -/
theorem decode_normal {e r : Nat} (he0 : 0 < e) (he : e < f.topExponent) (hr : r < f.unit) :
    f.decode ((e <<< f.fractionBits) + r) =
      .finite false ⟨f.unit + r, (e : Int) - 1 + f.leastExponent, r == 0 && 1 < e⟩ := by
  have htop : e < 2 ^ f.exponentBits := by
    have : f.topExponent = 2 ^ f.exponentBits - 1 := by rw [topExponent, Nat.one_shiftLeft]
    omega
  -- the fields of the pattern: the exponent above the fraction, no sign bit
  have hshift : ((e <<< f.fractionBits) + r) >>> f.fractionBits = e := by
    rw [Nat.shiftLeft_eq, Nat.shiftRight_eq_div_pow, Nat.add_comm,
      Nat.add_mul_div_right _ _ (by positivity), Nat.div_eq_of_lt (f.unit_eq ▸ hr), Nat.zero_add]
  have hfield : ((e <<< f.fractionBits) + r) >>> f.fractionBits % (1 <<< f.exponentBits) = e := by
    rw [hshift, Nat.one_shiftLeft, Nat.mod_eq_of_lt htop]
  have hsign : ((e <<< f.fractionBits) + r) >>> (f.fractionBits + f.exponentBits) % 2 = 0 := by
    rw [Nat.shiftRight_add, hshift, Nat.shiftRight_eq_div_pow, Nat.div_eq_of_lt htop]
  have hfrac : ((e <<< f.fractionBits) + r) % f.unit = r := by
    rw [Nat.shiftLeft_eq, ← f.unit_eq, Nat.mul_comm, Nat.mul_add_mod, Nat.mod_eq_of_lt hr]
  unfold decode
  dsimp only
  rw [hfield, hsign, hfrac, if_neg (by omega), if_neg (by omega)]
  rfl

/-- **Packing a significand of the binade and reading it back gives `M · 2 ^ q`**, a carry into
the next binade included, as long as the biased exponent stays below the top. -/
theorem decode_pack {M : Nat} {q : ℤ} (hlo : f.unit ≤ M) (hhi : M ≤ 2 * f.unit)
    (hq : f.leastExponent ≤ q) (htop : (q - f.leastExponent).toNat + 2 < f.topExponent) :
    ∃ x, f.decode (f.pack M q) = .finite false x ∧ x.toRat = M * 2 ^ q := by
  have hunit : (f.unit : ℚ) = 2 ^ f.fractionBits := by rw [f.unit_eq, Nat.cast_pow, Nat.cast_ofNat]
  unfold pack
  by_cases hcarry : M = 2 * f.unit
  · -- a significand of `2 · unit` is the least one of the next binade
    rw [if_pos hcarry]
    dsimp only
    rw [if_neg (Nat.lt_irrefl _), if_neg (by omega), Nat.sub_self, Nat.add_zero]
    have hdec := decode_normal (f := f) (e := (q + 1 - f.leastExponent).toNat + 1) (r := 0)
      (by omega) (by omega) (by rw [f.unit_eq]; positivity)
    rw [Nat.add_zero] at hdec
    refine ⟨_, hdec, ?_⟩
    rw [Binary.toRat, hcarry]
    push_cast
    rw [show ((q + 1 - f.leastExponent).toNat : ℤ) + 1 - 1 + f.leastExponent = q + 1 by omega,
      zpow_add_one₀ two_ne_zero]
    ring
  · rw [if_neg hcarry]
    dsimp only
    rw [if_neg (by omega), if_neg (by omega)]
    refine ⟨_, decode_normal (f := f) (by omega) (by omega) (by omega), ?_⟩
    rw [Binary.toRat, Nat.add_sub_cancel' hlo,
      show (((q - f.leastExponent).toNat + 1 : ℕ) : ℤ) - 1 + f.leastExponent = q by omega]

/-! ### Rounding a quotient -/

/-- The code of `nearest` on a positive quotient: the rounded scaled quotient, packed at the
exponent of the last place. -/
theorem nearest_eq (hn : 0 < n) (hd : 0 < d) :
    f.nearest n d =
      f.pack (roundedQuotient (n <<< (-(max (floorLog2 n d - f.fractionBits) f.leastExponent)).toNat)
          (d <<< (max (floorLog2 n d - f.fractionBits) f.leastExponent).toNat))
        (max (floorLog2 n d - f.fractionBits) f.leastExponent) := by
  unfold nearest
  rw [if_neg (by omega)]
  rfl

/-- **`nearest` rounds to the grid of the binade.** For a positive quotient `n / d` whose binade
`E = ⌊log₂ (n / d)⌋` is normal and below the greatest, the pattern `nearest f n d` is a finite
non-negative magnitude that rounds `n / d` to the multiples of `2 ^ (E - p)`. -/
theorem nearest_roundsTo (hn : 0 < n) (hd : 0 < d)
    (hlow : f.leastExponent + f.fractionBits ≤ floorLog2 n d)
    (htop : floorLog2 n d - f.fractionBits - f.leastExponent + 2 < f.topExponent) :
    ∃ x, f.decode (f.nearest n d) = .finite false x ∧
      RoundsTo (floorLog2 n d - f.fractionBits) ((n : ℚ) / d) x.toRat := by
  have hmax : max (floorLog2 n d - f.fractionBits) f.leastExponent =
      floorLog2 n d - f.fractionBits := max_eq_left (by omega)
  rw [nearest_eq hn hd, hmax]
  set q := floorLog2 n d - f.fractionBits with hq
  have hden : 0 < d <<< q.toNat := by
    rw [Nat.shiftLeft_eq]
    positivity
  have hround : RoundsTo 0 (((n <<< (-q).toNat : ℕ) : ℚ) / (d <<< q.toNat : ℕ))
      (roundedQuotient (n <<< (-q).toNat) (d <<< q.toNat)) := roundsTo_roundedQuotient hden
  rw [scaled_div] at hround
  -- the scaled quotient lies in `[2 ^ p, 2 ^ (p + 1))`, so its rounding is a significand
  obtain ⟨hE1, hE2⟩ := floorLog2_spec hn hd
  have hpos : (0 : ℚ) < 2 ^ q := by positivity
  have hy1 : ((2 ^ f.fractionBits : ℕ) : ℚ) ≤ n / d / 2 ^ q := by
    rw [le_div_iff₀ hpos, Nat.cast_pow, Nat.cast_ofNat, ← zpow_natCast, ← zpow_add₀ two_ne_zero]
    rwa [hq, add_sub_cancel]
  have hy2 : (n : ℚ) / d / 2 ^ q ≤ ((2 ^ (f.fractionBits + 1) : ℕ) : ℚ) := by
    rw [div_le_iff₀ hpos, Nat.cast_pow, Nat.cast_ofNat, ← zpow_natCast, ← zpow_add₀ two_ne_zero]
    refine hE2.le.trans_eq ?_
    rw [hq]
    push_cast
    ring_nf
  have hM1 : f.unit ≤ roundedQuotient (n <<< (-q).toNat) (d <<< q.toNat) := by
    rw [f.unit_eq]
    exact_mod_cast hround.natCast_le hy1
  have hM2 : roundedQuotient (n <<< (-q).toNat) (d <<< q.toNat) ≤ 2 * f.unit := by
    rw [f.unit_eq, ← Nat.pow_succ']
    exact_mod_cast hround.le_natCast hy2
  obtain ⟨x, hdec, hval⟩ := decode_pack (q := q) hM1 hM2 (by omega) (by omega)
  refine ⟨x, hdec, ?_⟩
  rw [hval]
  have hscaled := hround.scale q
  rwa [div_mul_cancel₀ _ hpos.ne'] at hscaled

/-- A quotient at or above `2 ^ k` has its binade at or above `k`. -/
theorem le_floorLog2 (hn : 0 < n) (hd : 0 < d) {k : ℤ} (h : (2 : ℚ) ^ k ≤ n / d) :
    k ≤ floorLog2 n d := by
  have hlt := lt_of_le_of_lt h (floorLog2_spec hn hd).2
  rw [zpow_lt_zpow_iff_right₀ one_lt_two] at hlt
  omega

/-- A quotient below `2 ^ k` has its binade below `k`. -/
theorem floorLog2_lt (hn : 0 < n) (hd : 0 < d) {k : ℤ} (h : (n : ℚ) / d < 2 ^ k) :
    floorLog2 n d < k := by
  have hlt := lt_of_le_of_lt (floorLog2_spec hn hd).1 h
  rwa [zpow_lt_zpow_iff_right₀ one_lt_two] at hlt

/-- **A magnitude with a significand of at most `p + 1` bits comes back exactly**: a quotient
`K · 2 ^ j` with `K < 2 ^ (p + 1)` lies on the grid of its binade. -/
theorem nearest_exact (hn : 0 < n) (hd : 0 < d)
    (hlow : f.leastExponent + f.fractionBits ≤ floorLog2 n d)
    (htop : floorLog2 n d - f.fractionBits - f.leastExponent + 2 < f.topExponent)
    {K : ℕ} {j : ℤ} (hK : K < 2 ^ (f.fractionBits + 1)) (hx : (n : ℚ) / d = K * 2 ^ j) :
    ∃ x, f.decode (f.nearest n d) = .finite false x ∧ x.toRat = n / d := by
  obtain ⟨x, hdec, hround⟩ := nearest_roundsTo hn hd hlow htop
  -- the binade is at most `p + j`, so the grid step divides `2 ^ j`
  have hbinade : floorLog2 n d < f.fractionBits + 1 + j := by
    refine floorLog2_lt hn hd ?_
    rw [hx, zpow_add₀ two_ne_zero,
      show (f.fractionBits : ℤ) + 1 = ((f.fractionBits + 1 : ℕ) : ℤ) by push_cast; ring, zpow_natCast]
    exact mul_lt_mul_of_pos_right (by exact_mod_cast hK) (by positivity)
  exact ⟨x, hdec, hround.eq_of_eq_mul hx (by omega)⟩

end Format

end CompactCollections.Floating
