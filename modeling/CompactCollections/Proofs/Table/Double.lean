import CompactCollections.Proofs.Floating.Nearest
import CompactCollections.Proofs.Table.Sizing
/-!
# Sizing in double precision

The code sizes a table in double precision: the slots `e` entries need are the ceiling of the
quotient of `e` by the load factor, both read as doubles and the quotient rounded to a double,
and the threshold of `c` slots is the floor of their rounded product, kept within `[1, c - 1]`.
The library computes both exactly on the value `m / 2 ^ s` of the clamped single-precision load
factor (`CompactCollections.LoadFactor.ceilDiv`, `CompactCollections.LoadFactor.floorMul`).
Here the code's computation is written out with `CompactCollections.Floating.Format.nearest` as
the model of double-precision rounding, and the two are proved to agree on every input the code
meets (`CompactCollections.LoadFactor.tableCapacityDouble_eq`).

* Widening the load factor to double precision is exact, and so is reading a count below
  `2 ^ 53`, or a power of two, as a double.
* The product `c · lf` for a power of two `c` is `m · 2 ^ (k - s)`, a double, so its floor is
  exact.
* The quotient `e / lf = e · 2 ^ s / m` is rounded. Below `2 ^ 30` its binade puts the grid at
  `2 ^ -23` or finer, so half a step is at most `2 ^ -24`, while the quotient lies at least
  `1 / m > 2 ^ -24` above every integer below it: rounding never carries it across an integer,
  and its ceiling is exact. At or above `2 ^ 30` the rounding stays there, and so does the exact
  ceiling: both refuse.
-/

namespace CompactCollections.LoadFactor

open Floating Floating.Format

/-! ### The code's arithmetic -/

/-- The load factor widened from single to double precision. -/
def toDouble (lf : LoadFactor) : Nat :=
  narrow single double lf.bits.toNat

/-- `⌈v⌉` of a finite double `v`, as a natural number: the count the code reads off a
non-negative ceiling. -/
def ceilOf (bits : Nat) : Nat :=
  match double.decode bits with
  | .finite _ x => (x.ratio.1 + x.ratio.2 - 1) / x.ratio.2
  | _ => 0

/-- `⌊v⌋` of a finite double `v`, as a natural number: the count the code reads off a
non-negative floor. -/
def floorOf (bits : Nat) : Nat :=
  match double.decode bits with
  | .finite _ x => x.ratio.1 / x.ratio.2
  | _ => 0

/-- The slots `e` entries need, as the code computes them: `e` and the load factor read as
doubles, their quotient rounded to the nearest double, then rounded up. -/
def neededDouble (lf : LoadFactor) (e : Nat) : Nat :=
  ceilOf (double.div (double.ofNat e) lf.toDouble)

/-- `⌊n · lf⌋` as the code computes it: the product of the doubles, rounded, then rounded
down. -/
def floorMulDouble (lf : LoadFactor) (n : Nat) : Nat :=
  floorOf (double.mul (double.ofNat n) lf.toDouble)

/-- The threshold of `n` slots as the code computes it. -/
def thresholdDouble (lf : LoadFactor) (n : Nat) : Nat :=
  min (max (lf.floorMulDouble n) 1) (n - 1)

/-- The slots of a table built for `expected` entries, as the code computes them in double
precision. -/
def tableCapacityDouble (lf : LoadFactor) (expected : Nat) : Except CollectionError Nat := do
  let needed := lf.neededDouble expected
  if maxCapacity ≤ needed then
    throw (.capacityOverflow expected)
  let capacity ← Capacity.nextPowerOfTwo (max (needed + 1) 4)
  if lf.thresholdDouble capacity ≤ expected then
    Capacity.nextPowerOfTwo (capacity * 2)
  else
    pure capacity

/-! ### Reading doubles back -/

theorem double_fractionBits : double.fractionBits = 52 := rfl

theorem double_leastExponent : double.leastExponent = -1074 := rfl

theorem double_topExponent : double.topExponent = 2047 := rfl

theorem ratio_pos (x : Binary) : 0 < x.ratio.2 := by
  simp only [Binary.ratio, Nat.one_shiftLeft]
  exact Nat.two_pow_pos _

theorem ratio_fst_pos {x : Binary} (h : 0 < x.toRat) : 0 < x.ratio.1 := by
  refine Nat.pos_of_ne_zero fun h0 => ?_
  rw [← x.ratio_div, h0, Nat.cast_zero, zero_div] at h
  exact lt_irrefl 0 h

theorem ceilOf_eq {bits : Nat} {s : Bool} {x : Binary} (h : double.decode bits = .finite s x) :
    ceilOf bits = ⌈x.toRat⌉₊ := by
  rw [ceilOf, h, ← Binary.ratio_div]
  dsimp only
  have hd := ratio_pos x
  refine eq_of_forall_ge_iff fun c => ?_
  rw [Nat.div_le_iff_le_mul_add_pred hd, Nat.ceil_le, div_le_iff₀ (by exact_mod_cast hd),
    ← Nat.cast_mul, Nat.cast_le, Nat.mul_comm c]
  omega

theorem floorOf_eq {bits : Nat} {s : Bool} {x : Binary} (h : double.decode bits = .finite s x) :
    floorOf bits = ⌊x.toRat⌋₊ := by
  rw [floorOf, h, ← Binary.ratio_div, Nat.floor_div_eq_div]

/-! ### Rounding in the normal range -/

section Normal

variable {n d : Nat}

/-- A positive quotient in `[2 ^ -1022, 2 ^ 1023)` has its binade among the normal ones. -/
theorem normal_range (hn : 0 < n) (hd : 0 < d) (hlow : (2 : ℚ) ^ (-1022 : ℤ) ≤ n / d)
    (hhigh : (n : ℚ) / d < 2 ^ (1023 : ℤ)) :
    double.leastExponent + double.fractionBits ≤ floorLog2 n d ∧
      floorLog2 n d - double.fractionBits - double.leastExponent + 2 < double.topExponent := by
  have hE1 := le_floorLog2 hn hd hlow
  have hE2 := floorLog2_lt hn hd hhigh
  rw [double_leastExponent, double_fractionBits, double_topExponent]
  omega

/-- A positive quotient in the normal range rounds to the grid `2 ^ q` of its binade
`[2 ^ (q + 52), 2 ^ (q + 53))`. -/
theorem nearest_double (hn : 0 < n) (hd : 0 < d) (hlow : (2 : ℚ) ^ (-1022 : ℤ) ≤ n / d)
    (hhigh : (n : ℚ) / d < 2 ^ (1023 : ℤ)) :
    ∃ x q, double.decode (double.nearest n d) = .finite false x ∧ RoundsTo q (n / d) x.toRat ∧
      (2 : ℚ) ^ (q + 52) ≤ n / d := by
  obtain ⟨hE1, hE2⟩ := normal_range hn hd hlow hhigh
  obtain ⟨x, hdec, hround⟩ := nearest_roundsTo hn hd hE1 hE2
  simp only [double_fractionBits, Nat.cast_ofNat] at hround
  refine ⟨x, floorLog2 n d - 52, hdec, hround, ?_⟩
  rw [sub_add_cancel]
  exact (floorLog2_spec hn hd).1

/-- A quotient in the normal range with a significand of at most 53 bits is a double. -/
theorem nearest_double_exact (hn : 0 < n) (hd : 0 < d) (hlow : (2 : ℚ) ^ (-1022 : ℤ) ≤ n / d)
    (hhigh : (n : ℚ) / d < 2 ^ (1023 : ℤ)) {K : ℕ} {j : ℤ} (hK : K < 2 ^ 53)
    (hx : (n : ℚ) / d = K * 2 ^ j) :
    ∃ x, double.decode (double.nearest n d) = .finite false x ∧ x.toRat = n / d := by
  obtain ⟨hE1, hE2⟩ := normal_range hn hd hlow hhigh
  exact nearest_exact hn hd hE1 hE2 hK hx

end Normal

/-- A value of the binade `[2 ^ (q + 52), 2 ^ (q + 53))` below `2 ^ (j + 52)` lies on a grid
finer than `2 ^ j`. -/
theorem grid_lt {q j : ℤ} {y : ℚ} (hlow : (2 : ℚ) ^ (q + 52) ≤ y) (hy : y < 2 ^ (j + 52)) :
    q < j := by
  have h := lt_of_le_of_lt hlow hy
  rw [zpow_lt_zpow_iff_right₀ one_lt_two] at h
  omega

section Arithmetic

variable {a b : Nat} {x y : Binary}

/-- The quotient of two non-negative doubles rounds the quotient of their fractions. -/
theorem div_eq (ha : double.decode a = .finite false x) (hb : double.decode b = .finite false y) :
    double.div a b = double.nearest (x.ratio.1 * y.ratio.2) (x.ratio.2 * y.ratio.1) := by
  simp only [div, ha, hb, withSign, bne_self_eq_false, Bool.false_eq_true, if_false]

/-- The product of two non-negative doubles rounds the product of their fractions. -/
theorem mul_eq (ha : double.decode a = .finite false x) (hb : double.decode b = .finite false y) :
    double.mul a b = double.nearest (x.ratio.1 * y.ratio.1) (x.ratio.2 * y.ratio.2) := by
  simp only [mul, ha, hb, withSign, bne_self_eq_false, Bool.false_eq_true, if_false]

theorem ratio_div_ratio (x y : Binary) :
    ((x.ratio.1 * y.ratio.2 : ℕ) : ℚ) / (x.ratio.2 * y.ratio.1 : ℕ) = x.toRat / y.toRat := by
  rw [Nat.cast_mul, Nat.cast_mul, ← x.ratio_div, ← y.ratio_div, div_div_div_eq]

theorem ratio_mul_ratio (x y : Binary) :
    ((x.ratio.1 * y.ratio.1 : ℕ) : ℚ) / (x.ratio.2 * y.ratio.2 : ℕ) = x.toRat * y.toRat := by
  rw [Nat.cast_mul, Nat.cast_mul, ← x.ratio_div, ← y.ratio_div, mul_div_mul_comm]

end Arithmetic

/-! ### Counts as doubles -/

theorem natCast_two_pow (k : ℕ) : ((2 ^ k : ℕ) : ℚ) = 2 ^ (k : ℤ) := by
  rw [Nat.cast_pow, Nat.cast_ofNat, zpow_natCast]

/-- A positive count below `2 ^ 1023` with a significand of at most 53 bits reads exactly as a
double. -/
theorem decode_ofNat_exact {n K : ℕ} {j : ℤ} (hn : 0 < n) (hn' : (n : ℚ) < 2 ^ (1023 : ℤ))
    (hK : K < 2 ^ 53) (hx : (n : ℚ) = K * 2 ^ j) :
    ∃ x, double.decode (double.ofNat n) = .finite false x ∧ x.toRat = n := by
  have h1 : (1 : ℚ) ≤ n := by exact_mod_cast hn
  have hdiv : (n : ℚ) / (1 : ℕ) = n := by rw [Nat.cast_one, div_one]
  obtain ⟨x, hdec, hx⟩ := nearest_double_exact (d := 1) hn one_pos
    (by rw [hdiv]; exact le_trans (zpow_le_one_of_nonpos₀ one_le_two (by norm_num)) h1)
    (by rw [hdiv]; exact hn') hK (by rw [hdiv]; exact hx)
  exact ⟨x, hdec, hx.trans hdiv⟩

/-- A count below `2 ^ 53` reads exactly as a double. -/
theorem decode_ofNat_of_lt {n : Nat} (hn : 0 < n) (hn' : n < 2 ^ 53) :
    ∃ x, double.decode (double.ofNat n) = .finite false x ∧ x.toRat = n := by
  have h53 : (n : ℚ) < 2 ^ (53 : ℤ) := by
    rw [zpow_ofNat]
    exact_mod_cast hn'
  exact decode_ofNat_exact hn (lt_trans h53 (zpow_lt_zpow_right₀ one_lt_two (by norm_num))) hn'
    (j := 0) (by rw [zpow_zero, mul_one])

/-- A power of two below `2 ^ 1023` reads exactly as a double. -/
theorem decode_ofNat_two_pow {k : Nat} (hk : k < 1023) :
    ∃ x, double.decode (double.ofNat (2 ^ k)) = .finite false x ∧ x.toRat = (2 ^ k : ℕ) := by
  have hpow := natCast_two_pow k
  refine decode_ofNat_exact (Nat.two_pow_pos k) ?_ (K := 1) (j := k) (by norm_num) ?_
  · rw [hpow]
    exact zpow_lt_zpow_right₀ one_lt_two (by omega)
  · rw [hpow, Nat.cast_one, one_mul]

/-- A count from `2 ^ 53` to `2 ^ 64` reads as a double in the same range. -/
theorem decode_ofNat_of_le {n : Nat} (hn : 2 ^ 53 ≤ n) (hn' : n ≤ 2 ^ 64) :
    ∃ x, double.decode (double.ofNat n) = .finite false x ∧
      (2 : ℚ) ^ (53 : ℤ) ≤ x.toRat ∧ x.toRat ≤ 2 ^ (64 : ℤ) := by
  have h53 : (2 : ℚ) ^ (53 : ℤ) ≤ n / (1 : ℕ) := by
    rw [Nat.cast_one, div_one, zpow_ofNat]
    exact_mod_cast hn
  have h64 : (n : ℚ) / (1 : ℕ) ≤ 2 ^ (64 : ℤ) := by
    rw [Nat.cast_one, div_one, zpow_ofNat]
    exact_mod_cast hn'
  obtain ⟨x, q, hdec, hround, hbinade⟩ := nearest_double (d := 1) (by omega) one_pos
    (le_trans (zpow_le_zpow_right₀ one_le_two (by norm_num)) h53)
    (lt_of_le_of_lt h64 (zpow_lt_zpow_right₀ one_lt_two (by norm_num)))
  -- the grid of a count below `2 ^ 65` is at most `2 ^ 12`, finer than both bounds
  have hq : q < 13 :=
    grid_lt hbinade (lt_of_le_of_lt h64 (zpow_lt_zpow_right₀ one_lt_two (by norm_num)))
  exact ⟨x, hdec, hround.two_zpow_le (by omega) h53, hround.le_two_zpow (by omega) h64⟩

/-! ### The clamped load factor -/

/-- The value `m / 2 ^ s` of a load factor. -/
def value (lf : LoadFactor) : ℚ :=
  lf.significand / 2 ^ lf.scale

section Clamped

variable (b : UInt32)

/-- The significand of a load factor: its 23 fraction bits under the implicit leading bit. -/
theorem significand_eq (lf : LoadFactor) : lf.significand = lf.bits.toNat % 2 ^ 23 + 2 ^ 23 := by
  have hmask : (0x007FFFFF : UInt32).toNat = 2 ^ 23 - 1 := rfl
  have htop : (0x00800000 : UInt32).toNat = 2 ^ 23 := rfl
  rw [significand, UInt32.toNat_or, UInt32.toNat_and, hmask, Nat.and_two_pow_sub_one_eq_mod, htop,
    Nat.or_two_pow_eq_add_of_lt (Nat.mod_lt _ (Nat.two_pow_pos 23))]

/-- The value of a clamped load factor lies in `[2 ^ -7, 1)`. -/
theorem value_clamp : (2 : ℚ) ^ (-7 : ℤ) ≤ (clamp b).value ∧ (clamp b).value < 1 := by
  obtain ⟨hm1, hm2⟩ := significand_clamp b
  obtain ⟨hs1, hs2⟩ := scale_clamp b
  rw [Nat.one_shiftLeft] at hm1 hm2
  rw [value]
  constructor
  · calc (2 : ℚ) ^ (-7 : ℤ) = 2 ^ 23 / 2 ^ 30 := by norm_num
      _ ≤ (clamp b).significand / 2 ^ (clamp b).scale := by
        gcongr
        · exact_mod_cast hm1
        · exact one_le_two
  · rw [div_lt_one (by positivity)]
    calc ((clamp b).significand : ℚ) < 2 ^ 24 := by exact_mod_cast hm2
      _ ≤ 2 ^ (clamp b).scale := pow_le_pow_right₀ one_le_two hs1

theorem value_pos : 0 < (clamp b).value :=
  lt_of_lt_of_le (by positivity) (value_clamp b).1

/-- The clamped pattern, read as a single, is the normal number `m / 2 ^ s`. -/
theorem decode_clamp : ∃ x, single.decode (clamp b).bits.toNat = .finite false x ∧
    x.toRat = (clamp b).value := by
  obtain ⟨hE1, hE2⟩ := exponent_clamp b
  rw [UInt32.toNat_shiftRight, Nat.shiftRight_eq_div_pow,
    show (23 : UInt32).toNat % 32 = 23 from rfl] at hE1 hE2
  set B := (clamp b).bits.toNat
  -- the exponent field above the 23 fraction bits
  have hsplit : B = ((B / 2 ^ 23) <<< single.fractionBits) + B % single.unit := by
    rw [Nat.shiftLeft_eq, single.unit_eq]
    exact (Nat.div_add_mod' B _).symm
  have hr : B % single.unit < single.unit :=
    Nat.mod_lt _ (by rw [single.unit_eq]; exact Nat.two_pow_pos _)
  rw [hsplit, decode_normal (by omega) (by change _ < 255; omega) hr]
  refine ⟨_, rfl, ?_⟩
  have hscale : (clamp b).scale = 150 - B / 2 ^ 23 := by
    rw [scale, UInt32.toNat_shiftRight, Nat.shiftRight_eq_div_pow]
    rfl
  have hexp : ((B / 2 ^ 23 : ℕ) : ℤ) - 1 + single.leastExponent =
      -((150 - B / 2 ^ 23 : ℕ) : ℤ) := by
    change _ - 1 + (-149) = _
    omega
  rw [Binary.toRat, hexp, zpow_neg, zpow_natCast, ← div_eq_mul_inv, value, hscale, significand_eq,
    single.unit_eq, Nat.add_comm]
  rfl

/-- **Widening the clamped load factor to double precision is exact.** -/
theorem decode_toDouble : ∃ y, double.decode (clamp b).toDouble = .finite false y ∧
    y.toRat = (clamp b).value := by
  obtain ⟨x, hdec, hx⟩ := decode_clamp b
  obtain ⟨hlow, hhigh⟩ := value_clamp b
  have hpos : 0 < x.toRat := hx ▸ value_pos b
  have hnarrow : (clamp b).toDouble = double.nearest x.ratio.1 x.ratio.2 := by
    simp only [toDouble, narrow, hdec, withSign, Bool.false_eq_true, if_false]
  have hm : (clamp b).significand < 2 ^ 53 :=
    lt_trans ((Nat.one_shiftLeft 24).symm ▸ (significand_clamp b).2) (by norm_num)
  rw [hnarrow, ← hx, ← x.ratio_div]
  refine nearest_double_exact (ratio_fst_pos hpos) (ratio_pos x) ?_ ?_ hm (j := -(clamp b).scale) ?_
  all_goals rw [x.ratio_div, hx]
  · exact le_trans (zpow_le_zpow_right₀ one_le_two (by norm_num)) hlow
  · exact lt_trans hhigh (one_lt_zpow₀ one_lt_two (by norm_num))
  · rw [value, zpow_neg, zpow_natCast, div_eq_mul_inv]

/-- **The quotient of a count by the load factor, in double precision**: for a dividend of value
`v` in `[1, 2 ^ 64]`, the double the code divides out rounds `v / (m / 2 ^ s)` to the grid
`2 ^ q` of its binade, and the quotient, below `2 ^ 71`, puts that grid at most at `2 ^ 19`. -/
theorem decode_div {a : Nat} {x : Binary} (ha : double.decode a = .finite false x)
    (h1 : 1 ≤ x.toRat) (h64 : x.toRat ≤ 2 ^ (64 : ℤ)) :
    ∃ z q, double.decode (double.div a (clamp b).toDouble) = .finite false z ∧
      RoundsTo q (x.toRat / (clamp b).value) z.toRat ∧
      (2 : ℚ) ^ (q + 52) ≤ x.toRat / (clamp b).value ∧ q < 20 := by
  obtain ⟨y, hy, hyv⟩ := decode_toDouble b
  obtain ⟨hlow, hhigh⟩ := value_clamp b
  have hL := value_pos b
  have hquot := ratio_div_ratio x y
  rw [hyv] at hquot
  -- the quotient lies in `[1, 2 ^ 71]`
  have hq1 : (1 : ℚ) ≤ x.toRat / (clamp b).value :=
    le_trans h1 (le_div_self (by linarith) hL hhigh.le)
  have hq71 : x.toRat / (clamp b).value ≤ 2 ^ (71 : ℤ) :=
    calc x.toRat / (clamp b).value
        ≤ 2 ^ (64 : ℤ) / 2 ^ (-7 : ℤ) :=
          div_le_div₀ (by positivity) h64 (by positivity) hlow
      _ = 2 ^ (71 : ℤ) := by rw [← zpow_sub₀ two_ne_zero]; norm_num
  rw [div_eq ha hy, ← hquot]
  obtain ⟨z, q, hdec, hround, hbinade⟩ := nearest_double
    (Nat.mul_pos (ratio_fst_pos (by linarith)) (ratio_pos y))
    (Nat.mul_pos (ratio_pos x) (ratio_fst_pos (hyv ▸ hL)))
    (hquot ▸ le_trans (zpow_le_one_of_nonpos₀ one_le_two (by norm_num)) hq1)
    (hquot ▸ lt_of_le_of_lt hq71 (zpow_lt_zpow_right₀ one_lt_two (by norm_num)))
  refine ⟨z, q, hdec, hround, hbinade, grid_lt hbinade ?_⟩
  rw [hquot]
  exact lt_of_le_of_lt hq71 (zpow_lt_zpow_right₀ one_lt_two (by norm_num))

end Clamped

/-! ### Ceilings and floors of the exact value -/

/-- `⌈e / lf⌉` is the ceiling of the quotient by the value. -/
theorem ceilDiv_eq_ceil {lf : LoadFactor} (hf : lf.Fraction) (e : Nat) :
    lf.ceilDiv e = ⌈(e : ℚ) / lf.value⌉₊ := by
  have hm : (0 : ℚ) < lf.significand := by exact_mod_cast hf.significand_pos
  refine eq_of_forall_ge_iff fun k => ?_
  rw [ceilDiv_le_iff hf, Nat.ceil_le, value, div_div_eq_mul_div, div_le_iff₀ hm,
    Nat.one_shiftLeft]
  norm_cast

/-- `⌊n · lf⌋` is the floor of the product with the value. -/
theorem floorMul_eq_floor (lf : LoadFactor) (n : Nat) :
    lf.floorMul n = ⌊(n : ℚ) * lf.value⌋₊ := by
  have hpow : (2 : ℚ) ^ lf.scale = ((2 ^ lf.scale : ℕ) : ℚ) := by push_cast; rfl
  rw [floorMul_eq, Nat.one_shiftLeft, value, ← mul_div_assoc, hpow, ← Nat.cast_mul,
    Nat.floor_div_eq_div]

/-- A quotient `e / lf` lies more than `2 ^ -24` above every natural below it: the distance is
a positive multiple of `1 / m`, and `m < 2 ^ 24`. -/
theorem add_lt_of_lt_quotient (b : UInt32) {e k : ℕ} (hk : (k : ℚ) < e / (clamp b).value) :
    (k : ℚ) + 2 ^ (-24 : ℤ) < e / (clamp b).value := by
  have hm := significand_clamp b
  rw [Nat.one_shiftLeft, Nat.one_shiftLeft] at hm
  have hmq : (0 : ℚ) < (clamp b).significand := by
    exact_mod_cast (by omega : 0 < (clamp b).significand)
  rw [value, div_div_eq_mul_div] at hk ⊢
  have hlt : k * (clamp b).significand < e * 2 ^ (clamp b).scale := by
    rw [lt_div_iff₀ hmq] at hk
    exact_mod_cast hk
  have hstep : ((k * (clamp b).significand + 1 : ℕ) : ℚ) ≤ (e * 2 ^ (clamp b).scale : ℕ) :=
    by exact_mod_cast hlt
  push_cast at hstep
  calc (k : ℚ) + 2 ^ (-24 : ℤ) < k + 1 / (clamp b).significand := by
        rw [show (2 : ℚ) ^ (-24 : ℤ) = 1 / 2 ^ 24 by norm_num]
        gcongr
        exact_mod_cast hm.2
    _ = (k * (clamp b).significand + 1) / (clamp b).significand := by field_simp
    _ ≤ e * 2 ^ (clamp b).scale / (clamp b).significand := by gcongr

/-- **Rounding that cannot cross an integer keeps the ceiling.** On a grid of step at most
`2 ^ -23`, a value lying more than `2 ^ -24` above every natural below it rounds to a value with
the same ceiling. -/
theorem ceil_eq_of_roundsTo {q : ℤ} {y z : ℚ} (h : RoundsTo q y z) (hq : q ≤ -23)
    (hgap : ∀ k : ℕ, (k : ℚ) < y → k + 2 ^ (-24 : ℤ) < y) : ⌈z⌉₊ = ⌈y⌉₊ := by
  have hhalf : (2 : ℚ) ^ q / 2 ≤ 2 ^ (-24 : ℤ) :=
    calc (2 : ℚ) ^ q / 2 ≤ 2 ^ (-23 : ℤ) / 2 := by gcongr; exact one_le_two
      _ = 2 ^ (-24 : ℤ) := by norm_num
  refine eq_of_forall_ge_iff fun k => ?_
  rw [Nat.ceil_le, Nat.ceil_le]
  exact h.le_natCast_iff (by omega) fun hk => lt_of_le_of_lt (by gcongr) (hgap k hk)

/-- A value at or above `2 ^ 30` has its ceiling at or above `maxCapacity`. -/
theorem maxCapacity_le_ceil {y : ℚ} (hy : (2 : ℚ) ^ (30 : ℤ) ≤ y) :
    maxCapacity ≤ ⌈y⌉₊ := by
  have h30 : ((maxCapacity : ℕ) : ℚ) = 2 ^ (30 : ℤ) := by
    rw [Capacity.maxCapacity_eq]
    norm_num
  rw [← h30] at hy
  exact Nat.cast_le.mp (hy.trans (Nat.le_ceil y))

/-! ### The code's sizing is the exact one -/

/-- No entries need no slots, in double precision too. -/
theorem neededDouble_zero (b : UInt32) : (clamp b).neededDouble 0 = 0 := by
  obtain ⟨y, hy, -⟩ := decode_toDouble b
  have h0 : double.ofNat 0 = 0 := by rw [ofNat, nearest, if_pos (Or.inl rfl)]
  have hdec0 : double.decode 0 = .finite false ⟨0, double.leastExponent, false⟩ := rfl
  have hnum : (⟨0, double.leastExponent, false⟩ : Binary).ratio.1 * y.ratio.2 = 0 := by
    simp only [Binary.ratio, Nat.zero_mul]
  rw [neededDouble, h0, div_eq hdec0 hy, hnum, nearest, if_pos (Or.inl rfl), ceilOf_eq hdec0]
  simp only [Binary.toRat, Nat.cast_zero, zero_mul, Nat.ceil_zero]

/-- **The computed need is the exact ceiling, or both reach `maxCapacity`.** For every count a
machine word holds, rounding `e / lf` to a double either leaves its ceiling `⌈e / lf⌉` as it is,
or happens where `⌈e / lf⌉` reaches `maxCapacity` already, and the computed ceiling does too. -/
theorem neededDouble_eq_or (b : UInt32) {e : Nat} (he : e < Capacity.wordLimit) :
    (clamp b).neededDouble e = (clamp b).ceilDiv e ∨
      maxCapacity ≤ (clamp b).neededDouble e ∧ maxCapacity ≤ (clamp b).ceilDiv e := by
  rcases Nat.eq_zero_or_pos e with rfl | hpos
  · exact Or.inl ((neededDouble_zero b).trans (ceilDiv_zero (fraction_clamp b)).symm)
  have he64 : e ≤ 2 ^ 64 := by
    rw [Capacity.wordLimit, Nat.one_shiftLeft] at he
    exact he.le
  rw [ceilDiv_eq_ceil (fraction_clamp b)]
  by_cases hsmall : e < 2 ^ 53
  · -- the count reads exactly, and only the quotient is rounded
    obtain ⟨x, hx, hxv⟩ := decode_ofNat_of_lt hpos hsmall
    obtain ⟨z, q, hz, hround, hbinade, hq⟩ := decode_div b hx
      (by rw [hxv]; exact_mod_cast hpos)
      (by rw [hxv, zpow_ofNat]; exact_mod_cast he64)
    rw [neededDouble, ceilOf_eq hz]
    rw [hxv] at hround hbinade
    by_cases hy : (e : ℚ) / (clamp b).value < 2 ^ (30 : ℤ)
    · -- below `2 ^ 30` the grid is at most `2 ^ -23`, finer than the gap to any integer
      refine Or.inl (ceil_eq_of_roundsTo hround ?_ fun k hk => add_lt_of_lt_quotient b hk)
      have := grid_lt (j := -22) hbinade (by norm_num; exact hy)
      omega
    · have hy' := le_of_not_gt hy
      exact Or.inr
        ⟨maxCapacity_le_ceil (hround.two_zpow_le (by omega) hy'), maxCapacity_le_ceil hy'⟩
  · -- a count of `2 ^ 53` or more is read as at least `2 ^ 53`, far past `maxCapacity`
    obtain ⟨x, hx, hx53, hx64⟩ := decode_ofNat_of_le (le_of_not_gt hsmall) he64
    have hhigh := (value_clamp b).2
    have hL := value_pos b
    obtain ⟨z, q, hz, hround, -, hq⟩ := decode_div b hx
      (le_trans (one_le_zpow₀ one_le_two (by norm_num)) hx53) hx64
    rw [neededDouble, ceilOf_eq hz]
    -- dividing by a load factor below one only makes a value larger
    have hgrow : ∀ v : ℚ, (2 : ℚ) ^ (53 : ℤ) ≤ v →
        (2 : ℚ) ^ (30 : ℤ) ≤ v / (clamp b).value := fun v hv =>
      calc (2 : ℚ) ^ (30 : ℤ) ≤ 2 ^ (53 : ℤ) :=
            zpow_le_zpow_right₀ one_le_two (by norm_num)
        _ ≤ v := hv
        _ ≤ v / (clamp b).value :=
          le_div_self (by positivity) hL hhigh.le
    have he53 : (2 : ℚ) ^ (53 : ℤ) ≤ e := by
      rw [zpow_ofNat]
      exact_mod_cast le_of_not_gt hsmall
    exact Or.inr ⟨maxCapacity_le_ceil (hround.two_zpow_le (by omega) (hgrow _ hx53)),
      maxCapacity_le_ceil (hgrow _ he53)⟩

/-- **The threshold product is exact.** For a power of two `c` a machine word holds, `c · lf`
is `m · 2 ^ (k - s)`, a double, so the computed floor is `⌊c · lf⌋`. -/
theorem floorMulDouble_eq (b : UInt32) {c : Nat} (hc : c.isPowerOfTwo)
    (hc' : c < Capacity.wordLimit) : (clamp b).floorMulDouble c = (clamp b).floorMul c := by
  obtain ⟨k, rfl⟩ := hc
  have hk : k < 64 := by
    rw [Capacity.wordLimit, Nat.one_shiftLeft] at hc'
    exact (Nat.pow_lt_pow_iff_right (by omega)).mp hc'
  obtain ⟨x, hx, hxv⟩ := decode_ofNat_two_pow (k := k) (by omega)
  obtain ⟨y, hy, hyv⟩ := decode_toDouble b
  obtain ⟨hlow, hhigh⟩ := value_clamp b
  have hm := (significand_clamp b).2
  rw [Nat.one_shiftLeft] at hm
  have hpow := natCast_two_pow k
  have hprod := ratio_mul_ratio x y
  rw [hxv, hyv, hpow] at hprod
  -- the product lies in `[2 ^ -7, 2 ^ 64)`
  have hk1 : (1 : ℚ) ≤ 2 ^ (k : ℤ) := one_le_zpow₀ one_le_two (by omega)
  obtain ⟨z, hz, hzv⟩ := nearest_double_exact
    (Nat.mul_pos (ratio_fst_pos (by rw [hxv]; positivity)) (ratio_fst_pos (hyv ▸ value_pos b)))
    (Nat.mul_pos (ratio_pos x) (ratio_pos y))
    (by
      rw [hprod]
      calc (2 : ℚ) ^ (-1022 : ℤ) ≤ 2 ^ (-7 : ℤ) :=
            zpow_le_zpow_right₀ one_le_two (by norm_num)
        _ ≤ (clamp b).value := hlow
        _ ≤ _ := le_mul_of_one_le_left (by positivity) hk1)
    (by
      rw [hprod]
      calc (2 : ℚ) ^ (k : ℤ) * (clamp b).value < 2 ^ (k : ℤ) :=
            mul_lt_of_lt_one_right (by positivity) hhigh
        _ < 2 ^ (1023 : ℤ) := zpow_lt_zpow_right₀ one_lt_two (by omega))
    (lt_trans hm (by norm_num)) (j := k - (clamp b).scale)
    (by
      rw [hprod, value, zpow_sub₀ two_ne_zero]
      simp only [zpow_natCast]
      ring)
  rw [floorMulDouble, mul_eq hx hy, floorOf_eq hz, hzv, hprod, floorMul_eq_floor, ← hpow]

/-- The threshold the code computes for a table of `c` slots, `c` a power of two, is
`CompactCollections.LoadFactor.threshold`. -/
theorem thresholdDouble_eq (b : UInt32) {c : Nat} (hc : c.isPowerOfTwo)
    (hc' : c < Capacity.wordLimit) : (clamp b).thresholdDouble c = (clamp b).threshold c := by
  rw [thresholdDouble, threshold, floorMulDouble_eq b hc hc']

/-- **Sizing in double precision is the exact sizing rule.** For every load factor, clamped, and
every count a machine word holds, the slots the code computes with double-precision quotient,
product, floor and ceiling are those of `CompactCollections.LoadFactor.tableCapacity`, and so is
the overflow. -/
theorem tableCapacityDouble_eq (b : UInt32) {e : Nat} (he : e < Capacity.wordLimit) :
    (clamp b).tableCapacityDouble e = (clamp b).tableCapacity e := by
  rcases neededDouble_eq_or b he with hsame | ⟨hneed, hover⟩
  · by_cases hover : maxCapacity ≤ (clamp b).ceilDiv e
    · simp only [tableCapacityDouble, tableCapacity, hsame, if_pos hover]
      rfl
    · simp only [tableCapacityDouble, tableCapacity, hsame, if_neg hover]
      cases hp : Capacity.nextPowerOfTwo (max ((clamp b).ceilDiv e + 1) 4) with
      | error err => rfl
      | ok c =>
        -- the capacity the power-of-two rounding gives is a power of two a word holds
        obtain ⟨hpow, -, hle⟩ := Capacity.nextPowerOfTwo_spec hp
        have hword : c < Capacity.wordLimit := lt_of_le_of_lt hle (by decide)
        simp only [bind, Except.bind, thresholdDouble_eq b hpow hword]
  · rw [tableCapacity_of_le hover]
    simp only [tableCapacityDouble, if_pos hneed]
    rfl

-- `0.01` as a single lies a little below one hundredth: a thousand entries need one slot more
-- than a hundred thousand, and get `2 ^ 17`.
example : (clamp 0x3C23D70A).neededDouble 1000 = 100001 ∧
    (clamp 0x3C23D70A).tableCapacityDouble 1000 = .ok 131072 := by
  decide

end CompactCollections.LoadFactor
