import CompactCollections.Proofs.Table.Invariant
/-!
# The size a table is built for

A table built for `e` entries at load factor `lf` gets `lf.tableCapacity e` slots. The code
computes it in two moves – the power of two above `⌈e / lf⌉` (at least four), doubled once more
when the threshold of that size would be reached by `e` entries – and refuses a size beyond
`CompactCollections.maxCapacity`. The two moves and the two refusals combine into one law
(`CompactCollections.LoadFactor.tableCapacity_cases`): the size is **the least power of two, of
at least four slots, whose threshold exceeds `e`** (`CompactCollections.LoadFactor.LeastSize`),
and the build is refused exactly when that power exceeds `maxCapacity`.

The law holds for every load factor strictly between zero and one
(`CompactCollections.LoadFactor.Fraction`), which every clamped load factor is: the threshold of
`p` slots exceeds `e ≥ 1` exactly when `(e + 1) · 2 ^ s ≤ p · m` and `e + 1 < p`, so a power of
two with that threshold is above `⌈e / lf⌉`, and above it the floor `⌊p · lf⌋` is at least `e`;
doubling then gives at least `2e ≥ e + 1`.
-/

namespace CompactCollections

namespace Capacity

/-- The power the sizing rule picks is below every power of two at or above the request. -/
theorem powerOfTwoAtLeast_le {n p : Nat} (hp : p.isPowerOfTwo) (hn : n ≤ p) :
    powerOfTwoAtLeast n ≤ p := by
  obtain ⟨k, rfl⟩ := hp
  unfold powerOfTwoAtLeast
  split
  · exact Nat.one_le_two_pow
  · rw [Nat.one_shiftLeft]
    have hlog : (n - 1).log2 < k := (Nat.log2_lt (by omega)).mpr (by omega)
    exact Nat.pow_le_pow_right (by omega) hlog

/-- A power of two is its own size. -/
theorem powerOfTwoAtLeast_self {p : Nat} (hp : p.isPowerOfTwo) : powerOfTwoAtLeast p = p :=
  Nat.le_antisymm (powerOfTwoAtLeast_le hp (Nat.le_refl p)) (powerOfTwoAtLeast_spec p).2

/-- Of two powers of two, the larger is at least twice the smaller. -/
theorem two_mul_le_of_lt {p q : Nat} (hp : p.isPowerOfTwo) (hq : q.isPowerOfTwo) (h : q < p) :
    2 * q ≤ p := by
  obtain ⟨a, rfl⟩ := hp
  obtain ⟨b, rfl⟩ := hq
  have hba : b < a := (Nat.pow_lt_pow_iff_right (by omega)).mp h
  calc 2 * 2 ^ b = 2 ^ (b + 1) := by rw [Nat.pow_succ, Nat.mul_comm]
    _ ≤ 2 ^ a := Nat.pow_le_pow_right (by omega) hba

theorem maxCapacity_isPowerOfTwo : maxCapacity.isPowerOfTwo :=
  ⟨30, by rw [maxCapacity, Nat.one_shiftLeft]⟩

end Capacity

namespace LoadFactor

/-! ### Clamped load factors -/

/-- **A load factor strictly between zero and one**: its value `m / 2 ^ s` has `0 < m < 2 ^ s`. -/
structure Fraction (lf : LoadFactor) : Prop where
  significand_pos : 0 < lf.significand
  significand_lt : lf.significand < 1 <<< lf.scale

/-- A clamped pattern lies between the patterns of `0.01` and `0.99`, one half included. -/
theorem clamp_bits (b : UInt32) :
    leastBits.toNat ≤ (clamp b).bits.toNat ∧ (clamp b).bits.toNat ≤ mostBits.toNat := by
  unfold clamp
  split
  · decide
  split
  · decide
  split
  · decide
  split
  · decide
  · rename_i hlow hhigh
    exact ⟨Nat.le_of_not_lt (UInt32.lt_iff_toNat_lt.not.mp hlow),
      Nat.le_of_not_lt (UInt32.lt_iff_toNat_lt.not.mp hhigh)⟩

/-- A clamped load factor has a 24-bit significand. -/
theorem significand_clamp (b : UInt32) :
    1 <<< 23 ≤ (clamp b).significand ∧ (clamp b).significand < 1 <<< 24 := by
  rw [significand, UInt32.toNat_or, UInt32.toNat_and]
  refine ⟨Nat.right_le_or, ?_⟩
  rw [Nat.one_shiftLeft]
  exact Nat.or_lt_two_pow (Nat.lt_of_le_of_lt Nat.and_le_right (by decide)) (by decide)

/-- The exponent field of a clamped pattern lies in `[120, 126]`: its patterns run from `0.01`,
in the binade `[2 ^ -7, 2 ^ -6)`, to `0.99`, in `[2 ^ -1, 1)`. -/
theorem exponent_clamp (b : UInt32) :
    120 ≤ ((clamp b).bits >>> 23).toNat ∧ ((clamp b).bits >>> 23).toNat ≤ 126 := by
  obtain ⟨hlow, hhigh⟩ := clamp_bits b
  rw [UInt32.toNat_shiftRight, Nat.shiftRight_eq_div_pow]
  have hl : leastBits.toNat = 1008981770 := rfl
  have hh : mostBits.toNat = 1065185444 := rfl
  have h23 : (23 : UInt32).toNat % 32 = 23 := rfl
  rw [h23]
  omega

/-- A clamped load factor has its scale between 24 and 30. -/
theorem scale_clamp (b : UInt32) : 24 ≤ (clamp b).scale ∧ (clamp b).scale ≤ 30 := by
  have := exponent_clamp b
  rw [scale]
  omega

/-- Every clamped load factor is a fraction: its significand has 24 bits and its scale is at
least 24. -/
theorem fraction_clamp (b : UInt32) : (clamp b).Fraction := by
  have hm := significand_clamp b
  refine ⟨Nat.lt_of_lt_of_le (by decide) hm.1, Nat.lt_of_lt_of_le hm.2 ?_⟩
  rw [Nat.one_shiftLeft, Nat.one_shiftLeft]
  exact Nat.pow_le_pow_right (by omega) (scale_clamp b).1

/-! ### Floors and ceilings -/

variable {lf : LoadFactor} {e n p c : Nat}

theorem floorMul_eq (lf : LoadFactor) (n : Nat) :
    lf.floorMul n = n * lf.significand / (1 <<< lf.scale) := by
  rw [floorMul, Nat.shiftRight_eq_div_pow, Nat.one_shiftLeft]

theorem ceilDiv_eq (lf : LoadFactor) (e : Nat) :
    lf.ceilDiv e = (e * (1 <<< lf.scale) + lf.significand - 1) / lf.significand := by
  rw [ceilDiv, Nat.shiftLeft_eq, Nat.one_shiftLeft]

theorem one_shiftLeft_pos (s : Nat) : 0 < 1 <<< s := by
  rw [Nat.one_shiftLeft]
  exact Nat.two_pow_pos s

/-- `e < ⌊n · lf⌋` exactly when `(e + 1) · 2 ^ s ≤ n · m`. -/
theorem lt_floorMul_iff : e < lf.floorMul n ↔ (e + 1) * (1 <<< lf.scale) ≤ n * lf.significand := by
  rw [floorMul_eq, Nat.lt_iff_add_one_le, Nat.le_div_iff_mul_le (one_shiftLeft_pos _)]

theorem le_floorMul_iff : e ≤ lf.floorMul n ↔ e * (1 <<< lf.scale) ≤ n * lf.significand := by
  rw [floorMul_eq, Nat.le_div_iff_mul_le (one_shiftLeft_pos _)]

section Fraction

variable (hf : lf.Fraction)
include hf

/-- `⌈e / lf⌉ ≤ k` exactly when `e · 2 ^ s ≤ k · m`. -/
theorem ceilDiv_le_iff {k : Nat} : lf.ceilDiv e ≤ k ↔ e * (1 <<< lf.scale) ≤ k * lf.significand := by
  have hm := hf.significand_pos
  rw [ceilDiv_eq, Nat.div_le_iff_le_mul_add_pred hm, Nat.mul_comm lf.significand k]
  omega

/-- A positive count needs more slots than it has entries, the load factor being below one. -/
theorem lt_ceilDiv (he : 0 < e) : e < lf.ceilDiv e := by
  have hlt : e * lf.significand < e * (1 <<< lf.scale) :=
    Nat.mul_lt_mul_of_pos_left hf.significand_lt he
  have hle := (ceilDiv_le_iff hf (e := e) (k := e)).not.mpr (by omega)
  omega

theorem ceilDiv_zero : lf.ceilDiv 0 = 0 := by
  have hm := hf.significand_pos
  rw [ceilDiv_eq, Nat.zero_mul, Nat.zero_add]
  exact Nat.div_eq_of_lt (by omega)

omit hf in
/-- The threshold of `p` slots exceeds `e` exactly when `⌊p · lf⌋` does (or `e` is zero) and a
slot beyond `e + 1` is left. -/
theorem lt_threshold_iff : e < lf.threshold p ↔ (e = 0 ∨ e < lf.floorMul p) ∧ e + 1 < p := by
  unfold threshold
  omega

/-- **A size whose threshold exceeds `e` is above `⌈e / lf⌉`.** -/
theorem ceilDiv_lt_of_lt_threshold (h : e < lf.threshold p) : lf.ceilDiv e < p := by
  obtain ⟨hfloor, hp⟩ := lt_threshold_iff.mp h
  rcases hfloor with rfl | hfloor
  · rw [ceilDiv_zero hf]
    omega
  · -- `(e + 1) · 2 ^ s ≤ p · m` and `m < 2 ^ s` leave `e · 2 ^ s ≤ (p - 1) · m`
    have hmul := lt_floorMul_iff.mp hfloor
    have hlt := hf.significand_lt
    have hle : e * (1 <<< lf.scale) ≤ (p - 1) * lf.significand := by
      rw [Nat.sub_one_mul, Nat.add_one_mul] at *
      omega
    have := (ceilDiv_le_iff hf).mpr hle
    omega

/-- Above `⌈e / lf⌉` the floor `⌊p · lf⌋` is at least `e`. -/
theorem le_floorMul_of_ceilDiv_lt (h : lf.ceilDiv e < p) : e ≤ lf.floorMul p := by
  have hle := (ceilDiv_le_iff hf (e := e) (k := p - 1)).mp (by omega)
  exact le_floorMul_iff.mpr (Nat.le_trans hle (Nat.mul_le_mul_right _ (by omega)))

/-- **Doubling once suffices**: a size above `⌈e / lf⌉`, of at least four slots, whose threshold
does not exceed `e`, has a double whose threshold does. -/
theorem lt_threshold_two_mul (hc : lf.ceilDiv e < c) (hfour : 4 ≤ c) (hth : lf.threshold c ≤ e) :
    e < lf.threshold (2 * c) := by
  have hfloor := le_floorMul_of_ceilDiv_lt hf hc
  -- `e` is positive: every size of at least two slots has a positive threshold
  have he : 0 < e := by
    unfold threshold at hth
    omega
  have hroom := lt_ceilDiv hf he
  -- the threshold of `c` stopped at `⌊c · lf⌋ = e`, and the floor at least doubles
  have hfloor_eq : lf.floorMul c = e := by
    unfold threshold at hth
    omega
  have hdouble : 2 * lf.floorMul c ≤ lf.floorMul (2 * c) := by
    rw [floorMul_eq, floorMul_eq, Nat.mul_assoc]
    exact Nat.mul_div_le_mul_div_assoc 2 _ _
  exact lt_threshold_iff.mpr ⟨.inr (by omega), by omega⟩

end Fraction

/-- The threshold grows with the size. -/
theorem threshold_mono (h : p ≤ c) : lf.threshold p ≤ lf.threshold c := by
  have hfloor : lf.floorMul p ≤ lf.floorMul c := by
    rw [floorMul_eq, floorMul_eq]
    exact Nat.div_le_div_right (Nat.mul_le_mul_right _ h)
  unfold threshold
  omega

/-! ### The least size -/

/-- **The size a table needs for `e` entries**: the least power of two, of at least four slots,
whose threshold exceeds `e`. -/
structure LeastSize (lf : LoadFactor) (e c : Nat) : Prop where
  pow : c.isPowerOfTwo
  four_le : 4 ≤ c
  lt_threshold : e < lf.threshold c
  le_of_lt_threshold : ∀ {p : Nat}, p.isPowerOfTwo → 4 ≤ p → e < lf.threshold p → c ≤ p

theorem LeastSize.unique {c' : Nat} (h : LeastSize lf e c) (h' : LeastSize lf e c') : c = c' :=
  Nat.le_antisymm (h.le_of_lt_threshold h'.pow h'.four_le h'.lt_threshold)
    (h'.le_of_lt_threshold h.pow h.four_le h.lt_threshold)

/-- The code of the sizing rule once the need is below `maxCapacity`: the power of two above the
need, doubled when its threshold would be reached. -/
theorem tableCapacity_of_lt (h : lf.ceilDiv e < maxCapacity) :
    lf.tableCapacity e =
      if lf.threshold (Capacity.powerOfTwoAtLeast (max (lf.ceilDiv e + 1) 4)) ≤ e then
        Capacity.nextPowerOfTwo (Capacity.powerOfTwoAtLeast (max (lf.ceilDiv e + 1) 4) * 2)
      else .ok (Capacity.powerOfTwoAtLeast (max (lf.ceilDiv e + 1) 4)) := by
  have hbase : Capacity.powerOfTwoAtLeast (max (lf.ceilDiv e + 1) 4) ≤ maxCapacity :=
    Capacity.powerOfTwoAtLeast_le Capacity.maxCapacity_isPowerOfTwo
      (by rw [Capacity.maxCapacity_eq] at h ⊢; omega)
  simp only [tableCapacity, Capacity.nextPowerOfTwo, if_neg (Nat.not_le.mpr h), if_pos hbase]
  rfl

theorem tableCapacity_of_le (h : maxCapacity ≤ lf.ceilDiv e) :
    lf.tableCapacity e = .error (.capacityOverflow e) := by
  simp only [tableCapacity, if_pos h]
  rfl

/-- **The sizing law.** For a load factor strictly between zero and one, the least power of two
of at least four slots whose threshold exceeds `e` exists; the sizing rule gives it when it is at
most `maxCapacity`, and otherwise refuses, naming `e` or that power. -/
theorem tableCapacity_cases (hf : lf.Fraction) (e : Nat) :
    ∃ c, LeastSize lf e c ∧
      ((c ≤ maxCapacity ∧ lf.tableCapacity e = .ok c) ∨
        (maxCapacity < c ∧ (lf.tableCapacity e = .error (.capacityOverflow e) ∨
          lf.tableCapacity e = .error (.capacityOverflow c)))) := by
  -- the power of two above the need, and whether its threshold is reached
  have hbase_spec := Capacity.powerOfTwoAtLeast_spec (max (lf.ceilDiv e + 1) 4)
  generalize hb : Capacity.powerOfTwoAtLeast (max (lf.ceilDiv e + 1) 4) = b at hbase_spec
  obtain ⟨hbpow, hbge⟩ := hbase_spec
  -- every power of two whose threshold exceeds `e` is at least `b`
  have hb_le : ∀ {p : Nat}, p.isPowerOfTwo → 4 ≤ p → e < lf.threshold p → b ≤ p := by
    intro p hp hfour hth
    rw [← hb]
    exact Capacity.powerOfTwoAtLeast_le hp
      (Nat.max_le.mpr ⟨ceilDiv_lt_of_lt_threshold hf hth, hfour⟩)
  have hneed : lf.ceilDiv e < b := by omega
  by_cases hth : lf.threshold b ≤ e
  · -- the threshold of `b` is reached: the size is its double
    have hleast : LeastSize lf e (b * 2) :=
      ⟨Nat.isPowerOfTwo_mul_two_of_isPowerOfTwo hbpow, by omega,
        Nat.mul_comm b 2 ▸ lt_threshold_two_mul hf hneed (by omega) hth,
        fun hp hfour hpth => by
          have hbp := hb_le hp hfour hpth
          have hne : b ≠ _ := fun hbp' => absurd (hbp' ▸ hpth) (Nat.not_lt.mpr hth)
          have := Capacity.two_mul_le_of_lt hp hbpow (Nat.lt_of_le_of_ne hbp hne)
          omega⟩
    refine ⟨b * 2, hleast, ?_⟩
    by_cases hmax : lf.ceilDiv e < maxCapacity
    · rw [tableCapacity_of_lt hmax, hb, if_pos hth, Capacity.nextPowerOfTwo,
        Capacity.powerOfTwoAtLeast_self hleast.pow]
      by_cases hfit : b * 2 ≤ maxCapacity
      · exact .inl ⟨hfit, if_pos hfit⟩
      · exact .inr ⟨Nat.lt_of_not_le hfit, .inr (if_neg hfit)⟩
    · exact .inr ⟨by omega, .inl (tableCapacity_of_le (Nat.le_of_not_lt hmax))⟩
  · -- the threshold of `b` exceeds `e`: the size is `b`
    have hleast : LeastSize lf e b :=
      ⟨hbpow, by omega, Nat.lt_of_not_le hth, fun hp hfour hpth => hb_le hp hfour hpth⟩
    refine ⟨b, hleast, ?_⟩
    by_cases hmax : lf.ceilDiv e < maxCapacity
    · have hfit : b ≤ maxCapacity := by
        rw [← hb]
        exact Capacity.powerOfTwoAtLeast_le Capacity.maxCapacity_isPowerOfTwo
          (by rw [Capacity.maxCapacity_eq] at hmax ⊢; omega)
      rw [tableCapacity_of_lt hmax, hb, if_neg hth]
      exact .inl ⟨hfit, rfl⟩
    · exact .inr ⟨by omega, .inl (tableCapacity_of_le (Nat.le_of_not_lt hmax))⟩

/-- The sizing rule gives `c` exactly when `c` is the least size and fits. -/
theorem tableCapacity_eq_ok_iff (hf : lf.Fraction) :
    lf.tableCapacity e = .ok c ↔ LeastSize lf e c ∧ c ≤ maxCapacity := by
  obtain ⟨c', hleast, hok | ⟨hbig, herr | herr⟩⟩ := tableCapacity_cases hf e
  · rw [hok.2]
    constructor
    · intro h
      cases h
      exact ⟨hleast, hok.1⟩
    · rintro ⟨hc, -⟩
      rw [hleast.unique hc]
  all_goals
    rw [herr]
    refine ⟨fun h => (by cases h), fun h => ?_⟩
    obtain ⟨hc, hfit⟩ := h
    rw [hleast.unique hc] at hbig
    omega

end LoadFactor

end CompactCollections
