import CompactCollections.Capacity
/-!
# Sizing

The sizes the sizing rules give: `CompactCollections.Capacity.nextPowerOfTwo` picks a power of two
at least the request and at most `CompactCollections.maxCapacity`, which is what lets a table or a
ring buffer reduce a position by a mask: for a power of two, the mask is the remainder
(`CompactCollections.Capacity.wrap_eq_mod`).
-/

namespace CompactCollections.Capacity

/-- The power of two the sizing rule picks is one, and it is at least the request. -/
theorem powerOfTwoAtLeast_spec (n : Nat) :
    (powerOfTwoAtLeast n).isPowerOfTwo ∧ n ≤ powerOfTwoAtLeast n := by
  unfold powerOfTwoAtLeast
  split
  · exact ⟨⟨0, rfl⟩, by omega⟩
  · rw [Nat.one_shiftLeft]
    have hlt := @Nat.lt_log2_self (n - 1)
    exact ⟨⟨_, rfl⟩, by omega⟩

/-- **Wrapping by the mask is reducing**: for a power-of-two size, the bits of a position under
`size - 1` are the position modulo the size. -/
theorem wrap_eq_mod {size : Nat} (h : size.isPowerOfTwo) (x : Nat) : wrap x size = x % size := by
  obtain ⟨k, rfl⟩ := h
  exact Nat.and_two_pow_sub_one_eq_mod x k

/-- A size the sizing rule gives is a power of two, at least the request and at most
`maxCapacity`. -/
theorem nextPowerOfTwo_spec {n p : Nat} (h : nextPowerOfTwo n = .ok p) :
    p.isPowerOfTwo ∧ n ≤ p ∧ p ≤ maxCapacity := by
  unfold nextPowerOfTwo at h
  simp only at h
  split at h
  · cases h
    exact ⟨(powerOfTwoAtLeast_spec n).1, (powerOfTwoAtLeast_spec n).2, ‹_›⟩
  · cases h

/-- The sizing rule gives the power of two at or above the request exactly when it is at most
`maxCapacity`. -/
theorem nextPowerOfTwo_eq_ok_iff {n p : Nat} :
    nextPowerOfTwo n = .ok p ↔ p = powerOfTwoAtLeast n ∧ powerOfTwoAtLeast n ≤ maxCapacity := by
  unfold nextPowerOfTwo
  simp only
  split
  · rename_i hle
    constructor
    · intro h
      cases h
      exact ⟨rfl, hle⟩
    · rintro ⟨rfl, -⟩
      rfl
  · rename_i hgt
    constructor
    · intro h
      cases h
    · rintro ⟨-, hle⟩
      exact absurd hle hgt

/-! ### Growth and machine-word sums -/

/-- The two limits as numbers, for arithmetic. -/
theorem wordLimit_eq : wordLimit = 18446744073709551616 := rfl

theorem maxCapacity_le_wordLimit : maxCapacity ≤ wordLimit := by decide

theorem maxCapacity_eq : maxCapacity = 1073741824 := rfl

theorem wordSum_of_lt {n k : Nat} (h : n + k < wordLimit) : wordSum n k = .ok (n + k) :=
  if_neg (Nat.not_le.mpr h)

theorem wordSum_of_le {n k : Nat} (h : wordLimit ≤ n + k) :
    wordSum n k = .error (.aborted .wordOverflow) :=
  if_pos h

theorem grow_of_lt {c r : Nat} (h : maxCapacity < r) : grow c r = .error (.capacityOverflow r) :=
  if_pos h

/-- A growth the sizing rule allows gives at least the request and at most `maxCapacity`. -/
theorem grow_of_le {c r : Nat} (h : r ≤ maxCapacity) :
    ∃ g, grow c r = .ok g ∧ r ≤ g ∧ g ≤ maxCapacity := by
  refine ⟨_, if_neg (Nat.not_lt.mpr h), ?_, ?_⟩
  · omega
  · rw [maxCapacity_eq] at h ⊢
    omega

/-- Storage after a growth never exceeds `maxCapacity`. -/
theorem le_maxCapacity_of_grow {c r g : Nat} (h : grow c r = .ok g) : g ≤ maxCapacity := by
  by_cases hr : r ≤ maxCapacity
  · obtain ⟨g', hg', -, hle⟩ := grow_of_le (c := c) hr
    rw [hg'] at h
    cases h
    exact hle
  · rw [grow_of_lt (Nat.lt_of_not_le hr)] at h
    cases h

end CompactCollections.Capacity
