/-!
# The nearest position where a test holds

Two bounded searches over the natural numbers, against which the word scans of the bit lists
and the byte sets are proved: the least position from a start, among a given number of
positions, where a test holds; and the greatest position at or below a bound where it holds.

They are scans of a range of positions, the forward one from its start up, the backward one
from its bound down (`CompactCollections.Search.firstFrom_eq_find?`,
`CompactCollections.Search.lastUpTo_eq_find?`). From that each finds the nearest position where
its test holds: the least at or after the start among the positions it may look at, or the
greatest at or below the bound, and `none` exactly when there is no such position. A search
looks at nothing but its test on those positions, so two tests that agree there give the same
answer.
-/

namespace CompactCollections.Search

/-- The least position from `i` on, among the next `count`, where `p` holds. -/
def firstFrom (p : Nat → Bool) (i : Nat) : (count : Nat) → Option Nat
  | 0 => none
  | count + 1 => if p i then some i else firstFrom p (i + 1) count

/-- The greatest position at or below `i` where `p` holds. -/
def lastUpTo (p : Nat → Bool) : Nat → Option Nat
  | 0 => if p 0 then some 0 else none
  | i + 1 => if p (i + 1) then some (i + 1) else lastUpTo p i

variable {p p' : Nat → Bool} {i count q : Nat}

/-- The forward search is a scan of its positions from the start up. -/
theorem firstFrom_eq_find? (p : Nat → Bool) (i count : Nat) :
    firstFrom p i count = (List.range' i count).find? p := by
  induction count generalizing i with
  | zero => rfl
  | succ count ih =>
    rw [firstFrom, List.range'_succ, List.find?_cons, ih]
    cases p i <;> rfl

/-- The backward search is a scan of the positions from its bound down. -/
theorem lastUpTo_eq_find? (p : Nat → Bool) (i : Nat) :
    lastUpTo p i = (List.range (i + 1)).reverse.find? p := by
  induction i with
  | zero =>
    rw [lastUpTo, Nat.zero_add, List.range_one, List.reverse_singleton, List.find?_cons,
      List.find?_nil]
    cases p 0 <;> rfl
  | succ i ih =>
    rw [lastUpTo, List.range_succ, List.reverse_append, List.reverse_singleton,
      List.singleton_append, List.find?_cons, ih]
    cases p (i + 1) <;> rfl

/-- **The forward search finds the least position from its start**, among those it may look
at, where the test holds. -/
theorem firstFrom_eq_some_iff : firstFrom p i count = some q ↔
    i ≤ q ∧ q < i + count ∧ p q = true ∧ ∀ r, i ≤ r → r < q → p r = false := by
  rw [firstFrom_eq_find?, List.find?_range'_eq_some, List.mem_range'_1]
  simp only [Bool.not_eq_eq_eq_not, Bool.not_true]
  constructor
  · rintro ⟨hq, ⟨hlo, hhi⟩, hmin⟩
    exact ⟨hlo, hhi, hq, hmin⟩
  · rintro ⟨hlo, hhi, hq, hmin⟩
    exact ⟨hq, ⟨hlo, hhi⟩, hmin⟩

/-- The forward search finds nothing exactly when the test fails on every position it may look
at. -/
theorem firstFrom_eq_none_iff :
    firstFrom p i count = none ↔ ∀ r, i ≤ r → r < i + count → p r = false := by
  rw [firstFrom_eq_find?, List.find?_range'_eq_none]
  simp

/-- **The backward search finds the greatest position at or below its bound** where the test
holds. -/
theorem lastUpTo_eq_some_iff :
    lastUpTo p i = some q ↔ q ≤ i ∧ p q = true ∧ ∀ r, q < r → r ≤ i → p r = false := by
  rw [lastUpTo_eq_find?, List.find?_eq_some_iff_append]
  constructor
  · rintro ⟨hq, as, bs, hsplit, hbefore⟩
    -- the positions scanned before `q` are those above it
    have hmem : q ∈ (List.range (i + 1)).reverse := by rw [hsplit]; simp
    have hq' : q ≤ i := by simpa [Nat.lt_succ_iff] using hmem
    refine ⟨hq', hq, fun r hqr hri => ?_⟩
    have hdesc : ((List.range (i + 1)).reverse).Pairwise (· > ·) := by
      simpa [List.pairwise_reverse] using List.pairwise_lt_range
    have hr : r ∈ (List.range (i + 1)).reverse := by simp; omega
    rw [hsplit] at hdesc hr
    rcases List.mem_append.mp hr with hra | hrb
    · simpa using hbefore r hra
    · -- a position after `q` in the scan is below it
      rcases List.mem_cons.mp hrb with rfl | hrb'
      · omega
      · have := List.rel_of_pairwise_cons (List.pairwise_append.mp hdesc).2.1 hrb'
        omega
  · rintro ⟨hq', hq, hmax⟩
    -- the scan meets the positions above `q` first, then `q`
    have hsplit : List.range (i + 1) = List.range q ++ q :: List.range' (q + 1) (i - q) := by
      rw [List.range_eq_range', List.range_eq_range', show i + 1 = q + (i - q + 1) by omega,
        ← @List.range'_append 0 q (i - q + 1) 1, List.range'_succ]
      simp
    refine ⟨hq, (List.range' (q + 1) (i - q)).reverse, (List.range q).reverse,
      by simp [hsplit], fun r hr => ?_⟩
    have hr' := List.mem_range'_1.mp (List.mem_reverse.mp hr)
    simp [hmax r (by omega) (by omega)]

/-- The backward search finds nothing exactly when the test fails at every position at or below
its bound. -/
theorem lastUpTo_eq_none_iff : lastUpTo p i = none ↔ ∀ r, r ≤ i → p r = false := by
  rw [lastUpTo_eq_find?, List.find?_eq_none]
  simp only [List.mem_reverse, List.mem_range, Nat.lt_add_one_iff, Bool.not_eq_true]

/-- A forward search reads its test only on the positions it may look at. -/
theorem firstFrom_congr (h : ∀ r, i ≤ r → r < i + count → p r = p' r) :
    firstFrom p i count = firstFrom p' i count := by
  induction count generalizing i with
  | zero => rfl
  | succ count ih =>
    rw [firstFrom, firstFrom, h i (Nat.le_refl i) (by omega),
      ih fun r h₁ h₂ => h r (by omega) (by omega)]

/-- A backward search reads its test only at or below its bound. -/
theorem lastUpTo_congr (h : ∀ r, r ≤ i → p r = p' r) : lastUpTo p i = lastUpTo p' i := by
  induction i with
  | zero => rw [lastUpTo, lastUpTo, h 0 (Nat.le_refl 0)]
  | succ i ih =>
    rw [lastUpTo, lastUpTo, h (i + 1) (Nat.le_refl _), ih fun r hr => h r (by omega)]

/-- A forward search passes over positions where its test fails. -/
theorem firstFrom_skip {a b : Nat} (h : ∀ r, i ≤ r → r < i + a → p r = false) :
    firstFrom p i (a + b) = firstFrom p (i + a) b := by
  induction a generalizing i with
  | zero => rw [Nat.zero_add, Nat.add_zero]
  | succ a ih =>
    rw [show a + 1 + b = a + b + 1 by omega, firstFrom, h i (Nat.le_refl i) (by omega),
      ih fun r h₁ h₂ => h r (by omega) (by omega), show i + 1 + a = i + (a + 1) by omega]
    rfl

/-- A backward search passes over positions where its test fails. -/
theorem lastUpTo_skip {a : Nat} (h : ∀ r, i < r → r ≤ i + a → p r = false) :
    lastUpTo p (i + a) = lastUpTo p i := by
  induction a with
  | zero => rfl
  | succ a ih =>
    rw [← Nat.add_assoc, lastUpTo, h (i + a + 1) (by omega) (by omega),
      ih fun r h₁ h₂ => h r h₁ (by omega)]
    rfl

/-- A forward search cut back to its first `a` positions is the search over those: whatever it
finds further on is cut off. -/
theorem filter_firstFrom_add (a b : Nat) :
    (firstFrom p i (a + b)).filter (· < i + a) = firstFrom p i a := by
  induction a generalizing i with
  | zero =>
    rw [Nat.zero_add, Nat.add_zero]
    cases hfound : firstFrom p i b with
    | none => rfl
    | some q =>
      -- what the search finds lies at or after its start
      have hiq := (firstFrom_eq_some_iff.mp hfound).1
      simp [Option.filter_some, show ¬q < i by omega]
      rfl
  | succ a ih =>
    rw [show a + 1 + b = a + b + 1 by omega, firstFrom, firstFrom]
    cases p i
    · rw [if_neg Bool.false_ne_true, if_neg Bool.false_ne_true, ← ih,
        show i + (a + 1) = i + 1 + a by omega]
    · simp

/-- The positions of a range from `i` on where a test holds, when `q` is the first of them. -/
theorem filter_range'_of_first {f : Nat → Bool} {i q n : Nat} (hiq : i ≤ q) (hq : q < i + n)
    (hfq : f q = true) (hbefore : ∀ r, i ≤ r → r < q → f r = false) :
    (List.range' i n).filter f = q :: (List.range' (q + 1) (i + n - (q + 1))).filter f := by
  have hsplit : List.range' i n =
      List.range' i (q - i) ++ q :: List.range' (q + 1) (i + n - (q + 1)) := by
    have h := @List.range'_append_1 i (q - i) (i + n - (q + 1) + 1)
    rw [show i + (q - i) = q by omega, show q - i + (i + n - (q + 1) + 1) = n by omega,
      List.range'_succ] at h
    exact h.symm
  -- the positions before `q` all fail the test
  have hnone : (List.range' i (q - i)).filter f = [] := List.filter_eq_nil_iff.mpr fun r hr => by
    have hr' := List.mem_range'_1.mp hr
    simp [hbefore r hr'.1 (by omega)]
  rw [hsplit, List.filter_append, hnone, List.filter_cons, hfq]
  rfl

end CompactCollections.Search
