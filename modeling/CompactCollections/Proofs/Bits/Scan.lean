import CompactCollections.Proofs.Bits.Count
import CompactCollections.Proofs.Search
/-!
# Scanning words for the nearest bit

The byte sets and the bit lists find their nearest members a word at a time: the word holding
the start, masked to the side still to look at, then whole words, until one has a bit left,
whose lowest or highest set bit is the answer. A word seen this way shows, bit by bit, a test
on the stream positions it covers, and each step of such a scan is a step of the searches of
`CompactCollections.Search`:

* a masked word with a bit left holds the first, or the last, position where the test holds,
  at its trailing or its leading zeros (`CompactCollections.Stream.firstFrom_of_ne_zero`,
  `CompactCollections.Stream.lastUpTo_of_ne_zero`);
* a masked word that is zero holds none of them
  (`CompactCollections.Stream.eq_false_of_masked_eq_zero`), and the scan passes on to the next
  word.
-/

namespace CompactCollections.Stream

/-! ### The lowest and the highest set bit of a word -/

section Zeros

variable {w : UInt64} {i : Nat}

theorem toBitVec_ne_zero (hw : w ≠ 0) : w.toBitVec ≠ 0#64 := fun h =>
  hw (UInt64.toBitVec_inj.mp (by rw [h]; rfl))

/-- A word that is not zero has its bit `trailingZeros` set. -/
theorem bit_trailingZeros (hw : w ≠ 0) : bit w (trailingZeros w) = true :=
  BitVec.getLsbD_true_ctz_of_ne_zero (toBitVec_ne_zero hw)

/-- The bits below `trailingZeros` are clear. -/
theorem bit_of_lt_trailingZeros (hi : i < trailingZeros w) : bit w i = false :=
  BitVec.getLsbD_false_of_lt_ctz hi

theorem trailingZeros_lt (hw : w ≠ 0) : trailingZeros w < 64 := by
  have hlt := (BitVec.ctz_lt_iff_ne_zero (x := w.toBitVec)).mpr (toBitVec_ne_zero hw)
  rw [BitVec.lt_def] at hlt
  unfold trailingZeros
  simpa using hlt

theorem leadingZeros_lt (hw : w ≠ 0) : leadingZeros w < 64 := by
  have hlt := (BitVec.clz_lt_iff_ne_zero (x := w.toBitVec)).mpr (toBitVec_ne_zero hw)
  rw [BitVec.lt_def] at hlt
  unfold leadingZeros
  simpa using hlt

/-- A word that is not zero has its bit `63 - leadingZeros` set. -/
theorem bit_leadingZeros (hw : w ≠ 0) : bit w (63 - leadingZeros w) = true :=
  BitVec.getLsbD_true_clz_of_ne_zero (by decide) (toBitVec_ne_zero hw)

/-- The bits above `63 - leadingZeros` are clear. -/
theorem bit_of_gt_leadingZeros (hw : w ≠ 0) (hi : 63 - leadingZeros w < i) : bit w i = false := by
  have hlz := leadingZeros_lt hw
  have hclz : leadingZeros w = (w.toBitVec.clzAuxRec 63).toNat := rfl
  have hclear := BitVec.getLsbD_false_of_clzAuxRec (x := w.toBitVec) (n := 63)
    (fun i hi => BitVec.getLsbD_of_ge _ _ (by omega)) (i - (64 - leadingZeros w))
  rw [← hclz, show 64 - leadingZeros w + (i - (64 - leadingZeros w)) = i by omega] at hclear
  exact hclear

end Zeros

/-! ### One word of a scan

A word `bits` shows the test `p` on the positions `64 * w + i` of word `w` that the scan still
has to look at, and is clear elsewhere. -/

section Word

variable {p : Nat → Bool} {w j count : Nat} {bits : UInt64}

/-- A masked word that is zero shows the test failing at every position it looks at. -/
theorem eq_false_of_masked_eq_zero {keep : Nat → Bool}
    (hbits : ∀ i < 64, bit bits i = (keep i && p (64 * w + i))) (hzero : bits = 0) {r : Nat}
    (hr : 64 * w ≤ r) (hr' : r < 64 * w + 64) (hkeep : keep (r - 64 * w) = true) :
    p r = false := by
  have hclear := hbits (r - 64 * w) (by omega)
  rw [hzero, bit_zero, hkeep, Bool.true_and, show 64 * w + (r - 64 * w) = r by omega] at hclear
  exact hclear.symm

/-- A word showing the test from bit `j` on, with a bit left, holds the first position from
`64 * w + j` where the test holds: its lowest set bit. -/
theorem firstFrom_of_ne_zero
    (hbits : ∀ i < 64, bit bits i = (decide (j ≤ i) && p (64 * w + i))) (hne : bits ≠ 0)
    (hcount : 64 - j ≤ count) :
    Search.firstFrom p (64 * w + j) count = some (64 * w + trailingZeros bits) := by
  have htz := trailingZeros_lt hne
  have hset := bit_trailingZeros hne
  rw [hbits _ htz, Bool.and_eq_true, decide_eq_true_iff] at hset
  rw [Search.firstFrom_eq_some_iff]
  refine ⟨by omega, by omega, hset.2, fun r hr hr' => ?_⟩
  -- a position before the lowest set bit is a clear bit of the masked word
  have hlow := bit_of_lt_trailingZeros (w := bits) (i := r - 64 * w) (by omega)
  rw [hbits _ (by omega), show 64 * w + (r - 64 * w) = r by omega] at hlow
  simpa [show j ≤ r - 64 * w by omega] using hlow

/-- A word showing the test up to bit `j`, with a bit left, holds the last position up to
`64 * w + j` where the test holds: its highest set bit. -/
theorem lastUpTo_of_ne_zero (hj : j < 64)
    (hbits : ∀ i < 64, bit bits i = (decide (i ≤ j) && p (64 * w + i))) (hne : bits ≠ 0) :
    Search.lastUpTo p (64 * w + j) = some (64 * w + (63 - leadingZeros bits)) := by
  have hlz := leadingZeros_lt hne
  have hset := bit_leadingZeros hne
  rw [hbits _ (by omega), Bool.and_eq_true, decide_eq_true_iff] at hset
  rw [Search.lastUpTo_eq_some_iff]
  refine ⟨by omega, hset.2, fun r hr hr' => ?_⟩
  -- a position after the highest set bit is a clear bit of the masked word
  have hhigh := bit_of_gt_leadingZeros (w := bits) (i := r - 64 * w) hne (by omega)
  rw [hbits _ (by omega), show 64 * w + (r - 64 * w) = r by omega] at hhigh
  simpa [show r - 64 * w ≤ j by omega] using hhigh

end Word

end CompactCollections.Stream
