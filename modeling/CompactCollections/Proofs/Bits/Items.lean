import CompactCollections.Proofs.Bits.Stream
/-!
# The items of a packed list

A packed list is valid (`CompactCollections.PackedList.Valid`) when its width is in `1..=64`, its
default fits the width, and every stream bit at or beyond `len * width` is clear. Every writing
operation keeps a valid list valid, and this file says what each does to the items
(`CompactCollections.PackedList.read`), item by item:

* a write sets its own item to the value cut to the width, and no other
  (`CompactCollections.PackedList.read_write`);
* growing appends default items (`CompactCollections.PackedList.read_growTo`), which needs the
  clear bits when the default is zero, since then nothing is written;
* an insertion moves the later items up by one place, a removal moves them down, a truncation
  keeps the items below its length.

Item `i` is the field `[i * width, i * width + width)` of the stream, and
`CompactCollections.PackedList.field_eq_iff` says which field a position lies in.
-/

namespace CompactCollections.PackedList

open CompactCollections.Stream

/-! ### Fields -/

section Field

variable {w i j k n : Nat}

/-- Position `j * w + k` with `k < w` lies in field `i` exactly when `i = j`. -/
theorem field_eq_iff (hk : k < w) : (i * w ≤ j * w + k ∧ j * w + k < i * w + w) ↔ i = j := by
  constructor
  · rintro ⟨hlo, hhi⟩
    rcases Nat.lt_trichotomy i j with hij | hij | hij
    · have hle : (i + 1) * w ≤ j * w := Nat.mul_le_mul_right w hij
      rw [Nat.succ_mul] at hle
      omega
    · exact hij
    · have hle : (j + 1) * w ≤ i * w := Nat.mul_le_mul_right w hij
      rw [Nat.succ_mul] at hle
      omega
  · rintro rfl
    omega

/-- Fields lie below the length: field `j` of a list of `n` items ends by `n * w`. -/
theorem field_end_le (hj : j < n) : j * w + w ≤ n * w := by
  have hle : (j + 1) * w ≤ n * w := Nat.mul_le_mul_right w hj
  rwa [Nat.succ_mul] at hle

theorem field_ge (hj : n ≤ j) : n * w ≤ j * w + k :=
  Nat.le_add_right_of_le (Nat.mul_le_mul_right w hj)

/-- The field below field `n`, for `n` at least one. -/
theorem pred_mul_add (hn : 0 < n) : (n - 1) * w + w = n * w := by
  obtain ⟨m, rfl⟩ : ∃ m, n = m + 1 := ⟨n - 1, by omega⟩
  rw [Nat.add_sub_cancel, Nat.succ_mul]

end Field

/-! ### Valid lists -/

/-- **A valid packed list**: its width is in `1..=64`, its default fits the width, and every
stream bit from `len * width` on is clear. -/
structure Valid (l : PackedList) : Prop where
  width_pos : 1 ≤ l.width
  width_le : l.width ≤ 64
  default_bit : ∀ j, l.width ≤ j → bit l.default j = false
  clear_above : ∀ p, l.len * l.width ≤ p → testBit l.words p = false

variable {l : PackedList}

/-- An item has the stream bits of its field. -/
theorem bit_read (hw : l.width ≤ 64) (i j : Nat) :
    bit (l.read i) j = (decide (j < l.width) && testBit l.words (i * l.width + j)) :=
  Stream.bit_read hw l.words _ j

/-- Items with the same field bits are equal. -/
theorem read_eq_of_testBit {m : PackedList} (hw64 : l.width ≤ 64) (hw : m.width = l.width)
    {i i' : Nat}
    (hbits : ∀ k < l.width,
      testBit m.words (i' * l.width + k) = testBit l.words (i * l.width + k)) :
    m.read i' = l.read i := by
  refine eq_of_bit_eq fun k _ => ?_
  rw [bit_read hw64, bit_read (hw ▸ hw64), hw]
  by_cases hk : k < l.width
  · rw [hbits k hk]
  · simp [hk]

/-- An item fits the width: its bits from the width on are clear. -/
theorem bit_read_of_ge (h : l.Valid) {j : Nat} (hj : l.width ≤ j) (i : Nat) :
    bit (l.read i) j = false := by
  rw [bit_read h.width_le]
  simp [Nat.not_lt.mpr hj]

/-- The item of a field wholly at or beyond the length is zero. -/
theorem read_of_ge (h : l.Valid) {i : Nat} (hi : l.len ≤ i) : l.read i = 0 := by
  refine eq_of_bit_eq fun k _ => ?_
  rw [bit_read h.width_le, bit_zero, h.clear_above _ (field_ge hi)]
  simp

/-- The value `v` cut to the width of the list. -/
theorem bit_and_mask (hw : l.width ≤ 64) (v : UInt64) (j : Nat) :
    bit (v &&& l.mask) j = (decide (j < l.width) && bit v j) := by
  rw [bit_and, mask, bit_lowBits hw, Bool.and_comm]

/-- The default is a value of the width. -/
theorem default_and_mask (h : l.Valid) : l.default &&& l.mask = l.default := by
  refine eq_of_bit_eq fun j _ => ?_
  rw [bit_and_mask h.width_le]
  by_cases hj : j < l.width
  · simp [hj]
  · simp [hj, h.default_bit j (Nat.le_of_not_lt hj)]

/-- A list of the width and default of a valid one is valid when its bits past its own length
are clear: that is all an operation has to show. -/
theorem Valid.of_clear {m : PackedList} (h : l.Valid) (hw : m.width = l.width)
    (hd : m.default = l.default) (hclear : ∀ p, m.len * l.width ≤ p → testBit m.words p = false) :
    m.Valid where
  width_pos := hw ▸ h.width_pos
  width_le := hw ▸ h.width_le
  default_bit j hj := by
    rw [hd]
    exact h.default_bit j (hw ▸ hj)
  clear_above p hp := hclear p (hw ▸ hp)

/-- Validity carries over to a list of the same width, default and words and at least as many
items. -/
theorem Valid.of_words {m : PackedList} (h : l.Valid) (hw : m.width = l.width)
    (hd : m.default = l.default) (hws : m.words = l.words) (hn : l.len ≤ m.len) : m.Valid :=
  h.of_clear hw hd fun p hp => by
    rw [hws]
    exact h.clear_above p (Nat.le_trans (Nat.mul_le_mul_right _ hn) hp)

/-! ### Writing an item -/

/-- **A write sets its own item, cut to the width, and no other.** -/
theorem read_write (hw1 : 1 ≤ l.width) (hw : l.width ≤ 64) (i : Nat) (v : UInt64) (j : Nat) :
    (l.write i v).read j = if i = j then v &&& l.mask else l.read j := by
  refine eq_of_bit_eq fun k _ => ?_
  rw [bit_read (l := l.write i v) hw]
  show (decide (k < l.width) && testBit (Stream.write l.words (i * l.width) l.width v)
    (j * l.width + k)) = _
  rw [testBit_write hw1 hw]
  by_cases hk : k < l.width
  · by_cases hij : i = j
    · subst hij
      rw [if_pos ((field_eq_iff hk).mpr rfl), if_pos rfl, bit_and_mask hw,
        show i * l.width + k - i * l.width = k by omega]
    · rw [if_neg (fun hf => hij ((field_eq_iff hk).mp hf)), if_neg hij, bit_read hw]
  · by_cases hij : i = j <;> simp [hij, hk, bit_and_mask hw, bit_read hw]

/-- A write within the length keeps the list valid. -/
theorem Valid.write (h : l.Valid) {i : Nat} (hi : i < l.len) (v : UInt64) :
    (l.write i v).Valid :=
  h.of_clear rfl rfl fun p hp => by
    change l.len * l.width ≤ p at hp
    show testBit (Stream.write l.words (i * l.width) l.width v) p = false
    -- the field written ends by the length
    have hend := field_end_le (w := l.width) hi
    rw [testBit_write h.width_pos h.width_le, if_neg (by omega)]
    exact h.clear_above p hp

/-! ### Filling with the default -/

section Fill

variable {i c : Nat}

@[simp] theorem len_fill (l : PackedList) (i c : Nat) : (l.fill i c).len = l.len := by
  induction c generalizing l i with
  | zero => rfl
  | succ c ih => exact ih _ _

@[simp] theorem width_fill (l : PackedList) (i c : Nat) : (l.fill i c).width = l.width := by
  induction c generalizing l i with
  | zero => rfl
  | succ c ih => exact ih _ _

@[simp] theorem default_fill (l : PackedList) (i c : Nat) : (l.fill i c).default = l.default := by
  induction c generalizing l i with
  | zero => rfl
  | succ c ih => exact ih _ _

theorem Valid.fill (h : l.Valid) (hc : i + c ≤ l.len) : (l.fill i c).Valid := by
  induction c generalizing l i with
  | zero => exact h
  | succ c ih => exact ih (h.write (by omega) l.default) (show i + 1 + c ≤ l.len by omega)

/-- Filling sets the items `[i, i + c)` to the default and keeps the others. -/
theorem read_fill (h : l.Valid) (hc : i + c ≤ l.len) (j : Nat) :
    (l.fill i c).read j = if i ≤ j ∧ j < i + c then l.default else l.read j := by
  induction c generalizing l i with
  | zero => rw [if_neg (by omega)]; rfl
  | succ c ih =>
    show ((l.write i l.default).fill (i + 1) c).read j = _
    rw [ih (h.write (by omega) _) (show i + 1 + c ≤ l.len by omega), read_write h.width_pos h.width_le,
      default_and_mask h]
    by_cases hji : j = i
    · subst hji
      rw [if_neg (by omega), if_pos rfl, if_pos (by omega)]
    · have hcond : (i + 1 ≤ j ∧ j < i + 1 + c) ↔ (i ≤ j ∧ j < i + (c + 1)) := by omega
      simp only [hcond, if_neg (Ne.symm hji)]
      rfl

end Fill

/-! ### Opening a gap and closing a field -/

/-- The list with a gap opened at item `i`: the later items move up one place and the list
grows by one item. The gap keeps stale bits until it is written. -/
def openGap (l : PackedList) (i : Nat) : PackedList :=
  { l with words := Stream.shiftUp l.words (i * l.width) l.width ((l.len + 1) * l.width),
           len := l.len + 1 }

/-- **Opening a gap** keeps the items below it and moves the items from it on up one place. -/
theorem read_openGap (h : l.Valid) {i j : Nat} (hji : j ≠ i) (hj : j ≤ l.len) :
    (l.openGap i).read j = if j < i then l.read j else l.read (j - 1) := by
  by_cases hlt : j < i
  · rw [if_pos hlt]
    refine read_eq_of_testBit (m := l.openGap i) h.width_le rfl fun k hk => ?_
    have hend := field_end_le (w := l.width) hlt
    exact testBit_shiftUp_of_lt (by omega)
  · -- an item from the gap on is read `width` bits higher than before
    rw [if_neg hlt]
    refine read_eq_of_testBit (m := l.openGap i) h.width_le rfl fun k hk => ?_
    have hgap := field_end_le (w := l.width) (show i < j by omega)
    have hstop := field_end_le (w := l.width) (show j < l.len + 1 by omega)
    have hprev := pred_mul_add (w := l.width) (show 0 < j by omega)
    show testBit (Stream.shiftUp _ _ _ _) _ = _
    rw [testBit_shiftUp_of_le h.width_pos h.width_le (by omega) (by omega)]
    congr 1
    omega

theorem Valid.openGap (h : l.Valid) {i : Nat} (hi : i < l.len) : (l.openGap i).Valid :=
  h.of_clear rfl rfl fun p hp => by
    change (l.len + 1) * l.width ≤ p at hp
    show testBit (Stream.shiftUp _ _ _ _) p = false
    have hgap := field_end_le (w := l.width) (show i < l.len + 1 by omega)
    have hlen : l.len * l.width + l.width = (l.len + 1) * l.width := (Nat.succ_mul _ _).symm
    rw [testBit_shiftUp_of_clear h.width_pos h.width_le hgap
      (fun q hq => h.clear_above q (by omega)) (by omega), if_neg (by omega)]

/-- **Closing a field** keeps the items below it and moves the later items down one place. -/
theorem read_erase (h : l.Valid) {i j : Nat} (hi : i < l.len) (hj : j + 1 < l.len) :
    (l.erase i).read j = if j < i then l.read j else l.read (j + 1) := by
  have hw : (l.erase i).width = l.width := by rw [PackedList.erase, if_pos hi]
  have hws : (l.erase i).words =
      Stream.shiftDown l.words (i * l.width) l.width (l.len * l.width) := by
    rw [PackedList.erase, if_pos hi]
  by_cases hlt : j < i
  · rw [if_pos hlt]
    refine read_eq_of_testBit (m := l.erase i) h.width_le hw fun k hk => ?_
    have hend := field_end_le (w := l.width) hlt
    rw [hws, testBit_shiftDown_of_lt (by omega)]
  · -- an item from the closed field on is read `width` bits lower than before
    rw [if_neg hlt]
    refine read_eq_of_testBit (m := l.erase i) h.width_le hw fun k hk => ?_
    have hnext := field_end_le (w := l.width) (show j + 1 < l.len by omega)
    have hnext' : (j + 1) * l.width = j * l.width + l.width := Nat.succ_mul _ _
    have hfrom := Nat.mul_le_mul_right l.width (show i ≤ j by omega)
    rw [hws, testBit_shiftDown_of_le (by omega) (by omega)]
    congr 1
    omega

theorem Valid.erase (h : l.Valid) (i : Nat) : (l.erase i).Valid := by
  unfold PackedList.erase
  split
  · rename_i hi
    refine h.of_clear rfl rfl fun p hp => ?_
    change (l.len - 1) * l.width ≤ p at hp
    show testBit (Stream.shiftDown _ _ _ _) p = false
    have hend := field_end_le (w := l.width) hi
    have hlen := pred_mul_add (w := l.width) (show 0 < l.len by omega)
    have hfrom := Nat.mul_le_mul_right l.width (show i ≤ l.len - 1 by omega)
    rw [testBit_shiftDown_of_clear h.width_pos hend h.clear_above (by omega), if_neg (by omega)]
  · exact h

/-! ### Truncating, clearing and fitting -/

/-- Truncating keeps the items below the new length. -/
theorem read_truncate (h : l.Valid) {n j : Nat} (hj : j < n) :
    (l.truncate n).read j = l.read j := by
  refine read_eq_of_testBit (m := l.truncate n) h.width_le rfl fun k hk => ?_
  have hend := field_end_le (w := l.width) hj
  show testBit (Stream.clearRange _ _ _) _ = _
  rw [testBit_clearRange, if_neg (by omega)]

theorem Valid.truncate (h : l.Valid) (n : Nat) : (l.truncate n).Valid :=
  h.of_clear rfl rfl fun p hp => by
    change n * l.width ≤ p at hp
    show testBit (Stream.clearRange _ _ _) p = false
    rw [testBit_clearRange]
    split
    · rfl
    · exact h.clear_above p (by omega)

theorem Valid.clear (h : l.Valid) : l.clear.Valid :=
  h.of_clear rfl rfl fun p _ => testBit_empty p

/-- Fitting the storage keeps every item: the words it drops hold no item bits. -/
theorem read_fit (h : l.Valid) {j : Nat} (hj : j < l.len) : l.fit.read j = l.read j := by
  refine read_eq_of_testBit (m := l.fit) h.width_le rfl fun k hk => ?_
  have hend := field_end_le (w := l.width) hj
  show testBit (l.words.extract 0 _) _ = _
  rw [testBit_extract, wordsFor]
  simp [show j * l.width + k < 64 * ((l.len * l.width + 63) / 64) by omega]

theorem Valid.fit (h : l.Valid) : l.fit.Valid :=
  h.of_clear rfl rfl fun p hp => by
    show testBit (l.words.extract 0 _) p = false
    rw [testBit_extract, h.clear_above p hp, Bool.and_false]

end CompactCollections.PackedList
