import CompactCollections.Proofs.Bits.Count
import CompactCollections.Proofs.Bits.Items
/-!
# Items are fields of the stream

Item `i` of a packed list of width `w` is the field of stream bits `[i * w, (i + 1) * w)`,
wherever it falls against the 64-bit words: at the bottom of a word, in its middle, against its
top, or across two words (`CompactCollections.PackedList.accessesField`).

* A write keeps the words it was given and rewrites the word the field starts in, and the next
  word only when the field spills over into it; within them it sets exactly the field's bits,
  to the value mod `2 ^ w`.
* A read, from one word or from the two the field straddles, is the number whose binary digits
  are the field's bits.

Reading an item back after writing it therefore gives the value mod `2 ^ w`, and every other
item is as it was. Only the width and the words matter here: nothing asks the bits past the
last item to be clear.

Inserting and removing an item shift the later items by one field
(`CompactCollections.PackedList.shiftsItems`). With the stream clear past the last item and
room for one more, opening a gap at item `i` leaves the stream as its bits below `i * w`, then
`w` bits for the caller to write, then the bits of items `i` onward, then zeros; closing the
field of item `i` leaves its bits below `i * w`, then those of the items after `i`, then zeros.
Both hold at every alignment against the words, when the bits moved lie in a single word, and
for `w = 64`, where the words themselves move.
-/

namespace CompactCollections.PackedList

open CompactCollections.Stream

variable {l : PackedList} {i : Nat}

/-- The binary digits of a word's number mod `2 ^ w` are its bits below `w`. -/
theorem testBit_toNat_mod (v : UInt64) (w j : Nat) :
    (v.toNat % (1 <<< w)).testBit j = (decide (j < w) && bit v j) := by
  rw [Nat.one_shiftLeft, Nat.testBit_mod_two_pow, testBit_toNat]

/-- **Item `i` is the field `[i * w, (i + 1) * w)` of the stream**, `w` the width. Writing it
keeps the number of words, leaves every word but the one the field starts in, and the next one
when the field spills over, and sets exactly the field's bits, to those of the value mod
`2 ^ w`. Reading it gives the number whose binary digits are the field's bits. So reading it
back gives the value mod `2 ^ w`, and every other item is as it was. -/
structure AccessesField (l : PackedList) (i : Nat) : Prop where
  size_write : ∀ v, (l.write i v).words.size = l.words.size
  word_write : ∀ v t, t ≠ i * l.width / 64 →
    (i * l.width % 64 + l.width ≤ 64 ∨ t ≠ i * l.width / 64 + 1) →
    word (l.write i v).words t = word l.words t
  testBit_write : ∀ v p, testBit (l.write i v).words p =
    if i * l.width ≤ p ∧ p < (i + 1) * l.width then
      (v.toNat % (1 <<< l.width)).testBit (p - i * l.width)
    else testBit l.words p
  testBit_read : ∀ j, (l.read i).toNat.testBit j =
    (decide (j < l.width) && testBit l.words (i * l.width + j))
  read_write_self : ∀ v, ((l.write i v).read i).toNat = v.toNat % (1 <<< l.width)
  read_write_of_ne : ∀ v j, j ≠ i → (l.write i v).read j = l.read j

/-- **Every item whose field lies within the words is accessed as that field**, for every width
in `1..=64` and every alignment of the field against the words. -/
theorem accessesField (hw1 : 1 ≤ l.width) (hw : l.width ≤ 64)
    (hi : (i + 1) * l.width ≤ 64 * l.words.size) : l.AccessesField i where
  size_write v := Stream.size_write hw1 (by rwa [Nat.succ_mul] at hi) v
  word_write v _ hfirst hnext := Stream.word_write hw1 hw v hfirst hnext
  testBit_write v p := by
    show testBit (Stream.write l.words (i * l.width) l.width v) p = _
    rw [Stream.testBit_write hw1 hw, Nat.succ_mul]
    by_cases hin : i * l.width ≤ p ∧ p < i * l.width + l.width
    · -- inside the field the value's bits are below the width, where cutting it changes nothing
      rw [if_pos hin, if_pos hin, testBit_toNat_mod, decide_eq_true (by omega), Bool.true_and]
    · rw [if_neg hin, if_neg hin]
  testBit_read j := by rw [testBit_toNat, bit_read hw]
  read_write_self v := by rw [read_write hw1 hw, if_pos rfl, mask, toNat_and_lowBits hw]
  read_write_of_ne v j hj := by rw [read_write hw1 hw, if_neg (Ne.symm hj)]

/-- Item 1 of a list of 40-bit items over two words straddles them, and is accessed as its
field. -/
theorem straddling_accessesField :
    1 ≤ 40 ∧ 40 ≤ 64 ∧ (1 + 1) * 40 ≤ 64 * 2 ∧
      (⟨#[0, 0], 2, 2, 40, 0⟩ : PackedList).AccessesField 1 :=
  ⟨by decide, by decide, by decide, accessesField (by decide) (by decide) (by decide)⟩

/-! ### Opening and closing a field -/

/-- **Shifting at item `i` moves the later items by one field**, `w` the width and `n` the
length. Opening a gap for `n + 1` items keeps the bits below it, moves the bits of items `i`
onward up by `w` and leaves the stream clear from `(n + 1) * w`; the `w` bits of the gap are left
for the caller to write. Closing the field of item `i` keeps the bits below it, moves the bits of
the later items down by `w` and leaves the stream clear from `(n - 1) * w`. Neither takes more
words than it is given. -/
structure ShiftsItems (l : PackedList) (i : Nat) : Prop where
  size_shiftUp :
    (shiftUp l.words (i * l.width) l.width ((l.len + 1) * l.width)).size = l.words.size
  shiftUp_below : ∀ p < i * l.width,
    testBit (shiftUp l.words (i * l.width) l.width ((l.len + 1) * l.width)) p = testBit l.words p
  shiftUp_above : ∀ p, (i + 1) * l.width ≤ p →
    testBit (shiftUp l.words (i * l.width) l.width ((l.len + 1) * l.width)) p =
      if p < (l.len + 1) * l.width then testBit l.words (p - l.width) else false
  size_shiftDown : (shiftDown l.words (i * l.width) l.width (l.len * l.width)).size = l.words.size
  shiftDown_below : ∀ p < i * l.width,
    testBit (shiftDown l.words (i * l.width) l.width (l.len * l.width)) p = testBit l.words p
  shiftDown_above : ∀ p, i * l.width ≤ p →
    testBit (shiftDown l.words (i * l.width) l.width (l.len * l.width)) p =
      if p < (l.len - 1) * l.width then testBit l.words (p + l.width) else false

/-- **Every item of a list clear past its last item, with room for one more item, shifts as a
field**, for every width in `1..=64`. -/
theorem shiftsItems (hw1 : 1 ≤ l.width) (hw : l.width ≤ 64)
    (hclear : ∀ p, l.len * l.width ≤ p → testBit l.words p = false) (hi : i < l.len)
    (hroom : (l.len + 1) * l.width ≤ 64 * l.words.size) : l.ShiftsItems i := by
  have hend := field_end_le (w := l.width) hi
  have hlen : l.len * l.width + l.width = (l.len + 1) * l.width := (Nat.succ_mul _ _).symm
  have hpred := pred_mul_add (w := l.width) (show 0 < l.len by omega)
  have hnext : (i + 1) * l.width = i * l.width + l.width := Nat.succ_mul _ _
  refine ⟨size_shiftUp (by omega) hroom, fun p hp => testBit_shiftUp_of_lt hp, fun p hp => ?_,
    size_shiftDown (by omega) (by omega), fun p hp => testBit_shiftDown_of_lt hp, fun p hp => ?_⟩
  · -- the old stream is clear from `n * w`, the last `w` bits before the new end
    rw [testBit_shiftUp_of_clear hw1 hw (by omega) (fun q hq => hclear q (by omega)) (by omega)]
  · rw [testBit_shiftDown_of_clear hw1 hend hclear hp,
      show l.len * l.width - l.width = (l.len - 1) * l.width by omega]

/-- One 64-bit item with room for two: the shifts move whole words. -/
theorem wholeWord_shiftsItems :
    1 ≤ 64 ∧ 64 ≤ 64 ∧ (∀ p, 1 * 64 ≤ p → testBit #[5, 0] p = false) ∧ 0 < 1 ∧
      (1 + 1) * 64 ≤ 64 * 2 ∧ (⟨#[5, 0], 2, 1, 64, 0⟩ : PackedList).ShiftsItems 0 := by
  have hclear : ∀ p, 1 * 64 ≤ p → testBit #[5, 0] p = false := fun p hp => by
    by_cases hin : p < 128
    · rw [testBit_eq, show p / 64 = 1 by omega]
      exact bit_zero
    · exact testBit_of_size_le (show 64 * 2 ≤ p by omega)
  exact ⟨by decide, by decide, hclear, by decide, by decide,
    shiftsItems (by decide) (by decide) hclear (by decide) (by decide)⟩

end CompactCollections.PackedList
