import CompactCollections.Proofs.Bits.ListRefinement
/-!
# The storage of a packed list, and equality by items

Every packed list a caller can reach holds its items within the storage it has reserved – at
least `⌈len · width / 64⌉` words, so its capacity is at least its length – and keeps every stream
bit from `len * width` on clear, in the spare words as well
(`CompactCollections.PackedList.Stored`). Each operation keeps both.

The clear bits are what make equality of packed lists, which compares widths, lengths and the raw
used words (`CompactCollections.PackedList.sameItems`), an equality of items: two valid lists of
one width with the same items agree on every stream bit, so the used words are a function of the
width and the items, and two reachable lists are the same exactly when their widths and items are,
whatever their defaults, storage or histories
(`CompactCollections.PackedList.Reachable.stored_and_sameItems_iff`).
-/

namespace CompactCollections

namespace PackedList

open CompactCollections.Stream

variable {l l' : PackedList}

/-! ### Room for the items -/

/-- A growth holds at least what it was asked for. -/
theorem grow_ge {c r g : Nat} (h : Capacity.grow c r = .ok g) : r ≤ g := by
  unfold Capacity.grow at h
  split at h
  · cases h
  · cases h
    omega

/-- Reserving storage for `n` items never shrinks it, and leaves room for the `n` items. -/
theorem reserveFor_room {n : Nat} (hr : l.reserveFor n = .ok l') :
    l.reserved ≤ l'.reserved ∧ l.wordsFor n ≤ l'.reserved := by
  rcases reserveFor_ok_cases hr with ⟨hfit, rfl⟩ | ⟨hlt, g, hg, rfl⟩
  · exact ⟨Nat.le_refl _, hfit⟩
  · have hge := grow_ge hg
    exact ⟨show l.reserved ≤ g by omega, hge⟩

@[simp] theorem reserved_fill (l : PackedList) (i c : Nat) : (l.fill i c).reserved = l.reserved := by
  induction c generalizing l i with
  | zero => rfl
  | succ c ih => exact ih _ _

/-- The words for fewer items of the same width are fewer. -/
theorem wordsFor_le {n : Nat} (hw : l'.width = l.width) (hn : l'.len ≤ n) :
    l'.wordsFor l'.len ≤ l.wordsFor n := by
  unfold wordsFor
  rw [hw]
  exact Nat.div_le_div_right (Nat.add_le_add_right (Nat.mul_le_mul_right _ hn) _)

/-- Growing to `n` items leaves room for them. -/
theorem growTo_room {n : Nat} (hg : l.growTo n = .ok l') :
    l'.len = n ∧ l'.width = l.width ∧ l.reserved ≤ l'.reserved ∧ l.wordsFor n ≤ l'.reserved := by
  obtain ⟨l₁, hr, hg⟩ := ok_of_bind_ok hg
  have hroom := reserveFor_room hr
  obtain ⟨r, rfl⟩ := reserveFor_ok hr
  cases hg
  split <;> exact ⟨by simp, by simp, by simpa using hroom.1, by simpa using hroom.2⟩

/-- Setting an item leaves room for the items. -/
theorem set_room (hroom : l.wordsFor l.len ≤ l.reserved) {i : Nat} {v : UInt64}
    (hs : l.set i v = .ok l') : l'.wordsFor l'.len ≤ l'.reserved := by
  unfold PackedList.set at hs
  split at hs
  · obtain ⟨n, -, hs₁⟩ := ok_of_bind_ok hs
    obtain ⟨l₁, hg, hs₂⟩ := ok_of_bind_ok hs₁
    cases hs₂
    obtain ⟨hlen, hw, -, hfit⟩ := growTo_room hg
    exact Nat.le_trans (wordsFor_le hw (Nat.le_of_eq hlen)) hfit
  · cases hs
    exact hroom

/-- Inserting leaves room for the items: within the length the storage is first made to hold
one more. -/
theorem insert_room (hroom : l.wordsFor l.len ≤ l.reserved) {i : Nat} {v : UInt64}
    (hs : l.insert i v = .ok l') : l'.wordsFor l'.len ≤ l'.reserved := by
  unfold PackedList.insert at hs
  split at hs
  · exact set_room hroom hs
  · obtain ⟨l₁, hr, hs⟩ := ok_of_bind_ok hs
    have hfit := (reserveFor_room hr).2
    obtain ⟨r, rfl⟩ := reserveFor_ok hr
    cases hs
    exact hfit

/-- Adding values one by one leaves room for the items. -/
theorem foldlM_add_room (hroom : l.wordsFor l.len ≤ l.reserved) {vs : List UInt64}
    (he : vs.foldlM (fun l v => l.add v) l = .ok l') : l'.wordsFor l'.len ≤ l'.reserved := by
  induction vs generalizing l with
  | nil =>
    cases he
    exact hroom
  | cons v vs ih =>
    rw [List.foldlM_cons] at he
    obtain ⟨l₁, hadd, hrest⟩ := ok_of_bind_ok he
    exact ih (set_room hroom hadd) hrest

/-- Making room for more items keeps room for the items there are. -/
theorem reserve_room (hroom : l.wordsFor l.len ≤ l.reserved) {n : Nat}
    (hr : l.reserve n = .ok l') : l'.wordsFor l'.len ≤ l'.reserved := by
  unfold reserve at hr
  split at hr
  · cases hr
  · have hgrow := (reserveFor_room hr).1
    obtain ⟨r, rfl⟩ := reserveFor_ok hr
    exact Nat.le_trans hroom hgrow

/-- Closing a field only lowers the length. -/
theorem erase_room (hroom : l.wordsFor l.len ≤ l.reserved) (i : Nat) :
    (l.erase i).wordsFor (l.erase i).len ≤ (l.erase i).reserved := by
  unfold PackedList.erase
  split
  · exact Nat.le_trans (wordsFor_le (l := l) rfl (Nat.sub_le _ _)) hroom
  · exact hroom

theorem removeAt_room (hroom : l.wordsFor l.len ≤ l.reserved) {i : Nat} {v : UInt64}
    (hr : l.removeAt i = .ok (v, l')) : l'.wordsFor l'.len ≤ l'.reserved := by
  obtain ⟨w, -, hr⟩ := ok_of_bind_ok hr
  cases hr
  exact erase_room hroom i

theorem removeValue_room (hroom : l.wordsFor l.len ≤ l.reserved) {v : UInt64} {b : Bool}
    (hr : l.removeValue v = .ok (b, l')) : l'.wordsFor l'.len ≤ l'.reserved := by
  unfold PackedList.removeValue at hr
  split at hr
  · obtain ⟨⟨w, l₁⟩, hra, hr⟩ := ok_of_bind_ok hr
    cases hr
    exact removeAt_room hroom hra
  · cases hr
    exact hroom

/-- Truncating only lowers the length. -/
theorem truncate_room (hroom : l.wordsFor l.len ≤ l.reserved) {n : Nat} (hn : n ≤ l.len) :
    (l.truncate n).wordsFor (l.truncate n).len ≤ (l.truncate n).reserved :=
  Nat.le_trans (wordsFor_le (l := l) rfl hn) hroom

theorem setLen_room (hroom : l.wordsFor l.len ≤ l.reserved) {n : Nat}
    (hs : l.setLen n = .ok l') : l'.wordsFor l'.len ≤ l'.reserved := by
  unfold PackedList.setLen at hs
  split at hs
  · obtain ⟨hlen, hw, -, hfit⟩ := growTo_room hs
    exact Nat.le_trans (wordsFor_le hw (Nat.le_of_eq hlen)) hfit
  · cases hs
    exact truncate_room hroom (by omega)

/-- **Every operation leaves room for the items**: a growth reserves what it needs first, a
removal or truncation only lowers the length, and fitting reserves exactly the words of the
items. -/
theorem Op.run_room (hroom : l.wordsFor l.len ≤ l.reserved) {op : Op} {a : Answer}
    (hr : op.run l = .ok (a, l')) : l'.wordsFor l'.len ≤ l'.reserved := by
  cases op with
  | set i v => exact set_room hroom (done_of_map_ok hr).2
  | add v => exact set_room hroom (done_of_map_ok hr).2
  | insert i v => exact insert_room hroom (done_of_map_ok hr).2
  | removeAt i =>
    obtain ⟨⟨v, l₁⟩, hs, he⟩ := ok_of_map_ok hr
    cases he
    exact removeAt_room hroom (ok_of_mapError_ok hs)
  | removeValue v =>
    obtain ⟨⟨b, l₁⟩, hs, he⟩ := ok_of_map_ok hr
    cases he
    exact removeValue_room hroom (ok_of_mapError_ok hs)
  | pop =>
    cases hr
    unfold PackedList.pop
    split
    · exact hroom
    · exact truncate_room hroom (Nat.sub_le _ _)
  | setLen n => exact setLen_room hroom (done_of_map_ok hr).2
  | clear =>
    cases hr
    exact Nat.le_trans (wordsFor_le (l := l) rfl (Nat.zero_le l.len)) hroom
  | fit =>
    cases hr
    exact Nat.le_refl _
  | reserve n => exact reserve_room hroom (done_of_map_ok hr).2
  | extend vs =>
    obtain ⟨l₁, hres, hadd⟩ := ok_of_bind_ok (done_of_map_ok hr).2
    exact foldlM_add_room (reserve_room hroom hres) hadd

/-- **A packed list that keeps its items in its storage**: it is valid, so every stream bit from
`len * width` on is clear, and the words reserved hold its items. -/
structure Stored (l : PackedList) : Prop where
  valid : l.Valid
  room : l.wordsFor l.len ≤ l.reserved

/-- Every operation keeps a list stored. -/
theorem Stored.run (h : l.Stored) {op : Op} {a : Answer} (hr : op.run l = .ok (a, l')) :
    l'.Stored :=
  ⟨(Op.run_ok h.valid hr).2.valid, Op.run_room h.room hr⟩

/-- Every reachable list is stored. -/
theorem Reachable.stored (h : l.Reachable) : l.Stored := by
  induction h with
  | new hnew =>
    refine ⟨valid_of_new? hnew, ?_⟩
    unfold new? at hnew
    split at hnew
    · cases hnew
      simp [wordsFor]
    · cases hnew
  | withDefault d hnew =>
    refine ⟨(valid_of_new? hnew).withDefault d, ?_⟩
    unfold new? at hnew
    split at hnew
    · cases hnew
      simp [wordsFor, PackedList.withDefault]
    · cases hnew
  | step op _ hrun ih => exact ih.run hrun

/-- Room for `m` items in words is room for them in items. -/
theorem le_capacity_of_wordsFor_le {m : Nat} (hw : 0 < l.width) (h : l.wordsFor m ≤ l.reserved) :
    m ≤ l.capacity := by
  unfold wordsFor at h
  unfold capacity
  rw [Nat.le_div_iff_mul_le hw]
  omega

/-- The storage of a stored list holds its length: the capacity is at least the length. -/
theorem Stored.len_le_capacity (h : l.Stored) : l.len ≤ l.capacity :=
  le_capacity_of_wordsFor_le h.valid.width_pos h.room

/-! ### Equal items, equal words -/

/-- Stream bit `p` is bit `p % width` of item `p / width`. -/
theorem testBit_eq_bit_read (h : l.Valid) (p : Nat) :
    testBit l.words p = bit (l.read (p / l.width)) (p % l.width) := by
  have hw := h.width_pos
  rw [bit_read h.width_le, Nat.div_add_mod', decide_eq_true (Nat.mod_lt p (by omega)),
    Bool.true_and]

section Equality

variable {a b : PackedList}

theorem len_eq_of_toList_eq (hxs : a.toList = b.toList) : a.len = b.len := by
  rw [← length_toList a, hxs, length_toList]

/-- **Two valid lists of one width with the same items agree on every stream bit**: below the
length a bit belongs to an item, and past it both are clear. -/
theorem testBit_eq_of_toList_eq (ha : a.Valid) (hb : b.Valid) (hw : a.width = b.width)
    (hxs : a.toList = b.toList) (p : Nat) : testBit a.words p = testBit b.words p := by
  have hlen := len_eq_of_toList_eq hxs
  by_cases hp : p < a.len * a.width
  · -- the bit of an item, which both lists hold
    have hwpos := ha.width_pos
    have hi : p / a.width < a.len := (Nat.div_lt_iff_lt_mul (by omega)).mpr hp
    have hget : a.get? (p / a.width) = b.get? (p / a.width) := by
      rw [get?_eq_getElem?, get?_eq_getElem?, hxs]
    have hread : a.read (p / a.width) = b.read (p / b.width) := by
      rw [← hw]
      simpa [get?, hi, ← hlen] using hget
    rw [testBit_eq_bit_read ha, testBit_eq_bit_read hb, hread, hw]
  · -- past the items both streams are clear
    rw [ha.clear_above p (by omega), hb.clear_above p (by rw [← hlen, ← hw]; omega)]

/-- The used words of a valid list are a function of its width and its items. -/
theorem usedWords_eq_of_toList_eq (ha : a.Valid) (hb : b.Valid) (hw : a.width = b.width)
    (hxs : a.toList = b.toList) : a.usedWords = b.usedWords := by
  have hcount : a.wordsFor a.len = b.wordsFor b.len := by
    rw [wordsFor, wordsFor, len_eq_of_toList_eq hxs, hw]
  unfold usedWords
  rw [hcount]
  exact firstWords_eq_of_testBit_eq (testBit_eq_of_toList_eq ha hb hw hxs) _

/-- Equal used words are equal words below their count. -/
theorem word_eq_of_usedWords_eq (h : a.usedWords = b.usedWords) {t : Nat}
    (ht : t < a.wordsFor a.len) : word a.words t = word b.words t :=
  word_eq_of_firstWords_eq h ht

/-- Lists of one width and length with equal used words hold the same items. -/
theorem toList_eq_of_usedWords_eq (ha : a.Valid) (hw : a.width = b.width) (hlen : a.len = b.len)
    (hu : a.usedWords = b.usedWords) : a.toList = b.toList := by
  refine toList_eq_iff.mpr ⟨by rw [hlen, length_toList], fun j hj => ?_⟩
  rw [getElem_toList]
  rw [length_toList, ← hlen] at hj
  refine read_eq_of_testBit (hw ▸ ha.width_le) hw fun k hk => ?_
  -- a bit of item `j` lies in a used word
  have hend := field_end_le (w := b.width) (hlen ▸ hj)
  have hword : (j * b.width + k) / 64 < a.wordsFor a.len := by
    rw [wordsFor, hlen, hw]
    omega
  rw [testBit_eq, testBit_eq, word_eq_of_usedWords_eq hu hword]

/-- **Two valid lists are the same exactly when their widths and items are.** -/
theorem sameItems_iff (ha : a.Valid) (hb : b.Valid) :
    a.sameItems b = true ↔ a.width = b.width ∧ a.toList = b.toList := by
  simp only [sameItems, Bool.and_eq_true, beq_iff_eq]
  constructor
  · rintro ⟨⟨hw, hlen⟩, hu⟩
    exact ⟨hw, toList_eq_of_usedWords_eq ha hw hlen hu⟩
  · rintro ⟨hw, hxs⟩
    exact ⟨⟨hw, len_eq_of_toList_eq hxs⟩, usedWords_eq_of_toList_eq ha hb hw hxs⟩

/-- **Every reachable packed list keeps its items in its storage and nothing after them**: the
words reserved hold `⌈len · width / 64⌉` words at least, so the capacity is at least the length,
and every stream bit from `len * width` on is clear. Hence the used words are a function of the
width and the items, and equality, which compares raw words, holds between two reachable lists
exactly when their widths and items are equal, whatever their defaults, storage or histories. -/
theorem Reachable.stored_and_sameItems_iff (ha : a.Reachable) (hb : b.Reachable) :
    (a.wordsFor a.len ≤ a.reserved ∧ a.len ≤ a.capacity ∧
      ∀ p, a.len * a.width ≤ p → testBit a.words p = false) ∧
    (a.width = b.width → a.toList = b.toList → a.usedWords = b.usedWords) ∧
    (a.sameItems b = true ↔ a.width = b.width ∧ a.toList = b.toList) :=
  have hsa := ha.stored
  have hsb := hb.stored
  ⟨⟨hsa.room, hsa.len_le_capacity, hsa.valid.clear_above⟩,
    usedWords_eq_of_toList_eq hsa.valid hsb.valid, sameItems_iff hsa.valid hsb.valid⟩

/-- A list of 3-bit items with default zero and one with default six, each given the item five:
their defaults differ, their items do not, so they are the same list. -/
theorem sameItems_of_defaults_apart :
    (⟨#[5], 4, 1, 3, 0⟩ : PackedList).Reachable ∧ (⟨#[5], 4, 1, 3, 6⟩ : PackedList).Reachable ∧
      (((⟨#[5], 4, 1, 3, 0⟩ : PackedList).wordsFor 1 ≤ 4 ∧
          (⟨#[5], 4, 1, 3, 0⟩ : PackedList).len ≤ (⟨#[5], 4, 1, 3, 0⟩ : PackedList).capacity ∧
          ∀ p, 1 * 3 ≤ p → testBit #[5] p = false) ∧
        ((3 : Nat) = 3 → (⟨#[5], 4, 1, 3, 0⟩ : PackedList).toList =
            (⟨#[5], 4, 1, 3, 6⟩ : PackedList).toList →
          (⟨#[5], 4, 1, 3, 0⟩ : PackedList).usedWords = (⟨#[5], 4, 1, 3, 6⟩ : PackedList).usedWords) ∧
        ((⟨#[5], 4, 1, 3, 0⟩ : PackedList).sameItems ⟨#[5], 4, 1, 3, 6⟩ = true ↔
          (3 : Nat) = 3 ∧ (⟨#[5], 4, 1, 3, 0⟩ : PackedList).toList =
            (⟨#[5], 4, 1, 3, 6⟩ : PackedList).toList)) :=
  have hnew : new? 3 = .ok ⟨#[], 0, 0, 3, 0⟩ := rfl
  have ha : (⟨#[5], 4, 1, 3, 0⟩ : PackedList).Reachable := .step (.add 5) (.new hnew) rfl
  have hb : (⟨#[5], 4, 1, 3, 6⟩ : PackedList).Reachable :=
    .step (.add 5) (.withDefault 6 hnew) rfl
  ⟨ha, hb, Reachable.stored_and_sameItems_iff ha hb⟩

end Equality

end PackedList

end CompactCollections
