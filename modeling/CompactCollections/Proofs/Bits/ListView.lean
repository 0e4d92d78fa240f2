import CompactCollections.Proofs.Bits.Items
import CompactCollections.Proofs.Except
/-!
# A packed list as the list of its items

The items of a packed list in order (`CompactCollections.PackedList.toList`) are a list of
numbers, and each operation does to that list what a growable array of numbers does, with the
values it writes cut to the width:

* a write within the length replaces an item, and a write past it first pads with the default
  (`CompactCollections.PackedList.setItem`);
* an insertion within the length moves the later items up, and past it acts as a write
  (`CompactCollections.PackedList.insertItem`);
* a removal moves the later items down, a truncation keeps a prefix, growth pads with the
  default, and fitting or reserving storage keeps the items;
* a search for a value finds its first or last position, and never finds a value wider than
  the items.

`CompactCollections.PackedList.Becomes l l' xs` says that `l'` is a valid list of the width and
default of `l` holding `xs`; each operation has one lemma of that form, and a run of
operations chains them.
-/

namespace CompactCollections.PackedList

open CompactCollections.Stream

variable {l l' : PackedList}

/-! ### The items in order -/

@[simp] theorem length_toList (l : PackedList) : l.toList.length = l.len := by
  simp [toList]

@[simp] theorem getElem_toList (l : PackedList) {j : Nat} (hj : j < l.toList.length) :
    l.toList[j] = l.read j := by
  simp [toList]

/-- A list holds `xs` when it has as many items and item `j` is `xs[j]`. -/
theorem toList_eq_iff {xs : List UInt64} :
    l.toList = xs ↔ l.len = xs.length ∧ ∀ j (hj : j < xs.length), l.read j = xs[j] := by
  constructor
  · rintro rfl
    exact ⟨(length_toList l).symm, fun j hj => (getElem_toList l hj).symm⟩
  · rintro ⟨hlen, hread⟩
    refine List.ext_getElem (by simp [hlen]) fun j _ hj => ?_
    rw [getElem_toList, hread j hj]

/-- Every item is a value of the width. -/
theorem and_mask_of_mem_toList (h : l.Valid) {x : UInt64} (hx : x ∈ l.toList) :
    x &&& l.mask = x := by
  obtain ⟨j, hj, rfl⟩ := List.getElem_of_mem hx
  refine eq_of_bit_eq fun k _ => ?_
  rw [getElem_toList, bit_and_mask h.width_le]
  by_cases hk : k < l.width
  · simp [hk]
  · simp [hk, bit_read_of_ge h (Nat.le_of_not_lt hk)]

/-! ### The reference operations -/

/-- Writes `x` at position `i`: within the length the item is replaced; past it the list first
grows with `d` up to position `i`. -/
def setItem (d : UInt64) (xs : List UInt64) (i : Nat) (x : UInt64) : List UInt64 :=
  if i < xs.length then xs.set i x else xs ++ List.replicate (i - xs.length) d ++ [x]

/-- Inserts `x` at position `i`, moving the later items up; at or past the end it writes. -/
def insertItem (d : UInt64) (xs : List UInt64) (i : Nat) (x : UInt64) : List UInt64 :=
  if i < xs.length then xs.insertIdx i x else setItem d xs i x

/-- The last position holding `v`. -/
def lastIdxOf? (v : UInt64) (xs : List UInt64) : Option Nat :=
  (xs.reverse.idxOf? v).map (xs.length - 1 - ·)

/-- A write at the end of a list padded to it replaces the last pad. -/
theorem set_append_replicate {xs : List UInt64} {d x : UInt64} {i : Nat} (hi : xs.length ≤ i) :
    (xs ++ List.replicate (i + 1 - xs.length) d).set i x =
      xs ++ List.replicate (i - xs.length) d ++ [x] := by
  rw [show i + 1 - xs.length = (i - xs.length) + 1 by omega, List.replicate_succ',
    ← List.append_assoc, List.set_append_right _ _ (by simp; omega)]
  simp [show i - (xs.length + (i - xs.length)) = 0 by omega]

/-! ### Becoming a list of items -/

/-- **`l'` is `l` holding the items `xs`**: a valid list of the same width and default whose
items are `xs`. -/
structure Becomes (l l' : PackedList) (xs : List UInt64) : Prop where
  valid : l'.Valid
  width_eq : l'.width = l.width
  default_eq : l'.default = l.default
  toList_eq : l'.toList = xs

namespace Becomes

variable {l₁ l₂ : PackedList} {xs ys : List UInt64}

theorem refl (h : l.Valid) : Becomes l l l.toList := ⟨h, rfl, rfl, rfl⟩

theorem trans (h₁ : Becomes l l₁ xs) (h₂ : Becomes l₁ l₂ ys) : Becomes l l₂ ys :=
  ⟨h₂.valid, h₂.width_eq.trans h₁.width_eq, h₂.default_eq.trans h₁.default_eq, h₂.toList_eq⟩

theorem mask_eq (h : Becomes l l' xs) : l'.mask = l.mask := by
  rw [mask, mask, h.width_eq]

theorem len_eq (h : Becomes l l' xs) : l'.len = xs.length := by
  rw [← h.toList_eq, length_toList]

end Becomes

/-! ### Writing -/

/-- **A write within the length replaces one item**, cut to the width. -/
theorem becomes_write (h : l.Valid) {i : Nat} (hi : i < l.len) (v : UInt64) :
    Becomes l (l.write i v) (l.toList.set i (v &&& l.mask)) := by
  refine ⟨h.write hi v, rfl, rfl, toList_eq_iff.mpr ⟨by simp [PackedList.write], fun j hj => ?_⟩⟩
  rw [read_write h.width_pos h.width_le, List.getElem_set, getElem_toList]

/-- Setting the room reserved changes no item. -/
theorem becomes_reserved (h : l.Valid) (r : Nat) : Becomes l { l with reserved := r } l.toList :=
  ⟨h.of_words rfl rfl rfl (Nat.le_refl _), rfl, rfl, rfl⟩

/-- What a reservation that succeeds did: nothing when the words were there, otherwise a growth
that the sizing rule allowed. -/
theorem reserveFor_ok_cases {n : Nat} (hr : l.reserveFor n = .ok l') :
    (l.wordsFor n ≤ l.reserved ∧ l' = l) ∨
      (l.reserved < l.wordsFor n ∧ ∃ g, Capacity.grow l.reserved (l.wordsFor n) = .ok g ∧
        l' = { l with reserved := g }) := by
  unfold reserveFor at hr
  split at hr
  · cases hr
  · obtain ⟨s, hs, hr⟩ := ok_of_bind_ok hr
    cases Capacity.wordSum_ok hs
    dsimp only at hr
    split at hr
    · cases hr
      exact .inl ⟨‹_›, rfl⟩
    · obtain ⟨g, hg, hr⟩ := ok_of_bind_ok hr
      cases hr
      exact .inr ⟨Nat.lt_of_not_le ‹_›, g, ok_of_mapError_ok hg, rfl⟩

/-- Reserving storage only sets the room reserved. -/
theorem reserveFor_ok {n : Nat} (hr : l.reserveFor n = .ok l') :
    ∃ r, l' = { l with reserved := r } := by
  rcases reserveFor_ok_cases hr with ⟨-, rfl⟩ | ⟨-, g, -, rfl⟩
  · exact ⟨_, rfl⟩
  · exact ⟨g, rfl⟩

theorem becomes_reserveFor (h : l.Valid) {n : Nat} (hr : l.reserveFor n = .ok l') :
    Becomes l l' l.toList := by
  obtain ⟨r, rfl⟩ := reserveFor_ok hr
  exact becomes_reserved h r

/-- **Growing to `n` items pads with the default.** When the default is zero nothing is written:
the new items read as zero because every bit past the length is clear. -/
theorem becomes_growTo (h : l.Valid) {n : Nat} (hn : l.len ≤ n) (hg : l.growTo n = .ok l') :
    Becomes l l' (l.toList ++ List.replicate (n - l.len) l.default) := by
  unfold growTo at hg
  obtain ⟨l₁, hr, hg⟩ := ok_of_bind_ok hg
  obtain ⟨r, rfl⟩ := reserveFor_ok hr
  cases hg
  have hv : ({ l with reserved := r, len := n } : PackedList).Valid := h.of_words rfl rfl rfl hn
  have hlen : (l.toList ++ List.replicate (n - l.len) l.default).length = n := by
    simp only [List.length_append, length_toList, List.length_replicate]
    omega
  -- item `j` of the padded list
  have hitem : ∀ j (hj : j < (l.toList ++ List.replicate (n - l.len) l.default).length),
      (l.toList ++ List.replicate (n - l.len) l.default)[j] =
        if j < l.len then l.read j else l.default := by
    intro j hj
    by_cases hjl : j < l.len
    · rw [List.getElem_append_left (by simpa using hjl), getElem_toList, if_pos hjl]
    · rw [List.getElem_append_right (by simp; omega), List.getElem_replicate, if_neg hjl]
  split
  · -- a zero default writes nothing: the new items are the clear bits past the old length
    rename_i hd
    refine ⟨hv, rfl, rfl, toList_eq_iff.mpr ⟨hlen.symm, fun j hj => ?_⟩⟩
    rw [hitem j hj]
    split
    · rfl
    · rw [hd]
      exact read_of_ge h (by omega)
  · -- any other default is written into every new item
    have hfill : l.len + (n - l.len) ≤ n := by omega
    refine ⟨hv.fill hfill, by simp, by simp, toList_eq_iff.mpr ⟨by simp [hlen], fun j hj => ?_⟩⟩
    rw [read_fill hv hfill, hitem j hj]
    by_cases hjl : j < l.len
    · rw [if_neg (by omega), if_pos hjl]
      rfl
    · rw [if_pos (by simp at hj; omega), if_neg hjl]

/-- **Setting item `i`** writes it; past the end the list first grows with the default. -/
theorem becomes_set (h : l.Valid) {i : Nat} {v : UInt64} (hs : l.set i v = .ok l') :
    Becomes l l' (setItem l.default l.toList i (v &&& l.mask)) := by
  unfold PackedList.set at hs
  split at hs
  · rename_i hi
    obtain ⟨n, hn, hs₁⟩ := ok_of_bind_ok hs
    obtain ⟨l₁, hg, hs₂⟩ := ok_of_bind_ok hs₁
    cases Capacity.wordSum_ok hn
    obtain rfl : l₁.write i v = l' := Except.ok.inj hs₂
    have hb := becomes_growTo h (by omega) hg
    have hw := becomes_write hb.valid (show i < l₁.len by rw [hb.len_eq]; simp; omega) v
    refine ⟨hw.valid, hw.width_eq.trans hb.width_eq, hw.default_eq.trans hb.default_eq, ?_⟩
    have hpad := @set_append_replicate l.toList l.default (v &&& l.mask) i (by simpa using hi)
    rw [length_toList] at hpad
    rw [hw.toList_eq, hb.toList_eq, hb.mask_eq, hpad, setItem, if_neg (by simpa using hi),
      length_toList]
  · rename_i hi
    cases hs
    have hw := becomes_write h (Nat.lt_of_not_le hi) v
    rwa [setItem, if_pos (by simpa using Nat.lt_of_not_le hi)]

/-- Adding appends the value, cut to the width. -/
theorem becomes_add (h : l.Valid) {v : UInt64} (hs : l.add v = .ok l') :
    Becomes l l' (l.toList ++ [v &&& l.mask]) := by
  have hb := becomes_set h hs
  rwa [setItem, if_neg (by simp), length_toList, Nat.sub_self, List.replicate_zero,
    List.append_nil] at hb

/-- **Inserting at `i` within the length** opens a gap there and writes it; at or past the end
it sets. -/
theorem becomes_insert (h : l.Valid) {i : Nat} {v : UInt64} (hs : l.insert i v = .ok l') :
    Becomes l l' (insertItem l.default l.toList i (v &&& l.mask)) := by
  unfold PackedList.insert at hs
  split at hs
  · rename_i hi
    rw [insertItem, if_neg (by simpa using hi)]
    exact becomes_set h hs
  · rename_i hi
    obtain ⟨l₁, hr, hs⟩ := ok_of_bind_ok hs
    obtain ⟨r, rfl⟩ := reserveFor_ok hr
    cases hs
    have hv := (becomes_reserved h r).valid
    have hgap := hv.openGap (i := i) (Nat.lt_of_not_le hi)
    have hlen : (l.toList.insertIdx i (v &&& l.mask)).length = l.len + 1 := by
      rw [List.length_insertIdx_of_le_length (by simp; omega), length_toList]
    rw [insertItem, if_pos (by simpa using Nat.lt_of_not_le hi)]
    refine ⟨hgap.write (show i < l.len + 1 by omega) v, rfl, rfl,
      toList_eq_iff.mpr ⟨hlen.symm, fun j hj => ?_⟩⟩
    -- the new item is the gap, written; the others were moved by the gap or not at all
    show ((({ l with reserved := r } : PackedList).openGap i).write i v).read j = _
    rw [read_write hgap.width_pos hgap.width_le, List.getElem_insertIdx]
    by_cases hji : j = i
    · subst hji
      rw [if_pos rfl, dif_neg (Nat.lt_irrefl j), dif_pos rfl]
      rfl
    · rw [if_neg (Ne.symm hji), read_openGap hv hji (by simp at hj ⊢; omega)]
      by_cases hlt : j < i
      · rw [if_pos hlt, dif_pos hlt, getElem_toList]
        rfl
      · rw [if_neg hlt, dif_neg hlt, dif_neg hji, getElem_toList]
        rfl

/-! ### Removing and truncating -/

/-- **Closing the field of item `i`** removes that item. -/
theorem becomes_erase (h : l.Valid) {i : Nat} (hi : i < l.len) :
    Becomes l (l.erase i) (l.toList.eraseIdx i) := by
  have hlen : (l.erase i).len = l.len - 1 := by rw [PackedList.erase, if_pos hi]
  have hi' : i < l.toList.length := by simpa using hi
  refine ⟨h.erase i, by rw [PackedList.erase, if_pos hi], by rw [PackedList.erase, if_pos hi],
    toList_eq_iff.mpr ⟨by rw [hlen, List.length_eraseIdx_of_lt hi', length_toList], ?_⟩⟩
  intro j hj
  simp only [List.length_eraseIdx_of_lt hi', length_toList] at hj
  rw [read_erase h hi (by omega), List.getElem_eraseIdx]
  by_cases hlt : j < i
  · simp [hlt]
  · simp [hlt]

/-- Removing item `i` returns it and closes its field; it fails exactly past the end. -/
theorem removeAt_ok (h : l.Valid) {i : Nat} {v : UInt64} (hr : l.removeAt i = .ok (v, l')) :
    l.toList[i]? = some v ∧ Becomes l l' (l.toList.eraseIdx i) := by
  obtain ⟨w, hg, hr⟩ := ok_of_bind_ok hr
  unfold get at hg
  split at hg
  · rename_i hi
    cases hg
    cases hr
    exact ⟨by simp [hi], becomes_erase h hi⟩
  · cases hg

/-- **Truncating to `n` items keeps the first `n`.** -/
theorem becomes_truncate (h : l.Valid) {n : Nat} (hn : n ≤ l.len) :
    Becomes l (l.truncate n) (l.toList.take n) := by
  refine ⟨h.truncate n, rfl, rfl, toList_eq_iff.mpr ⟨?_, fun j hj => ?_⟩⟩
  · show n = _
    simp [hn]
  · simp only [List.length_take, length_toList] at hj
    rw [read_truncate h (by omega), List.getElem_take, getElem_toList]

/-- Setting the length truncates or pads with the default. -/
theorem becomes_setLen (h : l.Valid) {n : Nat} (hs : l.setLen n = .ok l') :
    Becomes l l' (l.toList.take n ++ List.replicate (n - l.len) l.default) := by
  unfold setLen at hs
  split at hs
  · rename_i hn
    rw [List.take_of_length_le (by simp; omega)]
    exact becomes_growTo h (by omega) hs
  · rename_i hn
    cases hs
    rw [show n - l.len = 0 by omega, List.replicate_zero, List.append_nil]
    exact becomes_truncate h (by omega)

/-- **Popping** returns the last item and drops it. -/
theorem becomes_pop (h : l.Valid) :
    l.pop.1 = l.toList.getLast? ∧ Becomes l l.pop.2 l.toList.dropLast := by
  unfold pop
  split
  · rename_i hn
    have hnil : l.toList = [] := List.eq_nil_of_length_eq_zero (by simpa using hn)
    have hrefl := Becomes.refl h
    rw [hnil] at hrefl ⊢
    exact ⟨rfl, hrefl⟩
  · rename_i hn
    refine ⟨?_, ?_⟩
    · rw [List.getLast?_eq_getElem?, length_toList, List.getElem?_eq_getElem (by simp; omega),
        getElem_toList]
    · rw [List.dropLast_eq_take, length_toList]
      exact becomes_truncate h (by omega)

/-- Clearing removes every item. -/
theorem becomes_clear (h : l.Valid) : Becomes l l.clear [] :=
  ⟨h.clear, rfl, rfl, toList_eq_iff.mpr ⟨rfl, fun _ hj => absurd hj (Nat.not_lt_zero _)⟩⟩

/-! ### Storage -/

/-- Fitting the storage keeps the items. -/
theorem becomes_fit (h : l.Valid) : Becomes l l.fit l.toList :=
  ⟨h.fit, rfl, rfl, toList_eq_iff.mpr ⟨by simp [fit], fun j hj => by
    rw [getElem_toList, read_fit h (by simpa using hj)]⟩⟩

/-- Making room for more items keeps the items. -/
theorem becomes_reserve (h : l.Valid) {n : Nat} (hr : l.reserve n = .ok l') :
    Becomes l l' l.toList := by
  unfold reserve at hr
  split at hr
  · cases hr
  · exact becomes_reserveFor h hr

/-- Adding values one by one appends them, each cut to the width. -/
theorem becomes_foldlM_add (h : l.Valid) {vs : List UInt64}
    (he : vs.foldlM (fun l v => l.add v) l = .ok l') :
    Becomes l l' (l.toList ++ vs.map (· &&& l.mask)) := by
  induction vs generalizing l with
  | nil =>
    cases he
    simpa using Becomes.refl h
  | cons v vs ih =>
    rw [List.foldlM_cons] at he
    obtain ⟨l₁, hadd, hrest⟩ := ok_of_bind_ok he
    have h₁ := becomes_add h hadd
    have h₂ := ih h₁.valid hrest
    rw [h₁.toList_eq, h₁.mask_eq, List.append_assoc] at h₂
    exact h₁.trans h₂

/-- **Extending appends the values**, each cut to the width. -/
theorem becomes_extend (h : l.Valid) {vs : List UInt64} (he : l.extend vs = .ok l') :
    Becomes l l' (l.toList ++ vs.map (· &&& l.mask)) := by
  obtain ⟨l₁, hr, he⟩ := ok_of_bind_ok he
  have h₁ := becomes_reserve h hr
  have h₂ := becomes_foldlM_add h₁.valid he
  rw [h₁.toList_eq, h₁.mask_eq] at h₂
  exact h₁.trans h₂

/-! ### Searching -/

/-- No item has a bit beyond the width. -/
theorem and_not_mask_of_mem_toList (h : l.Valid) {x : UInt64} (hx : x ∈ l.toList) :
    x &&& ~~~l.mask = 0 := by
  rw [← and_mask_of_mem_toList h hx]
  refine eq_of_bit_eq fun k _ => ?_
  simp only [bit_and, bit_not, bit_zero]
  cases bit l.mask k <;> simp

/-- A value wider than the items is none of them. -/
theorem not_mem_toList_of_wide (h : l.Valid) {v : UInt64} (hv : (v &&& ~~~l.mask != 0) = true) :
    v ∉ l.toList := fun hmem => by
  simp [and_not_mask_of_mem_toList h hmem] at hv

/-- **The first position of a value**, as the array finds it; a value wider than the items is
never found. -/
theorem indexOf_eq (h : l.Valid) (v : UInt64) : l.indexOf v = l.toList.idxOf? v := by
  unfold indexOf
  split
  · rename_i hv
    exact (List.idxOf?_eq_none_iff.mpr (not_mem_toList_of_wide h hv)).symm
  · ext i
    rw [List.find?_range_eq_some, List.idxOf?_eq_some_iff]
    simp only [beq_iff_eq, List.mem_range, Bool.not_eq_true', beq_eq_false_iff_ne, ne_eq,
      length_toList, getElem_toList]
    constructor
    · rintro ⟨hi, hlt, hfirst⟩
      exact ⟨hlt, hi, hfirst⟩
    · rintro ⟨hlt, hi, hfirst⟩
      exact ⟨hi, hlt, hfirst⟩

/-- Searching the positions from the last down finds the last position of a value. -/
theorem find?_reverse_range (f : Nat → UInt64) (v : UInt64) (n : Nat) :
    (List.range n).reverse.find? (fun i => f i == v) = lastIdxOf? v ((List.range n).map f) := by
  induction n with
  | zero => rfl
  | succ n ih =>
    rw [lastIdxOf?, List.range_succ, List.reverse_append, List.map_append, List.reverse_append]
    simp only [List.reverse_singleton, List.map_singleton, List.singleton_append, List.find?_cons,
      List.idxOf?_cons, List.length_append, List.length_map, List.length_range,
      List.length_singleton]
    cases hfn : f n == v
    · -- the last position does not hold `v`: the search goes on below it
      rw [ih, lastIdxOf?, List.length_map, List.length_range]
      simp only [Bool.false_eq_true, if_false, Option.map_map]
      congr 1
      funext k
      simp only [Function.comp_apply]
      omega
    · simp

/-- **The last position of a value**, as the array finds it; a value wider than the items is
never found. -/
theorem lastIndexOf_eq (h : l.Valid) (v : UInt64) : l.lastIndexOf v = lastIdxOf? v l.toList := by
  unfold lastIndexOf
  split
  · rename_i hv
    have hnone : l.toList.reverse.idxOf? v = none :=
      List.idxOf?_eq_none_iff.mpr (by simpa using not_mem_toList_of_wide h hv)
    rw [lastIdxOf?, hnone]
    rfl
  · exact find?_reverse_range l.read v l.len

/-- **Removing a value** removes its first occurrence and tells whether there was one. -/
theorem removeValue_ok (h : l.Valid) {v : UInt64} {b : Bool}
    (hr : l.removeValue v = .ok (b, l')) :
    b = l.toList.contains v ∧ Becomes l l' (l.toList.erase v) := by
  unfold removeValue at hr
  split at hr
  · -- found at its first position `i`: removing it there erases the first occurrence
    rename_i i hi
    rw [indexOf_eq h] at hi
    obtain ⟨⟨w, l₁⟩, hra, hr⟩ := ok_of_bind_ok hr
    cases hr
    have hmem : v ∈ l.toList := List.isSome_idxOf?.mp (by simp [hi])
    refine ⟨by simp [hmem], ?_⟩
    rw [List.erase_eq_eraseIdx, hi]
    exact (removeAt_ok h hra).2
  · rename_i hi
    cases hr
    rw [indexOf_eq h] at hi
    have hnot : v ∉ l.toList := List.idxOf?_eq_none_iff.mp hi
    refine ⟨by simp [hnot], ?_⟩
    rw [List.erase_of_not_mem hnot]
    exact Becomes.refl h

end CompactCollections.PackedList
