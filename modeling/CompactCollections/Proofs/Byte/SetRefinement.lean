import Mathlib.Data.FinEnum
import Mathlib.Data.Finset.Card
import CompactCollections.Proofs.Byte.ByteSet
/-!
# A byte set is a finite set of bytes

Every byte set a program can build, by any history of insertions, removals, changes to the
null element, clears and extensions, behaves as the finite set of bytes, with its null flag,
that the same history builds (`CompactCollections.ByteSet.Reachable.actsAsSet`):

* a byte is a member exactly when it is in the set, the null flag is the set's;
* the length is the number of bytes in the set, the rank of a byte the number of them at or
  below it;
* `nextKey` and `prevKey` give the least member at or above, the greatest at or below, a byte,
  and `first` and `last` the least and greatest members, `none` where there is none;
* the listing goes through the set ascending;
* the set is empty exactly when it has no byte and no null element;
* insertions and removals answer whether they changed membership.

Each comes from `CompactCollections.ByteSet.Represents`, which every operation keeps.
-/

namespace CompactCollections.ByteSet

open CompactCollections.Stream

/-! ### Operations on a byte set and on a finite set -/

/-- The operations that change a byte set: adding and removing a byte or the null element,
clearing, and adding a list of bytes. -/
inductive Op where
  | insert (k : UInt8)
  | remove (k : UInt8)
  | insertNull
  | removeNull
  | clear
  | insertAll (ks : List UInt8)

/-- Runs an operation, with its answer where it gives one. -/
def Op.run : Op → ByteSet → Option Bool × ByteSet
  | .insert k, s => Prod.map some id (s.insert k)
  | .remove k, s => Prod.map some id (s.remove k)
  | .insertNull, s => Prod.map some id s.insertNull
  | .removeNull, s => Prod.map some id s.removeNull
  | .clear, s => (none, s.clear)
  | .insertAll ks, s => (none, s.insertAll ks)

/-- What an operation answers and leaves on a finite set of bytes with a null flag: each
addition or removal answers whether it changed membership. -/
def Op.onSet : Op → Finset UInt8 × Bool → Option Bool × (Finset UInt8 × Bool)
  | .insert k, (S, n) => (some (decide (k ∉ S)), (Insert.insert k S, n))
  | .remove k, (S, n) => (some (decide (k ∈ S)), (S.erase k, n))
  | .insertNull, (S, n) => (some !n, (S, true))
  | .removeNull, (S, n) => (some n, (S, false))
  | .clear, _ => (none, (∅, false))
  | .insertAll ks, (S, n) => (none, (S ∪ ks.toFinset, n))

/-- The byte sets a program can build, each with the finite set its history builds: the empty
set, then any operations. -/
inductive Reachable : ByteSet → Finset UInt8 × Bool → Prop
  | empty : Reachable ByteSet.empty (∅, false)
  | step {s : ByteSet} {A : Finset UInt8 × Bool} (op : Op) :
      Reachable s A → Reachable (op.run s).2 (op.onSet A).2

/-! ### The invariant -/

/-- **A byte set stands for a finite set of bytes with a null flag**: it is well-formed, its
members are the bytes of the set and its null flag is the set's. -/
structure Represents (s : ByteSet) (A : Finset UInt8 × Bool) : Prop where
  wellFormed : s.WellFormed
  contains_iff : ∀ k, s.contains k = true ↔ k ∈ A.1
  hasNull_eq : s.hasNull = A.2

variable {s : ByteSet} {A : Finset UInt8 × Bool}

theorem Represents.contains_eq (h : s.Represents A) (k : UInt8) :
    s.contains k = decide (k ∈ A.1) := by
  rw [Bool.eq_iff_iff, decide_eq_true_iff]
  exact h.contains_iff k

theorem Represents.contains_eq_false_iff (h : s.Represents A) (k : UInt8) :
    s.contains k = false ↔ k ∉ A.1 := by
  rw [← Bool.not_eq_true, h.contains_iff]

theorem represents_empty : empty.Represents (∅, false) where
  wellFormed := wellFormed_empty
  contains_iff k := by
    rw [contains_eq_testBit, testBit_empty_words]
    simp
  hasNull_eq := rfl

theorem Represents.insert (h : s.Represents A) (k : UInt8) :
    (s.insert k).1 = decide (k ∉ A.1) ∧
      (s.insert k).2.Represents (Insert.insert k A.1, A.2) := by
  refine ⟨by rw [insert_fst, h.contains_eq, decide_not],
    ⟨h.wellFormed.insert k, fun j => ?_, by rw [hasNull_insert, h.hasNull_eq]⟩⟩
  rw [contains_insert h.wellFormed, Finset.mem_insert]
  by_cases hj : j = k
  · simp [hj]
  · simp [hj, h.contains_iff]

theorem Represents.remove (h : s.Represents A) (k : UInt8) :
    (s.remove k).1 = decide (k ∈ A.1) ∧ (s.remove k).2.Represents (A.1.erase k, A.2) := by
  refine ⟨by rw [remove_fst, h.contains_eq],
    ⟨h.wellFormed.remove k, fun j => ?_, by rw [hasNull_remove, h.hasNull_eq]⟩⟩
  rw [contains_remove h.wellFormed, Finset.mem_erase]
  by_cases hj : j = k
  · simp [hj]
  · simp [hj, h.contains_iff]

/-- Adding a list of bytes adds each in turn. -/
theorem Represents.insertAll (h : s.Represents A) (ks : List UInt8) :
    (s.insertAll ks).Represents (A.1 ∪ ks.toFinset, A.2) := by
  -- the induction runs along the list, the set growing by one byte a step
  induction ks generalizing s A with
  | nil => simpa [ByteSet.insertAll] using h
  | cons k ks ih =>
    have hstep := ih (h.insert k).2
    rw [show A.1 ∪ (k :: ks).toFinset = Insert.insert k A.1 ∪ ks.toFinset by
      rw [List.toFinset_cons, Finset.union_insert, Finset.insert_union]]
    exact hstep

/-- **Every operation answers and changes as on the finite set a byte set stands for.** -/
theorem Represents.run (h : s.Represents A) (op : Op) :
    (op.run s).1 = (op.onSet A).1 ∧ (op.run s).2.Represents (op.onSet A).2 := by
  obtain ⟨S, n⟩ := A
  cases op with
  | insert k =>
    obtain ⟨hanswer, hrep⟩ := h.insert k
    exact ⟨by simp [Op.run, Op.onSet, hanswer], hrep⟩
  | remove k =>
    obtain ⟨hanswer, hrep⟩ := h.remove k
    exact ⟨by simp [Op.run, Op.onSet, hanswer], hrep⟩
  -- the null flag lives beside the words, which stay as they are
  | insertNull =>
    exact ⟨by simp [Op.run, Op.onSet, insertNull, h.hasNull_eq],
      ⟨⟨h.wellFormed.size_words, h.wellFormed.len_eq⟩, h.contains_iff, rfl⟩⟩
  | removeNull =>
    exact ⟨by simp [Op.run, Op.onSet, removeNull, h.hasNull_eq],
      ⟨⟨h.wellFormed.size_words, h.wellFormed.len_eq⟩, h.contains_iff, rfl⟩⟩
  | clear => exact ⟨rfl, represents_empty⟩
  | insertAll ks => exact ⟨rfl, h.insertAll ks⟩

theorem Reachable.represents (h : s.Reachable A) : s.Represents A := by
  induction h with
  | empty => exact represents_empty
  | step op _ ih => exact (ih.run op).2

/-! ### Counting -/

/-- Counting the bytes below `n` whose numbers pass a test counts those numbers. -/
theorem card_filter_toNat (f : Nat → Bool) {n : Nat} (hn : n ≤ 256) :
    (Finset.univ.filter fun k : UInt8 => k.toNat < n ∧ f k.toNat = true).card =
      (List.range n).countP f := by
  -- the numbers of the bytes are the numbers below `n` that pass
  have himage : (Finset.univ.filter fun k : UInt8 => k.toNat < n ∧ f k.toNat = true).map
      ⟨UInt8.toNat, fun _ _ hab => UInt8.toNat_inj.mp hab⟩ =
        (Finset.range n).filter fun i => f i = true := by
    ext i
    simp only [Finset.mem_map, Finset.mem_filter, Finset.mem_univ, true_and, Finset.mem_range]
    constructor
    · rintro ⟨k, hk, rfl⟩
      exact hk
    · rintro hi
      exact ⟨UInt8.ofNat i, by rwa [toNat_ofNat (by omega)], toNat_ofNat (by omega)⟩
  rw [← Finset.card_map, himage]
  simp [Finset.card, Finset.filter_val, Multiset.range, List.countP_eq_length_filter]

theorem Represents.len_eq (h : s.Represents A) : s.len = A.1.card := by
  rw [h.wellFormed.len_eq, ← card_filter_toNat _ le_rfl]
  congr 1
  ext k
  simp [← h.contains_iff, contains_eq_testBit, toNat_lt k]

theorem Represents.rank_eq (h : s.Represents A) (k : UInt8) :
    s.rank k = (A.1.filter (· ≤ k)).card := by
  rw [ByteSet.rank_eq, ← card_filter_toNat _ (Nat.succ_le_of_lt (toNat_lt k))]
  congr 1
  ext y
  simp only [Finset.mem_filter, Finset.mem_univ, true_and, ← h.contains_iff,
    contains_eq_testBit, UInt8.le_iff_toNat_le]
  constructor
  · rintro ⟨hy, hset⟩
    exact ⟨hset, by omega⟩
  · rintro ⟨hset, hy⟩
    exact ⟨by omega, hset⟩

/-! ### The nearest members -/

/-- **`nextKey` finds the least member at or above a byte.** -/
theorem Represents.nextKey_eq_some_iff (h : s.Represents A) (k x : UInt8) :
    s.nextKey k = some x ↔ x ∈ A.1 ∧ k ≤ x ∧ ∀ y ∈ A.1, k ≤ y → x ≤ y := by
  rw [ByteSet.nextKey_eq_some_iff, h.contains_iff]
  refine and_congr_right fun _ => and_congr_right fun _ => forall_congr' fun y => ?_
  rw [← UInt8.not_le, h.contains_eq_false_iff]
  tauto

theorem Represents.nextKey_eq_none_iff (h : s.Represents A) (k : UInt8) :
    s.nextKey k = none ↔ ∀ y ∈ A.1, y < k := by
  rw [ByteSet.nextKey_eq_none_iff]
  refine forall_congr' fun y => ?_
  rw [← UInt8.not_le, h.contains_eq_false_iff]
  tauto

/-- **`prevKey` finds the greatest member at or below a byte.** -/
theorem Represents.prevKey_eq_some_iff (h : s.Represents A) (k x : UInt8) :
    s.prevKey k = some x ↔ x ∈ A.1 ∧ x ≤ k ∧ ∀ y ∈ A.1, y ≤ k → y ≤ x := by
  rw [ByteSet.prevKey_eq_some_iff, h.contains_iff]
  refine and_congr_right fun _ => and_congr_right fun _ => forall_congr' fun y => ?_
  rw [← UInt8.not_le, h.contains_eq_false_iff]
  tauto

theorem Represents.prevKey_eq_none_iff (h : s.Represents A) (k : UInt8) :
    s.prevKey k = none ↔ ∀ y ∈ A.1, k < y := by
  rw [ByteSet.prevKey_eq_none_iff]
  refine forall_congr' fun y => ?_
  rw [← UInt8.not_le, h.contains_eq_false_iff]
  tauto

/-- No byte lies above 255. -/
theorem le_255 (k : UInt8) : k ≤ 255 := by
  rw [UInt8.le_iff_toNat_le]
  have := toNat_lt k
  simp only [UInt8.reduceToNat]
  omega

theorem Represents.first_eq_some_iff (h : s.Represents A) (x : UInt8) :
    s.first = some x ↔ x ∈ A.1 ∧ ∀ y ∈ A.1, x ≤ y := by
  rw [first, h.nextKey_eq_some_iff]
  simp [UInt8.zero_le]

theorem Represents.first_eq_none_iff (h : s.Represents A) : s.first = none ↔ A.1 = ∅ := by
  rw [first, h.nextKey_eq_none_iff, Finset.eq_empty_iff_forall_notMem]
  refine forall_congr' fun y => ⟨fun hy hmem => ?_, fun hy hmem => absurd hmem hy⟩
  exact UInt8.not_lt.mpr UInt8.zero_le (hy hmem)

theorem Represents.last_eq_some_iff (h : s.Represents A) (x : UInt8) :
    s.last = some x ↔ x ∈ A.1 ∧ ∀ y ∈ A.1, y ≤ x := by
  rw [last, h.prevKey_eq_some_iff]
  simp [le_255]

theorem Represents.last_eq_none_iff (h : s.Represents A) : s.last = none ↔ A.1 = ∅ := by
  rw [last, h.prevKey_eq_none_iff, Finset.eq_empty_iff_forall_notMem]
  refine forall_congr' fun y => ⟨fun hy hmem => ?_, fun hy hmem => absurd hmem hy⟩
  exact UInt8.not_lt.mpr (le_255 y) (hy hmem)

/-! ### Listing and emptiness -/

theorem Represents.mem_toList (h : s.Represents A) (k : UInt8) : k ∈ s.toList ↔ k ∈ A.1 := by
  rw [ByteSet.mem_toList, h.contains_iff]

theorem Represents.isEmpty_iff (h : s.Represents A) :
    s.isEmpty = true ↔ A.1 = ∅ ∧ A.2 = false := by
  rw [isEmpty, Bool.and_eq_true, beq_iff_eq, h.len_eq, Finset.card_eq_zero, Bool.not_eq_true',
    h.hasNull_eq]

/-! ### Every reachable byte set is a finite set -/

/-- **A byte set that behaves as the finite set `A` of bytes with a null flag.** Its operations
answer as on `A`; its members and null flag are those of `A`; its length counts `A` and its rank
of a byte the members at or below it; its scans find the nearest members of `A`, and `first`
and `last` the least and greatest; its listing goes through `A` ascending; and it is empty
exactly when `A` has no byte and no null element. -/
structure ActsAsSet (s : ByteSet) (A : Finset UInt8 × Bool) : Prop where
  answer_eq : ∀ op : Op, (op.run s).1 = (op.onSet A).1
  contains_iff : ∀ k, s.contains k = true ↔ k ∈ A.1
  hasNull_eq : s.hasNull = A.2
  len_eq : s.len = A.1.card
  rank_eq : ∀ k, s.rank k = (A.1.filter (· ≤ k)).card
  nextKey_eq_some_iff : ∀ k x, s.nextKey k = some x ↔ x ∈ A.1 ∧ k ≤ x ∧ ∀ y ∈ A.1, k ≤ y → x ≤ y
  nextKey_eq_none_iff : ∀ k, s.nextKey k = none ↔ ∀ y ∈ A.1, y < k
  prevKey_eq_some_iff : ∀ k x, s.prevKey k = some x ↔ x ∈ A.1 ∧ x ≤ k ∧ ∀ y ∈ A.1, y ≤ k → y ≤ x
  prevKey_eq_none_iff : ∀ k, s.prevKey k = none ↔ ∀ y ∈ A.1, k < y
  first_eq_some_iff : ∀ x, s.first = some x ↔ x ∈ A.1 ∧ ∀ y ∈ A.1, x ≤ y
  first_eq_none_iff : s.first = none ↔ A.1 = ∅
  last_eq_some_iff : ∀ x, s.last = some x ↔ x ∈ A.1 ∧ ∀ y ∈ A.1, y ≤ x
  last_eq_none_iff : s.last = none ↔ A.1 = ∅
  toList_sorted : s.toList.Pairwise (· < ·)
  mem_toList : ∀ k, k ∈ s.toList ↔ k ∈ A.1
  isEmpty_iff : s.isEmpty = true ↔ A.1 = ∅ ∧ A.2 = false

/-- **Every reachable byte set behaves as the finite set its history builds**, over any history
of insertions, removals, changes to the null element, clears and extensions. -/
theorem Reachable.actsAsSet (h : s.Reachable A) : s.ActsAsSet A := by
  have hs := h.represents
  exact ⟨fun op => (hs.run op).1, hs.contains_iff, hs.hasNull_eq, hs.len_eq, hs.rank_eq,
    hs.nextKey_eq_some_iff, hs.nextKey_eq_none_iff, hs.prevKey_eq_some_iff,
    hs.prevKey_eq_none_iff, hs.first_eq_some_iff, hs.first_eq_none_iff, hs.last_eq_some_iff,
    hs.last_eq_none_iff, pairwise_toList s, hs.mem_toList, hs.isEmpty_iff⟩

/-- Two bytes added, the lesser removed again and the null element added: the set holds `200`
and the null element, and behaves so. -/
theorem twoBytes_remove_actsAsSet :
    ((((empty.insertAll [3, 200]).remove 3).2.insertNull).2).Reachable ({200}, true) ∧
      ((((empty.insertAll [3, 200]).remove 3).2.insertNull).2).ActsAsSet ({200}, true) := by
  have h := ((Reachable.empty.step (.insertAll [3, 200])).step (.remove 3)).step .insertNull
  have hset : ((∅ ∪ [(3 : UInt8), 200].toFinset).erase 3) = {200} := by decide
  simp only [Op.run, Op.onSet, Prod.map, id, hset] at h
  exact ⟨h, Reachable.actsAsSet h⟩

end CompactCollections.ByteSet
