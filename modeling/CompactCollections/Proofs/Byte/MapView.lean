import Mathlib.Logic.Function.Basic
import CompactCollections.Proofs.Dense
import CompactCollections.Proofs.Byte.ByteSet
import CompactCollections.Byte.ByteMap
/-!
# The map a byte map stands for

A byte map stands for a finite map from bytes and the null key to values
(`CompactCollections.ByteMap.lookup`): a byte's value is read at its dense index, the null key's
from its own field. `CompactCollections.ByteMap.Represents m F` says how the parts of `m` hold a
map `F`: byte `k` is a key exactly when `F (some k)` is a value, the dense array lists those
values in ascending key order, and the null field and the null flag of the key set both follow
`F none`. Then:

* `m` reads back `F` (`CompactCollections.ByteMap.Represents.lookup_eq`);
* each operation answers what `F` held at its key and leaves a map that stands for `F` updated
  there (`CompactCollections.ByteMap.Represents.insert` and its siblings).

The dense index of a key is the number of keys below it, so storing or removing a byte key is
one change of the dense list at that index (`CompactCollections.Dense`).
-/

namespace CompactCollections.ByteMap

open CompactCollections.Stream CompactCollections.ByteSet

variable {V : Type}

/-- **The finite map a byte map stands for**: a byte's value at its dense index, the null key's
value in its own field. -/
def lookup (m : ByteMap V) : Option UInt8 → Option V
  | some k => m.get? k
  | none => m.null

/-- What each byte holds under a map, ascending. -/
def bytePositions (F : Option UInt8 → Option V) : List (Option V) :=
  allBytes.map fun k => F (some k)

/-- **The parts of a byte map hold the map `F`**: the key set is well formed and has the bytes
where `F` has a value, the dense array lists those values in ascending key order, and the null
field and the null flag follow `F none`. -/
structure Represents (m : ByteMap V) (F : Option UInt8 → Option V) : Prop where
  wellFormed : m.keys.WellFormed
  contains_eq : ∀ k, m.keys.contains k = (F (some k)).isSome
  values_eq : m.values.toList = allBytes.filterMap fun k => F (some k)
  null_eq : m.null = F none
  hasNull_eq : m.keys.hasNull = (F none).isSome

/-! ### The byte positions of a map -/

section Positions

variable {F : Option UInt8 → Option V}

theorem getElem?_bytePositions (k : UInt8) : (bytePositions F)[k.toNat]? = some (F (some k)) := by
  rw [bytePositions, List.getElem?_map, allBytes, List.getElem?_map,
    List.getElem?_range (toNat_lt k), Option.map_some, Option.map_some, UInt8.ofNat_toNat]

theorem filterMap_bytePositions (F : Option UInt8 → Option V) :
    (bytePositions F).filterMap id = allBytes.filterMap fun k => F (some k) := by
  rw [bytePositions, List.filterMap_map]
  rfl

/-- Writing the position of byte `k` is updating the map at `k`. -/
theorem set_bytePositions (k : UInt8) (y : Option V) :
    (bytePositions F).set k.toNat y = bytePositions (Function.update F (some k) y) := by
  refine List.ext_getElem (by simp [bytePositions]) fun i h₁ h₂ => ?_
  have hi : i < 256 := by simpa [bytePositions, allBytes] using h₂
  simp only [List.getElem_set, bytePositions, allBytes, List.getElem_map, List.getElem_range,
    Function.update_apply, Option.some.injEq]
  -- byte `i` is `k` exactly when `i` is the number of `k`
  have hik : (UInt8.ofNat i = k) ↔ (k.toNat = i) := by
    rw [← UInt8.toNat_inj, toNat_ofNat hi, eq_comm]
  by_cases hk : k.toNat = i
  · rw [if_pos hk, if_pos (hik.mpr hk)]
  · rw [if_neg hk, if_neg (mt hik.mp hk)]

end Positions

/-! ### Reading -/

section Reading

variable {m : ByteMap V} {F : Option UInt8 → Option V}

/-- Below a byte, the positions holding values are the set bits. -/
theorem Represents.countP_take (h : m.Represents F) {i : Nat} (hi : i ≤ 256) :
    ((bytePositions F).take i).countP Option.isSome =
      (List.range i).countP (testBit m.keys.words) := by
  rw [bytePositions, allBytes, List.map_map, ← List.map_take, List.take_range,
    Nat.min_eq_left hi, List.countP_map]
  refine List.countP_congr fun j hj => ?_
  have hj' : j < 256 := by have := List.mem_range.mp hj; omega
  simp only [Function.comp_apply]
  rw [← h.contains_eq, contains_eq_testBit, toNat_ofNat hj']

/-- **The dense index of a key is the number of keys below it.** -/
theorem Represents.denseIndex_of_some (h : m.Represents F) {k : UInt8} {w : V}
    (hk : F (some k) = some w) :
    m.denseIndex k = some (((bytePositions F).take k.toNat).countP Option.isSome) := by
  have hkey : m.keys.contains k = true := by rw [h.contains_eq, hk]; rfl
  have hbit : testBit m.keys.words k.toNat = true := by rw [← contains_eq_testBit, hkey]
  rw [denseIndex, if_pos hkey]
  -- the rank counts the keys below `k`, and `k` itself
  rw [rank_eq, List.range_succ, List.countP_append, h.countP_take (Nat.le_of_lt (toNat_lt k))]
  simp [hbit]

theorem Represents.denseIndex_of_none (h : m.Represents F) {k : UInt8}
    (hk : F (some k) = none) : m.denseIndex k = none := by
  rw [denseIndex, h.contains_eq, hk]
  rfl

/-- A key's value sits at its dense index. -/
theorem Represents.getElem?_values (h : m.Represents F) {k : UInt8} {v : V}
    (hk : F (some k) = some v) :
    m.values[((bytePositions F).take k.toNat).countP Option.isSome]? = some v := by
  rw [← Array.getElem?_toList, h.values_eq, ← filterMap_bytePositions]
  exact Dense.getElem?_filterMap (by rw [getElem?_bytePositions, hk])

theorem Represents.get?_eq (h : m.Represents F) (k : UInt8) : m.get? k = F (some k) := by
  cases hF : F (some k) with
  | none => rw [get?, h.denseIndex_of_none hF]; rfl
  | some v => rw [get?, h.denseIndex_of_some hF]; exact h.getElem?_values hF

/-- **A byte map reads back the map its parts hold.** -/
theorem Represents.lookup_eq (h : m.Represents F) : m.lookup = F := by
  funext x
  cases x with
  | none => exact h.null_eq
  | some k => exact h.get?_eq k

end Reading

/-! ### Updating the map -/

section Updating

variable {m m' : ByteMap V} {F : Option UInt8 → Option V}

/-- A byte map that changes the keys and values of `m` at byte `k` alone, as the map updated
there says, stands for that update. -/
theorem Represents.update (h : m.Represents F) {k : UInt8} {y : Option V}
    (hwf : m'.keys.WellFormed)
    (hcontains : ∀ j, m'.keys.contains j = if j = k then y.isSome else m.keys.contains j)
    (hvalues : m'.values.toList = ((bytePositions F).set k.toNat y).filterMap id)
    (hnull : m'.null = m.null) (hhasNull : m'.keys.hasNull = m.keys.hasNull) :
    m'.Represents (Function.update F (some k) y) where
  wellFormed := hwf
  contains_eq j := by
    rw [hcontains, h.contains_eq, Function.update_apply]
    by_cases hj : j = k
    · rw [if_pos hj, if_pos (by rw [hj])]
    · rw [if_neg hj, if_neg (by simpa using hj)]
  values_eq := by rw [hvalues, set_bytePositions, filterMap_bytePositions]
  null_eq := by rw [hnull, h.null_eq, Function.update_of_ne (by simp)]
  hasNull_eq := by rw [hhasNull, h.hasNull_eq, Function.update_of_ne (by simp)]

/-- A byte map that keeps the keys and values of `m` and holds `y` under the null key stands for
the map updated at the null key. -/
theorem Represents.updateNull (h : m.Represents F) {y : Option V}
    (hwords : m'.keys.words = m.keys.words) (hlen : m'.keys.len = m.keys.len)
    (hvalues : m'.values = m.values) (hnull : m'.null = y) (hhasNull : m'.keys.hasNull = y.isSome) :
    m'.Represents (Function.update F none y) where
  wellFormed := ⟨by rw [hwords]; exact h.wellFormed.size_words,
    by rw [hwords, hlen]; exact h.wellFormed.len_eq⟩
  contains_eq j := by
    rw [contains_eq_testBit, hwords, ← contains_eq_testBit, h.contains_eq,
      Function.update_of_ne (by simp)]
  values_eq := by rw [hvalues, h.values_eq]; rfl
  null_eq := by rw [hnull, Function.update_self]
  hasNull_eq := by rw [hhasNull, Function.update_self]

end Updating

/-! ### Each operation -/

section Operations

variable {m : ByteMap V} {F : Option UInt8 → Option V}

/-- **Storing under a byte** answers its old value and stands for the map updated there: a key's
value is replaced at its dense index, a new key's value inserted at the number of keys below
it. -/
theorem Represents.insert (h : m.Represents F) (k : UInt8) (v : V) :
    (m.insert k v).1 = F (some k) ∧
      (m.insert k v).2.Represents (Function.update F (some k) (some v)) := by
  unfold ByteMap.insert
  cases hF : F (some k) with
  | some w =>
    have hpos : (bytePositions F)[k.toNat]? = some (some w) := by rw [getElem?_bytePositions, hF]
    rw [h.denseIndex_of_some hF]
    dsimp only
    refine ⟨h.getElem?_values hF, h.update h.wellFormed (fun j => ?_) ?_ rfl rfl⟩
    · by_cases hj : j = k
      · rw [if_pos hj, hj, h.contains_eq, hF]
        rfl
      · rw [if_neg hj]
    · rw [Array.toList_setIfInBounds, h.values_eq, ← filterMap_bytePositions,
        Dense.filterMap_set_of_some hpos]
  | none =>
    have hpos : (bytePositions F)[k.toNat]? = some none := by rw [getElem?_bytePositions, hF]
    rw [h.denseIndex_of_none hF]
    dsimp only
    -- after marking `k`, its rank counts the keys below it and itself
    have hrank : (m.keys.insert k).2.rank k - 1 =
        ((bytePositions F).take k.toNat).countP Option.isSome := by
      have hbelow : (List.range k.toNat).countP (testBit (m.keys.insert k).2.words) =
          (List.range k.toNat).countP (testBit m.keys.words) :=
        List.countP_congr fun p hp => by
          rw [testBit_insert h.wellFormed, decide_eq_false (by have := List.mem_range.mp hp; omega),
            Bool.false_or]
      rw [rank_eq, List.range_succ, List.countP_append, hbelow,
        h.countP_take (Nat.le_of_lt (toNat_lt k))]
      simp [testBit_insert h.wellFormed]
    -- the new value goes in at most at the end of the dense array
    have hle : ((bytePositions F).take k.toNat).countP Option.isSome ≤ m.values.size := by
      rw [← Array.length_toList, h.values_eq, ← filterMap_bytePositions,
        ← Dense.length_filterMap_take]
      exact ((List.take_sublist _ _).filterMap _).length_le
    refine ⟨rfl, h.update (h.wellFormed.insert k) (fun j => ?_) ?_ rfl (hasNull_insert)⟩
    · rw [contains_insert h.wellFormed]
      rfl
    · rw [hrank, Array.insertIdxIfInBounds, dif_pos hle, Array.toList_insertIdx, h.values_eq,
        ← filterMap_bytePositions, Dense.filterMap_set_of_none hpos]

/-- **Removing a byte** answers its value and stands for the map without it: a key's value is
erased from its dense index. -/
theorem Represents.take (h : m.Represents F) (k : UInt8) :
    (m.take k).1 = F (some k) ∧ (m.take k).2.Represents (Function.update F (some k) none) := by
  unfold ByteMap.take
  cases hF : F (some k) with
  | some w =>
    have hpos : (bytePositions F)[k.toNat]? = some (some w) := by rw [getElem?_bytePositions, hF]
    rw [h.denseIndex_of_some hF]
    dsimp only
    refine ⟨h.getElem?_values hF,
      h.update (h.wellFormed.remove k) (fun j => ?_) ?_ rfl (hasNull_remove)⟩
    · rw [contains_remove h.wellFormed]
      rfl
    · rw [Array.toList_eraseIdxIfInBounds, h.values_eq, ← filterMap_bytePositions,
        Dense.filterMap_set_none_of_some hpos]
  | none =>
    -- an absent byte: nothing changes, and the map already has nothing there
    rw [h.denseIndex_of_none hF]
    refine ⟨rfl, ?_⟩
    rw [← hF, Function.update_eq_self]
    exact h

/-- Storing under the null key answers its old value and stands for the map updated there. -/
theorem Represents.insertNull (h : m.Represents F) (v : V) :
    (m.insertNull v).1 = F none ∧
      (m.insertNull v).2.Represents (Function.update F none (some v)) :=
  ⟨h.null_eq, h.updateNull rfl rfl rfl rfl rfl⟩

/-- Removing the null key answers its value and stands for the map without it. -/
theorem Represents.takeNull (h : m.Represents F) :
    m.takeNull.1 = F none ∧ m.takeNull.2.Represents (Function.update F none none) :=
  ⟨h.null_eq, h.updateNull rfl rfl rfl rfl rfl⟩

/-- **Rewriting a byte's value** answers the new value and stands for the map rewritten there;
an absent byte changes nothing. -/
theorem Represents.modify (h : m.Represents F) (k : UInt8) (f : V → V) :
    (m.modify k f).1 = (F (some k)).map f ∧
      (m.modify k f).2.Represents (Function.update F (some k) ((F (some k)).map f)) := by
  unfold ByteMap.modify
  rw [h.get?_eq]
  cases hF : F (some k) with
  | some w =>
    have hpos : (bytePositions F)[k.toNat]? = some (some w) := by rw [getElem?_bytePositions, hF]
    rw [h.denseIndex_of_some hF, Option.map_some]
    dsimp only
    refine ⟨rfl, h.update h.wellFormed (fun j => ?_) ?_ rfl rfl⟩
    · by_cases hj : j = k
      · rw [if_pos hj, hj, h.contains_eq, hF]
        rfl
      · rw [if_neg hj]
    · rw [Array.toList_setIfInBounds, h.values_eq, ← filterMap_bytePositions,
        Dense.filterMap_set_of_some hpos]
  | none =>
    rw [h.denseIndex_of_none hF]
    refine ⟨rfl, ?_⟩
    rw [Option.map_none, ← hF, Function.update_eq_self]
    exact h

/-- Clearing stands for the empty map. -/
theorem represents_clear (m : ByteMap V) : m.clear.Represents fun _ => none where
  wellFormed := wellFormed_empty
  contains_eq k := (contains_eq_testBit _ k).trans (testBit_empty_words k.toNat)
  values_eq := by rw [List.filterMap_eq_nil_iff.mpr fun _ _ => rfl]; rfl
  null_eq := rfl
  hasNull_eq := rfl

/-- **Storing a list of entries** stands for the map updated by each in turn. -/
theorem Represents.insertAll (h : m.Represents F) (es : List (UInt8 × V)) :
    (m.insertAll es).Represents
      (es.foldl (fun F e => Function.update F (some e.1) (some e.2)) F) := by
  induction es generalizing m F with
  | nil => exact h
  | cons e es ih => exact ih (h.insert e.1 e.2).2

end Operations

end CompactCollections.ByteMap
