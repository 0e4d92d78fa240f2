import Mathlib.Logic.Function.Basic
import CompactCollections.Proofs.Ranked
import CompactCollections.Session.Nullable
/-!
# A rank-indexed overlay is a finite partial map

An overlay (`CompactCollections.Ranked`) stands for the partial map from positions to values that
its lookup `get?` reads. Every overlay a caller can reach (`CompactCollections.Ranked.Reachable`)
behaves as that map (`CompactCollections.Ranked.RefinesPartialMap`):

* storing answers what the position held and maps it to the value, cut by the store; taking
  answers what it held and unmaps it; clearing empties the map (`CompactCollections.Ranked.Op.onMap`);
* a position is marked exactly when it is mapped, and the dense index of a mapped position is the
  number of mapped positions below it;
* the map is empty from the length of the presence bits on, and the dense store lists its values
  in ascending position order, one per mapped position, as many as the presence bits count.

Over an array every value is kept whole; over a packed list of width `w` every value is reduced
mod `2 ^ w` (`CompactCollections.Ranked.refinesPartialMap_of_reachable`).

All of it is read off `CompactCollections.Ranked.Represents`, the list of positions that every
operation keeps.
-/

namespace CompactCollections.Ranked

open LawfulDenseStore (Good cut)
open CompactCollections.Dense

variable {S α : Type} [DenseStore S α]

/-! ### Operations on an overlay and on a partial map -/

/-- The operations that change an overlay. -/
inductive Op (α : Type) where
  | put (i : Nat) (v : α)
  | take (i : Nat)
  | clear

/-- Applies an operation: the value it replaces or removes, and the overlay after it. -/
def Op.run : Op α → Ranked S → Except Stop (Option α × Ranked S)
  | .put i v, r => r.put i v
  | .take i, r => .ok (r.take i)
  | .clear, r => .ok (none, r.clear)

/-- **What an operation does to a partial map** whose stored values are cut by `c`: storing
answers the old value and maps the position to the cut value, taking answers the old value and
unmaps the position, clearing unmaps every position. -/
def Op.onMap (c : α → α) : Op α → (Nat → Option α) → Option α × (Nat → Option α)
  | .put i v, P => (P i, Function.update P i (some (c v)))
  | .take i, P => (P i, Function.update P i none)
  | .clear, _ => (none, fun _ => none)

/-! ### Positions read as a map -/

/-- The list of positions read at every position, nothing past its end. -/
theorem map_getD_range (xs : List (Option α)) :
    (List.range xs.length).map (fun j => xs.getD j none) = xs := by
  refine List.ext_getElem (by simp) fun j hj hj' => ?_
  rw [List.getElem_map, List.getElem_range, List.getD_eq_getElem?_getD,
    List.getElem?_eq_getElem hj', Option.getD_some]

/-- The present values of a list of positions, read position by position, ascending. -/
theorem filterMap_range_getD (xs : List (Option α)) :
    (List.range xs.length).filterMap (fun j => xs.getD j none) = xs.filterMap id := by
  conv => rhs; rw [← map_getD_range xs]
  rw [List.filterMap_map]
  rfl

/-- Writing nothing at a position unmaps it, also past the end. -/
theorem getD_set_none (xs : List (Option α)) (i q : Nat) :
    (xs.set i none).getD q none = if q = i then none else xs.getD q none := by
  rw [List.getD_eq_getElem?_getD, List.getElem?_set, List.getD_eq_getElem?_getD]
  by_cases hq : q = i
  · subst hq
    simp only [if_true]
    split <;> rfl
  · rw [if_neg (Ne.symm hq), if_neg hq]

variable [LawfulDenseStore S α] {r r' : Ranked S} {xs : List (Option α)}

namespace Represents

/-- The lookup of an overlay is the list of its positions read as a map. -/
theorem get?_fun (h : r.Represents xs) : r.get? = fun i => xs.getD i none :=
  funext h.get?_eq

/-- **A position is marked exactly when it is mapped.** -/
theorem contains_eq_isSome (h : r.Represents xs) (i : Nat) : r.contains i = (r.get? i).isSome := by
  rw [h.contains_eq, h.get?_eq]

/-- **The dense index of a mapped position is the number of mapped positions below it**; an
unmapped position has none. -/
theorem denseIndex_eq (h : r.Represents xs) (i : Nat) :
    r.denseIndex i =
      if (r.get? i).isSome then some ((List.range i).countP fun j => (r.get? j).isSome)
      else none := by
  rw [h.get?_fun]
  by_cases hs : (xs.getD i none).isSome
  · obtain ⟨v, hx⟩ := Option.isSome_iff_exists.mp hs
    rw [if_pos hs, h.denseIndex_of_some (getElem?_of_getD_eq_some hx), countP_range_getD]
  · rw [if_neg hs, h.denseIndex_of_none (Option.not_isSome_iff_eq_none.mp hs)]

/-- Nothing is mapped from the length of the presence bits on. -/
theorem get?_of_le (h : r.Represents xs) {j : Nat} (hj : r.presence.len ≤ j) : r.get? j = none := by
  rw [h.get?_eq, List.getD_eq_getElem?_getD, List.getElem?_eq_none (by rw [← h.len_eq]; exact hj)]
  rfl

/-- **The dense store lists the mapped values in ascending position order.** -/
theorem values_eq (h : r.Represents xs) :
    DenseStore.toList r.values = (List.range r.presence.len).filterMap r.get? := by
  rw [h.toList_eq, h.get?_fun, h.len_eq, filterMap_range_getD]

/-- The number of mapped positions, counted below the length of the presence bits. -/
theorem countP_range_isSome (h : r.Represents xs) :
    (List.range r.presence.len).countP (fun j => (r.get? j).isSome) = xs.countP Option.isSome := by
  rw [h.get?_fun, countP_range_getD, h.len_eq, List.take_of_length_le (Nat.le_refl _)]

/-- **The store holds one value per mapped position, as many as the presence bits count.** -/
theorem cardinality_eq_countP (h : r.Represents xs) :
    r.cardinality = r.presence.cardinality ∧
      r.presence.cardinality = (List.range r.presence.len).countP fun j => (r.get? j).isSome := by
  rw [h.cardinality_eq, h.presence_cardinality_eq, h.countP_range_isSome,
    List.length_filterMap_eq_countP]
  exact ⟨rfl, rfl⟩

end Represents

/-- **Each operation that succeeds** answers and changes the map as on a partial map, and keeps
the list of positions and the store's cut. -/
theorem Op.run_ok (h : r.Represents xs) {op : Op α} {a : Option α} (hr : op.run r = .ok (a, r')) :
    (∃ ys, r'.Represents ys) ∧ cut r'.values = cut r.values ∧
      (a, r'.get?) = op.onMap (cut r.values) r.get? := by
  cases op with
  | put i v =>
    obtain ⟨rfl, hr', hcut⟩ := Represents.put_ok h hr
    refine ⟨⟨_, hr'⟩, hcut, ?_⟩
    rw [Op.onMap, hr'.get?_fun, h.get?_fun]
    congr 1
    funext q
    rw [getD_setPadded, Function.update_apply]
  | take i =>
    have htake : r.take i = (a, r') := Except.ok.inj hr
    obtain ⟨ha, hr', hcut⟩ := Represents.take_spec h i
    rw [htake] at ha hr' hcut
    dsimp only at ha hr' hcut
    refine ⟨⟨_, hr'⟩, hcut, ?_⟩
    rw [Op.onMap, ha, hr'.get?_fun, h.get?_fun]
    congr 1
    funext q
    rw [getD_set_none, Function.update_apply]
  | clear =>
    cases hr
    obtain ⟨hr', hcut⟩ := Represents.clear h
    refine ⟨⟨_, hr'⟩, hcut, ?_⟩
    rw [Op.onMap, hr'.get?_fun]
    rfl

/-- **An operation fails only on a storage overflow**, of the presence bits or of the store. -/
theorem Op.run_error {op : Op α} {s : Stop} (hr : op.run r = .error s) : s.isOverflow := by
  cases op with
  | put i v => exact put_error hr
  | take i => cases hr
  | clear => cases hr

/-! ### Reachable overlays -/

/-- **The overlays a caller can reach**: an emptied store that keeps the store's invariant, then
any run of operations. -/
inductive Reachable : Ranked S → Prop
  | ofStore {s : S} : Good s → Reachable (ofStore s)
  | step {r r' : Ranked S} (op : Op α) {a : Option α} : Reachable r → op.run r = .ok (a, r') →
      Reachable r'

/-- Every reachable overlay holds some list of positions. -/
theorem Reachable.represents (h : r.Reachable) : ∃ xs, r.Represents xs := by
  induction h with
  | ofStore hs => exact ⟨[], (represents_ofStore hs).1⟩
  | step op _ hrun ih =>
    obtain ⟨xs, hxs⟩ := ih
    exact (Op.run_ok hxs hrun).1

/-! ### The refinement -/

/-- **An overlay behaves as the partial map its lookup reads**: a position is marked exactly when
it is mapped, the dense index of a mapped position counts the mapped positions below it, nothing
is mapped from the length of the presence bits on, the store lists the mapped values in ascending
position order (each already cut), as many as the presence bits count, and each operation answers
and changes the map as on a partial map, keeping the cut, failing only on an overflow. -/
structure RefinesPartialMap (r : Ranked S) : Prop where
  contains_eq : ∀ i, r.contains i = (r.get? i).isSome
  denseIndex_eq : ∀ i, r.denseIndex i =
    if (r.get? i).isSome then some ((List.range i).countP fun j => (r.get? j).isSome) else none
  get?_of_le : ∀ j, r.presence.len ≤ j → r.get? j = none
  values_eq : DenseStore.toList r.values = (List.range r.presence.len).filterMap r.get?
  cardinality_eq : r.cardinality = r.presence.cardinality ∧
    r.presence.cardinality = (List.range r.presence.len).countP fun j => (r.get? j).isSome
  values_cut : ∀ v ∈ DenseStore.toList r.values, cut r.values v = v
  run_ok : ∀ {op : Op α} {a : Option α} {r' : Ranked S}, op.run r = .ok (a, r') →
    cut r'.values = cut r.values ∧ (a, r'.get?) = op.onMap (cut r.values) r.get?
  run_error : ∀ {op : Op α} {s : Stop}, op.run r = .error s → s.isOverflow

/-- An overlay that holds a list of positions behaves as the map of its lookup. -/
theorem Represents.refinesPartialMap (h : r.Represents xs) : r.RefinesPartialMap where
  contains_eq := h.contains_eq_isSome
  denseIndex_eq := h.denseIndex_eq
  get?_of_le _ hj := h.get?_of_le hj
  values_eq := h.values_eq
  cardinality_eq := h.cardinality_eq_countP
  values_cut _ hv := LawfulDenseStore.cut_of_mem h.good hv
  run_ok hr := (Op.run_ok h hr).2
  run_error hr := Op.run_error hr

/-- Every reachable overlay behaves as the map of its lookup. -/
theorem Reachable.refinesPartialMap (h : r.Reachable) : r.RefinesPartialMap := by
  obtain ⟨xs, hxs⟩ := h.represents
  exact hxs.refinesPartialMap

/-- **Every reachable overlay behaves as a finite partial map**, over an array of any values,
which keeps each value whole, and over a packed list of every width in `1..=64`, which reduces
each value mod `2 ^ width`. -/
theorem refinesPartialMap_of_reachable :
    (∀ {α : Type} [BEq α] {r : Ranked (Array α)}, r.Reachable →
      r.RefinesPartialMap ∧ ∀ v, cut r.values v = v) ∧
    (∀ {r : Ranked PackedList}, r.Reachable →
      r.RefinesPartialMap ∧ 1 ≤ r.values.width ∧ r.values.width ≤ 64 ∧
        ∀ v, (cut r.values v).toNat = v.toNat % (1 <<< r.values.width)) := by
  refine ⟨fun h => ⟨h.refinesPartialMap, fun _ => rfl⟩, ?_⟩
  intro r h
  obtain ⟨xs, hxs⟩ := h.represents
  have hvalid : r.values.Valid := hxs.good
  exact ⟨h.refinesPartialMap, hvalid.width_pos, hvalid.width_le,
    fun v => Stream.toNat_and_lowBits hvalid.width_le v⟩

/-- An emptied array of signed words and an emptied packed list of 4-bit values, run through
stores that overwrite a position, a store past the first word of presence bits, a removal and a
store at position zero: each behaves as a partial map, the array keeping its values whole and the
packed list cutting them to four bits, with the dense index of a position counting the mapped
positions below it. -/
theorem ofStore_refinesPartialMap :
    (∃ r, runSteps Op.run [.put 5 (-3), .put 1 7, .put 5 20, .put 70 9, .take 1, .put 0 4]
        (ofStore (#[] : Array Int64)) = .ok r ∧
      r.Reachable ∧ r.RefinesPartialMap ∧ r.get? 5 = some 20 ∧ r.get? 1 = none ∧
      r.denseIndex 70 = some 2 ∧ DenseStore.toList r.values = [4, 20, 9]) ∧
    (∃ r, runSteps Op.run [.put 5 3, .put 1 7, .put 5 20, .put 70 9, .take 1, .put 0 4]
        (ofStore (⟨#[], 0, 0, 4, 0⟩ : PackedList)) = .ok r ∧
      r.Reachable ∧ r.RefinesPartialMap ∧ r.get? 5 = some 4 ∧ r.get? 1 = none ∧
      r.denseIndex 70 = some 2 ∧ DenseStore.toList r.values = [4, 4, 9]) := by
  obtain ⟨ra, hrun_a, hfacts_a⟩ := exists_ok_of_any (x := runSteps Op.run [.put 5 (-3),
      .put 1 7, .put 5 20, .put 70 9, .take 1, .put 0 4] (ofStore (#[] : Array Int64)))
    (p := fun r => decide (r.get? 5 = some 20 ∧ r.get? 1 = none ∧ r.denseIndex 70 = some 2 ∧
      DenseStore.toList r.values = [4, 20, 9])) (by decide +kernel)
  obtain ⟨rp, hrun_p, hfacts_p⟩ := exists_ok_of_any (x := runSteps Op.run [.put 5 3, .put 1 7,
      .put 5 20, .put 70 9, .take 1, .put 0 4] (ofStore (⟨#[], 0, 0, 4, 0⟩ : PackedList)))
    (p := fun r => decide (r.get? 5 = some 4 ∧ r.get? 1 = none ∧ r.denseIndex 70 = some 2 ∧
      DenseStore.toList r.values = [4, 4, 9])) (by decide +kernel)
  rw [decide_eq_true_iff] at hfacts_a hfacts_p
  have ha : ra.Reachable :=
    runSteps_invariant (fun op _ _ _ h hop => Reachable.step op h hop) (.ofStore trivial) hrun_a
  have hp : rp.Reachable := runSteps_invariant (fun op _ _ _ h hop => Reachable.step op h hop)
    (.ofStore (PackedList.valid_of_new? (show PackedList.new? 4 = .ok ⟨#[], 0, 0, 4, 0⟩ from rfl)))
    hrun_p
  exact ⟨⟨ra, hrun_a, ha, (refinesPartialMap_of_reachable.1 ha).1, hfacts_a⟩,
    ⟨rp, hrun_p, hp, (refinesPartialMap_of_reachable.2 hp).1, hfacts_p⟩⟩

end CompactCollections.Ranked
