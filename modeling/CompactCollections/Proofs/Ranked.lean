import CompactCollections.Proofs.Bits.ListRefinement
import CompactCollections.Proofs.Bits.BitList
import CompactCollections.Proofs.Dense
import CompactCollections.Ranked
/-!
# A rank-indexed overlay is a list of optional values

An overlay (`CompactCollections.Ranked`) keeps presence bits and, densely, the values of the
present positions. Read as the list `xs : List (Option α)` of its positions
(`CompactCollections.Ranked.Represents`), the presence bits say which positions of `xs` hold a
value and the dense store holds `xs.filterMap id`; the value of a present position `i` then sits
at index `rank i - 1`, the number of present positions before `i`
(`CompactCollections.Ranked.Represents.denseIndex_of_some`).

The dense store may be any store that keeps its values as a list does
(`CompactCollections.LawfulDenseStore`): an array, or a packed list, which cuts every value it is
given to its width. On that reading

* `put` answers what the position held and writes the cut value, growing the list with absent
  positions when the position is past the end;
* `take` answers what the position held and leaves it absent;
* `clear` empties the list;

and each keeps the store's cut, so a run of them cuts every value alike.
-/

namespace CompactCollections

/-- **A dense store that keeps its values as a list does**, up to an invariant `Good` and a cut
`cut s` applied to each value it is given: every operation within range acts on `toList` as the
list operation does and keeps the invariant and the cut, and an insertion fails only on a storage
overflow. -/
class LawfulDenseStore (S : Type) (α : outParam Type) [DenseStore S α] where
  /-- The invariant every operation keeps. -/
  Good : S → Prop
  /-- What the store keeps of a value it is given. -/
  cut : S → α → α
  size_eq : ∀ s, Good s → DenseStore.size s = (DenseStore.toList s).length
  get?_eq : ∀ s i, Good s → DenseStore.get? s i = (DenseStore.toList s)[i]?
  insertAt_ok : ∀ {s s' : S} {i : Nat} {v : α}, Good s → i ≤ (DenseStore.toList s).length →
    DenseStore.insertAt s i v = .ok s' →
      Good s' ∧ cut s' = cut s ∧ DenseStore.toList s' = (DenseStore.toList s).insertIdx i (cut s v)
  insertAt_error : ∀ {s : S} {i : Nat} {v : α} {e : Stop},
    DenseStore.insertAt s i v = .error e → e.isOverflow
  eraseAt_ok : ∀ {s : S} {i : Nat}, Good s → i < (DenseStore.toList s).length →
    Good (DenseStore.eraseAt s i) ∧ cut (DenseStore.eraseAt s i) = cut s ∧
      DenseStore.toList (DenseStore.eraseAt s i) = (DenseStore.toList s).eraseIdx i
  replace_ok : ∀ {s : S} {i : Nat} (v : α), Good s → i < (DenseStore.toList s).length →
    Good (DenseStore.replace s i v) ∧ cut (DenseStore.replace s i v) = cut s ∧
      DenseStore.toList (DenseStore.replace s i v) = (DenseStore.toList s).set i (cut s v)
  clear_ok : ∀ {s : S}, Good s →
    Good (DenseStore.clear s) ∧ cut (DenseStore.clear s) = cut s ∧ DenseStore.toList (DenseStore.clear s) = []
  cut_of_mem : ∀ {s : S} {v : α}, Good s → v ∈ DenseStore.toList s → cut s v = v

/-- An array keeps every value whole. -/
instance {α : Type} [BEq α] : LawfulDenseStore (Array α) α where
  Good _ := True
  cut _ v := v
  size_eq a _ := Array.length_toList.symm
  get?_eq a _ _ := Array.getElem?_toList.symm
  insertAt_ok := by
    rintro a a' i v - hi hs
    cases hs
    change i ≤ a.toList.length at hi
    refine ⟨trivial, rfl, ?_⟩
    show (a.insertIdxIfInBounds i v).toList = a.toList.insertIdx i v
    rw [Array.insertIdxIfInBounds, dif_pos (by simpa using hi), Array.toList_insertIdx]
  insertAt_error hs := by cases hs
  eraseAt_ok _ _ := ⟨trivial, rfl, Array.toList_eraseIdxIfInBounds⟩
  replace_ok _ _ _ := ⟨trivial, rfl, Array.toList_setIfInBounds⟩
  clear_ok _ := ⟨trivial, rfl, rfl⟩
  cut_of_mem _ _ := rfl

namespace PackedList

variable {l l' : PackedList}

/-- Inserting at the end of the items appends. -/
theorem insertItem_length (d : UInt64) (xs : List UInt64) (x : UInt64) :
    insertItem d xs xs.length x = xs.insertIdx xs.length x := by
  rw [insertItem, if_neg (Nat.lt_irrefl _), setItem, if_neg (Nat.lt_irrefl _), Nat.sub_self,
    List.replicate_zero, List.append_nil, List.insertIdx_length_self]

/-- A list that becomes another cuts values as the other does. -/
theorem Becomes.and_mask_eq {xs : List UInt64} (hb : Becomes l l' xs) :
    (fun v : UInt64 => v &&& l'.mask) = fun v => v &&& l.mask := by
  rw [hb.mask_eq]

/-- A packed list keeps every value cut to its width. -/
instance : LawfulDenseStore PackedList UInt64 where
  Good l := l.Valid
  cut l v := v &&& l.mask
  size_eq l _ := (length_toList l).symm
  get?_eq l i _ := get?_eq_getElem? l i
  insertAt_ok := by
    intro l l' i v h hi hs
    change i ≤ l.toList.length at hi
    have hb := becomes_insert h hs
    refine ⟨hb.valid, hb.and_mask_eq, ?_⟩
    show l'.toList = l.toList.insertIdx i (v &&& l.mask)
    rw [hb.toList_eq]
    rcases Nat.lt_or_eq_of_le hi with hlt | rfl
    · rw [insertItem, if_pos hlt]
    · exact insertItem_length _ _ _
  insertAt_error hs := insert_error hs
  eraseAt_ok := by
    intro l i h hi
    change i < l.toList.length at hi
    have hb := becomes_erase h (by simpa using hi)
    exact ⟨hb.valid, hb.and_mask_eq, hb.toList_eq⟩
  replace_ok := by
    intro l i v h hi
    change i < l.toList.length at hi
    have hi' : i < l.len := by simpa using hi
    have hb := becomes_write h hi' v
    have hwrite : DenseStore.replace l i v = l.write i v := if_pos hi'
    rw [hwrite]
    exact ⟨hb.valid, hb.and_mask_eq, hb.toList_eq⟩
  clear_ok h := ⟨(becomes_clear h).valid, rfl, (becomes_clear h).toList_eq⟩
  cut_of_mem h hv := and_mask_of_mem_toList h hv

end PackedList

namespace BitList

variable {l : BitList} {s : Stop}

/-! ### Failures of presence bits -/

/-- Setting the length fails only on an overflow: a length past the largest word, rounding it up
to words, or a word count the sizing rule refuses. -/
theorem setLen_error {n : Nat} (hs : l.setLen n = .error s) : s.isOverflow := by
  simp only [setLen, bind, Except.bind, pure, Except.pure] at hs
  -- the word count, then the room: the length itself is set without failing
  split at hs
  · rename_i hn
    cases hs
    exact PackedList.wordSum_error hn
  · split at hs
    · split at hs
      · rename_i hgrow
        cases hs
        obtain ⟨e, he, rfl⟩ := error_of_mapError_error hgrow
        exact PackedList.grow_error he
      · split at hs <;> cases hs
    · split at hs <;> cases hs

theorem set_error {i : Nat} {b : Bool} (hs : l.set i b = .error s) : s.isOverflow := by
  simp only [BitList.set, bind, Except.bind, pure, Except.pure] at hs
  split at hs
  · split at hs
    · rename_i hn
      cases hs
      exact PackedList.wordSum_error hn
    · split at hs
      · rename_i hgrow
        cases hs
        exact setLen_error hgrow
      · cases hs
  · cases hs

theorem insert_error {i : Nat} {b : Bool} (hs : l.insert i b = .error s) : s.isOverflow := by
  unfold BitList.insert at hs
  split at hs
  · exact set_error hs
  · rcases error_of_bind_error hs with hs | ⟨l₁, -, hs⟩
    · exact setLen_error hs
    · exact set_error hs

/-- Removing a bit fails exactly at or past the end. -/
theorem removeAt_error {i : Nat} {a : Abort} (hr : l.removeAt i = .error a) :
    l.len ≤ i ∧ a = .indexOutOfBounds .bits i l.len := by
  unfold BitList.removeAt at hr
  split at hr
  · cases hr
    exact ⟨‹_›, rfl⟩
  · cases hr

end BitList

namespace Ranked

open LawfulDenseStore (Good cut)
open CompactCollections.Dense

variable {S α : Type} [DenseStore S α] [LawfulDenseStore S α]
variable {r r' : Ranked S} {xs : List (Option α)} {i : Nat} {v w : α}

/-- **An overlay holds the positions `xs`**: its presence list is valid, as long as `xs`, and set
exactly at the present positions, and its dense store is good and holds the present values in
position order. -/
structure Represents (r : Ranked S) (xs : List (Option α)) : Prop where
  valid : r.presence.Valid
  len_eq : r.presence.len = xs.length
  get_eq : ∀ q, r.presence.get q = (xs.getD q none).isSome
  good : Good r.values
  toList_eq : DenseStore.toList r.values = xs.filterMap id

/-! ### Ranks -/

/-- On presence bits that mark the present positions of a list, the rank of a present position,
less one, is the number of present positions before it. -/
theorem rank_sub_one {p : BitList} (hv : p.Valid) (hget : ∀ q, p.get q = (xs.getD q none).isSome)
    (hx : xs[i]? = some (some v)) : p.rank i - 1 = (xs.take i).countP Option.isSome := by
  have hrank : p.rank i = (xs.take (i + 1)).countP Option.isSome := by
    rw [hv.rank_eq, ← countP_range_getD]
    exact List.countP_congr fun q _ => by rw [hget q]
  rw [hrank, countP_take_succ_of_some hx, Nat.add_sub_cancel]

namespace Represents

theorem contains_eq (h : r.Represents xs) (i : Nat) : r.contains i = (xs.getD i none).isSome :=
  h.get_eq i

theorem denseIndex_of_some (h : r.Represents xs) (hx : xs[i]? = some (some v)) :
    r.denseIndex i = some ((xs.take i).countP Option.isSome) := by
  have hc : r.contains i = true := by rw [h.contains_eq, getD_of_getElem? hx]; rfl
  rw [denseIndex, if_pos hc, rank_sub_one h.valid h.get_eq hx]

theorem denseIndex_of_none (h : r.Represents xs) (hx : xs.getD i none = none) :
    r.denseIndex i = none := by
  have hc : r.contains i = false := by rw [h.contains_eq, hx]; rfl
  rw [denseIndex, if_neg (by rw [hc]; exact Bool.false_ne_true)]

/-- The dense value of a present position. -/
theorem get?_values (h : r.Represents xs) (hx : xs[i]? = some (some v)) :
    DenseStore.get? r.values ((xs.take i).countP Option.isSome) = some v := by
  rw [LawfulDenseStore.get?_eq _ _ h.good, h.toList_eq, getElem?_filterMap hx]

theorem countP_lt_length (h : r.Represents xs) (hx : xs[i]? = some (some v)) :
    (xs.take i).countP Option.isSome < (DenseStore.toList r.values).length := by
  have hget := getElem?_filterMap hx
  rw [h.toList_eq]
  exact (List.getElem?_eq_some_iff.mp hget).1

theorem countP_le_length (h : r.Represents xs) (i : Nat) :
    (xs.take i).countP Option.isSome ≤ (DenseStore.toList r.values).length := by
  rw [h.toList_eq]
  exact countP_take_le_length xs i

/-- A stored value is kept whole by its store: it was cut when it was written. -/
theorem cut_of_getElem? (h : r.Represents xs) (hx : xs[i]? = some (some v)) : cut r.values v = v :=
  LawfulDenseStore.cut_of_mem h.good
    (by rw [h.toList_eq]; exact List.mem_filterMap.mpr ⟨_, List.mem_of_getElem? hx, rfl⟩)

/-- **Reading a position reads the list**, nothing past the end. -/
theorem get?_eq (h : r.Represents xs) (i : Nat) : r.get? i = xs.getD i none := by
  cases hx : xs.getD i none with
  | none => rw [get?, h.denseIndex_of_none hx]; rfl
  | some v =>
    have hxi := getElem?_of_getD_eq_some hx
    rw [get?, h.denseIndex_of_some hxi]
    exact h.get?_values hxi

/-- Growing the presence bits appends absent positions. -/
theorem setLen (h : r.Represents xs) {n : Nat} {p : BitList} (hs : r.presence.setLen n = .ok p)
    (hn : xs.length ≤ n) :
    ({ r with presence := p } : Ranked S).Represents (xs ++ List.replicate (n - xs.length) none) := by
  obtain ⟨hv, hlen, hget⟩ := BitList.setLen_ok h.valid hs
  refine ⟨hv, by rw [hlen, List.length_append, List.length_replicate]; omega, fun q => ?_, h.good,
    by rw [h.toList_eq, filterMap_append_replicate]⟩
  rw [hget q, getD_append_replicate, ← h.get_eq q]
  by_cases hq : q < n
  · simp [hq]
  · simp [hq, BitList.get_of_le (show r.presence.len ≤ q by rw [h.len_eq]; omega)]

/-- **Replacing the dense value of a present position** writes the cut value there. -/
theorem replace (h : r.Represents xs) (hx : xs[i]? = some (some w)) (v : α) :
    ({ r with values := DenseStore.replace r.values ((xs.take i).countP Option.isSome) v } :
        Ranked S).Represents (xs.set i (some (cut r.values v))) ∧
      cut (DenseStore.replace r.values ((xs.take i).countP Option.isSome) v) = cut r.values := by
  have hi : i < xs.length := (List.getElem?_eq_some_iff.mp hx).1
  obtain ⟨hgood, hcut, hlist⟩ := LawfulDenseStore.replace_ok v h.good (h.countP_lt_length hx)
  refine ⟨⟨h.valid, by rw [List.length_set, h.len_eq], fun q => ?_, hgood, ?_⟩, hcut⟩
  · rw [h.get_eq q, getD_set_of_lt hi]
    by_cases hq : q = i
    · rw [if_pos hq, hq, getD_of_getElem? hx]
      rfl
    · rw [if_neg hq]
  · rw [hlist, h.toList_eq, filterMap_set_of_some hx]

/-! ### Putting and taking -/

/-- Putting at a position that holds a value replaces it in place. -/
theorem put_of_some (h : r.Represents xs) (hx : xs[i]? = some (some w)) {prev : Option α}
    (hput : r.put i v = .ok (prev, r')) :
    prev = some w ∧ r'.Represents (xs.set i (some (cut r.values v))) ∧
      cut r'.values = cut r.values := by
  rw [put, h.denseIndex_of_some hx] at hput
  cases hput
  exact ⟨h.get?_values hx, h.replace hx v⟩

/-- Putting at a position that holds nothing marks it, growing the list up to it, and inserts the
value at the number of present positions before it. -/
theorem put_of_none (h : r.Represents xs) (hx : xs.getD i none = none) {prev : Option α}
    (hput : r.put i v = .ok (prev, r')) :
    prev = none ∧ r'.Represents (setPadded xs i (some (cut r.values v))) ∧
      cut r'.values = cut r.values := by
  rw [put, h.denseIndex_of_none hx] at hput
  obtain ⟨p, hp, hput⟩ := ok_of_bind_ok hput
  obtain ⟨vs, hvs, hput⟩ := ok_of_bind_ok hput
  cases hput
  obtain ⟨hpv, hplen, hpget⟩ := BitList.set_ok h.valid hp
  -- the new presence bits mark the padded list, with position `i` present
  have hget : ∀ q, p.get q = ((setPadded xs i (some (cut r.values v))).getD q none).isSome := by
    intro q
    rw [hpget q, getD_setPadded]
    by_cases hq : q = i
    · rw [if_pos hq, if_pos hq]
      rfl
    · rw [if_neg hq, if_neg hq, h.get_eq q]
  have hindex : p.rank i - 1 = (xs.take i).countP Option.isSome := by
    rw [rank_sub_one hpv hget (getElem?_setPadded_self _ _ _)]
    exact countP_take_congr fun q hq => by rw [getD_setPadded, if_neg (Nat.ne_of_lt hq)]
  rw [hindex] at hvs
  obtain ⟨hgood, hcut, hlist⟩ := LawfulDenseStore.insertAt_ok h.good (h.countP_le_length i) hvs
  refine ⟨rfl, ⟨hpv, by rw [hplen, h.len_eq, length_setPadded], hget, hgood, ?_⟩, hcut⟩
  rw [hlist, h.toList_eq, filterMap_setPadded_of_none hx]

/-- **Putting a value** answers what the position held and writes the cut value there, growing
the list with absent positions up to it. -/
theorem put_ok (h : r.Represents xs) {prev : Option α} (hput : r.put i v = .ok (prev, r')) :
    prev = xs.getD i none ∧ r'.Represents (setPadded xs i (some (cut r.values v))) ∧
      cut r'.values = cut r.values := by
  cases hx : xs.getD i none with
  | none => exact put_of_none h hx hput
  | some w =>
    have hxi := getElem?_of_getD_eq_some hx
    have hi : i < xs.length := (List.getElem?_eq_some_iff.mp hxi).1
    obtain ⟨rfl, hr', hcut⟩ := put_of_some h hxi hput
    exact ⟨rfl, by rwa [setPadded_of_lt hi], hcut⟩

/-- **Taking a value** answers what the position held and leaves it absent. -/
theorem take_spec (h : r.Represents xs) (i : Nat) :
    (r.take i).1 = xs.getD i none ∧ (r.take i).2.Represents (xs.set i none) ∧
      cut (r.take i).2.values = cut r.values := by
  cases hx : xs.getD i none with
  | none =>
    rw [take, h.denseIndex_of_none hx, set_none_of_getD hx]
    exact ⟨rfl, h, rfl⟩
  | some w =>
    have hxi := getElem?_of_getD_eq_some hx
    have hi : i < xs.length := (List.getElem?_eq_some_iff.mp hxi).1
    rw [take, h.denseIndex_of_some hxi]
    obtain ⟨hgood, hcut, hlist⟩ := LawfulDenseStore.eraseAt_ok h.good (h.countP_lt_length hxi)
    obtain ⟨hv, hlen, hget⟩ := BitList.clearBit_spec h.valid i
    refine ⟨h.get?_values hxi, ⟨hv, by rw [hlen, h.len_eq, List.length_set], fun q => ?_, hgood, ?_⟩,
      hcut⟩
    · rw [hget q, h.get_eq q, getD_set_of_lt hi]
      by_cases hq : q = i
      · rw [if_pos hq, hq, hx]
        simp
      · rw [if_neg hq]
        simp [hq]
    · rw [hlist, h.toList_eq, filterMap_set_none_of_some hxi]

/-- Clearing empties the list. -/
theorem clear (h : r.Represents xs) : r.clear.Represents [] ∧ cut r.clear.values = cut r.values := by
  obtain ⟨hgood, hcut, hlist⟩ := LawfulDenseStore.clear_ok h.good
  obtain ⟨hv, hlen, hget⟩ := BitList.clear_spec r.presence
  exact ⟨⟨hv, hlen, fun q => hget q, hgood, hlist⟩, hcut⟩

/-- The number of values is the number of present positions. -/
theorem cardinality_eq (h : r.Represents xs) : r.cardinality = (xs.filterMap id).length := by
  rw [cardinality, LawfulDenseStore.size_eq _ h.good, h.toList_eq]

/-- The presence bits count the present positions. -/
theorem presence_cardinality_eq (h : r.Represents xs) :
    r.presence.cardinality = xs.countP Option.isSome := by
  rw [h.valid.cardinality_eq, h.len_eq, ← List.take_of_length_le (Nat.le_refl xs.length),
    ← countP_range_getD, List.take_of_length_le (Nat.le_refl xs.length)]
  exact List.countP_congr fun q _ => by rw [h.get_eq q]

end Represents

/-- A fresh overlay holds no position, and keeps its store's cut. -/
theorem represents_ofStore {s : S} (hs : Good s) :
    (ofStore s).Represents [] ∧ cut (ofStore s).values = cut s := by
  obtain ⟨hgood, hcut, hlist⟩ := LawfulDenseStore.clear_ok hs
  exact ⟨⟨fun p _ => Stream.testBit_empty p, rfl, fun _ => rfl, hgood, hlist⟩, hcut⟩

/-! ### Failures -/

/-- Putting fails only on a storage overflow, in the presence bits or in the dense store. -/
theorem put_error {s : Stop} (hs : r.put i v = .error s) : s.isOverflow := by
  unfold put at hs
  split at hs
  · cases hs
  · rcases error_of_bind_error hs with hs | ⟨p, -, hs⟩
    · exact BitList.set_error hs
    · rcases error_of_bind_error hs with hs | ⟨vs, -, hs⟩
      · exact LawfulDenseStore.insertAt_error hs
      · cases hs

end Ranked

end CompactCollections
