import CompactCollections.Proofs.Bits.ListView
import CompactCollections.Session.Bits
/-!
# A packed list is a growable array of numbers

Every packed list a caller can reach (`CompactCollections.PackedList.Reachable`) behaves as the
list of its items (`CompactCollections.PackedList.RefinesList`): the length, every lookup, the
first and last items and both searches read that list, and each operation that succeeds
answers and changes the list as a growable array of numbers does
(`CompactCollections.PackedList.Op.onList`), with every value it writes reduced mod
`2 ^ width` and every position it pads holding the default. An operation fails only on a
storage overflow, or when it removes a position at or past the end.

The items of a valid list are read through its stream bits, so the statement holds for every
width in `1..=64`, items that straddle two words included; the invariant
`CompactCollections.PackedList.Valid` is all a run has to keep.
-/

namespace CompactCollections

/-- **A storage overflow**: a request that the sizing rule refuses, or a sum that passes the
largest machine word. -/
def Stop.isOverflow : Stop → Bool
  | .refused (.capacityOverflow _) => true
  | .aborted .wordOverflow => true
  | _ => false

namespace PackedList

variable {l l' : PackedList}

/-! ### Operations -/

/-- The operations that change a packed list. Reserving covers both the aborting and the
fallible request, which differ only in how they fail. -/
inductive Op where
  | set (i : Nat) (v : UInt64)
  | add (v : UInt64)
  | insert (i : Nat) (v : UInt64)
  | removeAt (i : Nat)
  | removeValue (v : UInt64)
  | pop
  | setLen (n : Nat)
  | clear
  | fit
  | reserve (n : Nat)
  | extend (vs : List UInt64)
  deriving Repr

/-- What an operation answers: nothing, an item that may be absent, or whether a value was
found. -/
inductive Answer where
  | done
  | item (v : Option UInt64)
  | found (b : Bool)
  deriving DecidableEq, Repr

/-- Applies an operation: its answer and the list after it. -/
def Op.run : Op → PackedList → Except Stop (Answer × PackedList)
  | .set i v, l => (l.set i v).map (.done, ·)
  | .add v, l => (l.add v).map (.done, ·)
  | .insert i v, l => (l.insert i v).map (.done, ·)
  | .removeAt i, l => ((l.removeAt i).mapError .aborted).map fun r => (.item (some r.1), r.2)
  | .removeValue v, l => ((l.removeValue v).mapError .aborted).map fun r => (.found r.1, r.2)
  | .pop, l => .ok (.item l.pop.1, l.pop.2)
  | .setLen n, l => (l.setLen n).map (.done, ·)
  | .clear, l => .ok (.done, l.clear)
  | .fit, l => .ok (.done, l.fit)
  | .reserve n, l => (l.reserve n).map (.done, ·)
  | .extend vs, l => (l.extend vs).map (.done, ·)

/-- **What an operation does to an array of numbers** whose values are cut by the mask `m` and
padded with `d`: a write, an append or an insertion stores the value cut to the width, a
removal answers the item it removes, a search-and-remove answers whether the value was there,
and setting the length truncates or pads. -/
def Op.onList (m d : UInt64) : Op → List UInt64 → Answer × List UInt64
  | .set i v, xs => (.done, setItem d xs i (v &&& m))
  | .add v, xs => (.done, xs ++ [v &&& m])
  | .insert i v, xs => (.done, insertItem d xs i (v &&& m))
  | .removeAt i, xs => (.item xs[i]?, xs.eraseIdx i)
  | .removeValue v, xs => (.found (xs.contains v), xs.erase v)
  | .pop, xs => (.item xs.getLast?, xs.dropLast)
  | .setLen n, xs => (.done, xs.take n ++ List.replicate (n - xs.length) d)
  | .clear, _ => (.done, [])
  | .fit, xs => (.done, xs)
  | .reserve _, xs => (.done, xs)
  | .extend vs, xs => (.done, xs ++ vs.map (· &&& m))

/-- An operation that answers nothing answers `done` with the list it leaves. -/
theorem done_of_map_ok {x : Except Stop PackedList} {a : Answer}
    (hr : x.map (Answer.done, ·) = .ok (a, l')) : a = .done ∧ x = .ok l' := by
  obtain ⟨l₁, hx, he⟩ := ok_of_map_ok hr
  cases he
  exact ⟨rfl, hx⟩

/-- **Each operation that succeeds on a valid list** answers and changes the items as on the
array of numbers, and keeps the list valid, of the same width and default. -/
theorem Op.run_ok (h : l.Valid) {op : Op} {a : Answer} (hr : op.run l = .ok (a, l')) :
    a = (op.onList l.mask l.default l.toList).1 ∧
      Becomes l l' (op.onList l.mask l.default l.toList).2 := by
  cases op with
  | set i v =>
    obtain ⟨rfl, hs⟩ := done_of_map_ok hr
    exact ⟨rfl, becomes_set h hs⟩
  | add v =>
    obtain ⟨rfl, hs⟩ := done_of_map_ok hr
    exact ⟨rfl, becomes_add h hs⟩
  | insert i v =>
    obtain ⟨rfl, hs⟩ := done_of_map_ok hr
    exact ⟨rfl, becomes_insert h hs⟩
  | removeAt i =>
    obtain ⟨⟨v, l₁⟩, hs, he⟩ := ok_of_map_ok hr
    cases he
    obtain ⟨hget, hb⟩ := removeAt_ok h (ok_of_mapError_ok hs)
    exact ⟨by rw [Op.onList, hget], hb⟩
  | removeValue v =>
    obtain ⟨⟨b, l₁⟩, hs, he⟩ := ok_of_map_ok hr
    cases he
    obtain ⟨hfound, hb⟩ := removeValue_ok h (ok_of_mapError_ok hs)
    exact ⟨by rw [Op.onList, hfound], hb⟩
  | pop =>
    cases hr
    obtain ⟨hlast, hb⟩ := becomes_pop h
    exact ⟨by rw [Op.onList, hlast], hb⟩
  | setLen n =>
    obtain ⟨rfl, hs⟩ := done_of_map_ok hr
    refine ⟨rfl, ?_⟩
    rw [Op.onList, length_toList]
    exact becomes_setLen h hs
  | clear =>
    cases hr
    exact ⟨rfl, becomes_clear h⟩
  | fit =>
    cases hr
    exact ⟨rfl, becomes_fit h⟩
  | reserve n =>
    obtain ⟨rfl, hs⟩ := done_of_map_ok hr
    exact ⟨rfl, becomes_reserve h hs⟩
  | extend vs =>
    obtain ⟨rfl, hs⟩ := done_of_map_ok hr
    exact ⟨rfl, becomes_extend h hs⟩

/-! ### Failures -/

section Failures

variable {n : Nat} {s : Stop}

theorem wordSum_error {k : Nat} (h : Capacity.wordSum n k = .error s) : s.isOverflow := by
  unfold Capacity.wordSum at h
  split at h
  · cases h
    rfl
  · cases h

theorem grow_error {c : Nat} {e : CollectionError} (h : Capacity.grow c n = .error e) :
    (Stop.refused e).isOverflow := by
  unfold Capacity.grow at h
  split at h
  · cases h
    rfl
  · cases h

/-- Reserving storage fails only on an overflow: a bit count past the largest word, rounding it
up to words, or a word count the sizing rule refuses. -/
theorem reserveFor_error (h : l.reserveFor n = .error s) : s.isOverflow := by
  unfold reserveFor at h
  split at h
  · cases h
    rfl
  · rcases error_of_bind_error h with h | ⟨q, -, h⟩
    · exact wordSum_error h
    · dsimp only at h
      split at h
      · cases h
      · rcases error_of_bind_error h with h | ⟨g, -, h⟩
        · obtain ⟨e, he, rfl⟩ := error_of_mapError_error h
          exact grow_error he
        · cases h

theorem growTo_error (h : l.growTo n = .error s) : s.isOverflow := by
  rcases error_of_bind_error h with h | ⟨l₁, -, h⟩
  · exact reserveFor_error h
  · cases h

theorem set_error {i : Nat} {v : UInt64} (h : l.set i v = .error s) : s.isOverflow := by
  unfold PackedList.set at h
  split at h
  · rcases error_of_bind_error h with h | ⟨m, -, h⟩
    · exact wordSum_error h
    · rcases error_of_bind_error h with h | ⟨l₁, -, h⟩
      · exact growTo_error h
      · cases h
  · cases h

theorem insert_error {i : Nat} {v : UInt64} (h : l.insert i v = .error s) : s.isOverflow := by
  unfold PackedList.insert at h
  split at h
  · exact set_error h
  · rcases error_of_bind_error h with h | ⟨l₁, -, h⟩
    · exact reserveFor_error h
    · cases h

theorem setLen_error (h : l.setLen n = .error s) : s.isOverflow := by
  unfold setLen at h
  split at h
  · exact growTo_error h
  · cases h

theorem reserve_error (h : l.reserve n = .error s) : s.isOverflow := by
  unfold reserve at h
  split at h
  · cases h
    rfl
  · exact reserveFor_error h

theorem foldlM_add_error {vs : List UInt64}
    (h : vs.foldlM (fun l v => l.add v) l = .error s) : s.isOverflow := by
  induction vs generalizing l with
  | nil => cases h
  | cons v vs ih =>
    rw [List.foldlM_cons] at h
    rcases error_of_bind_error h with h | ⟨l₁, -, h⟩
    · exact set_error h
    · exact ih h

theorem extend_error {vs : List UInt64} (h : l.extend vs = .error s) : s.isOverflow := by
  rcases error_of_bind_error h with h | ⟨l₁, -, h⟩
  · exact reserve_error h
  · exact foldlM_add_error h

/-- Removing a position fails exactly at or past the end. -/
theorem removeAt_error {i : Nat} {a : Abort} (h : l.removeAt i = .error a) : l.len ≤ i := by
  rcases error_of_bind_error h with h | ⟨v, -, h⟩
  · unfold get at h
    split at h
    · cases h
    · omega
  · cases h

/-- Removing a value never fails: a position the search finds is below the length. -/
theorem removeValue_ne_error (h : l.Valid) (v : UInt64) (a : Abort) :
    l.removeValue v ≠ .error a := by
  intro hr
  unfold removeValue at hr
  split at hr
  · rename_i i hi
    rw [indexOf_eq h, List.idxOf?_eq_some_iff] at hi
    obtain ⟨hlt, -, -⟩ := hi
    rcases error_of_bind_error hr with hr | ⟨r, -, hr⟩
    · exact absurd (removeAt_error hr) (by simpa using hlt)
    · cases hr
  · cases hr

/-- **An operation fails only on a storage overflow**, or when it removes a position at or past
the end. -/
theorem Op.run_error (h : l.Valid) {op : Op} (hr : op.run l = .error s) :
    s.isOverflow ∨ ∃ i, op = .removeAt i ∧ l.len ≤ i := by
  cases op with
  | set i v => exact .inl (set_error (error_of_map_error hr))
  | add v => exact .inl (set_error (error_of_map_error hr))
  | insert i v => exact .inl (insert_error (error_of_map_error hr))
  | removeAt i =>
    obtain ⟨a, ha, -⟩ := error_of_mapError_error (error_of_map_error hr)
    exact .inr ⟨i, rfl, removeAt_error ha⟩
  | removeValue v =>
    obtain ⟨a, ha, -⟩ := error_of_mapError_error (error_of_map_error hr)
    exact absurd ha (removeValue_ne_error h v a)
  | pop => cases hr
  | setLen n => exact .inl (setLen_error (error_of_map_error hr))
  | clear => cases hr
  | fit => cases hr
  | reserve n => exact .inl (reserve_error (error_of_map_error hr))
  | extend vs => exact .inl (extend_error (error_of_map_error hr))

end Failures

/-! ### Reachable lists -/

/-- **The packed lists a caller can reach**: an empty list of a valid width, with the default
zero or any other, and then any run of operations. -/
inductive Reachable : PackedList → Prop
  | new {w : Nat} {l : PackedList} : new? w = .ok l → Reachable l
  | withDefault {w : Nat} {l : PackedList} (d : UInt64) : new? w = .ok l →
      Reachable (l.withDefault d)
  | step {l l' : PackedList} (op : Op) {a : Answer} : Reachable l → op.run l = .ok (a, l') →
      Reachable l'

/-- Every way a session builds a list reaches it: an empty list with or without a default, one
with storage reserved, or one extended by values. -/
theorem Reachable.of_build {setup : Session.PackedSetup} (h : setup.build = .ok l) :
    l.Reachable := by
  cases setup with
  | new w => exact .new (ok_of_mapError_ok h)
  | tryNew w => exact .new (ok_of_mapError_ok h)
  | withDefault w d =>
    obtain ⟨l₀, h₀, rfl⟩ := ok_of_map_ok (ok_of_mapError_ok h)
    exact .withDefault d h₀
  | withCapacity w n =>
    obtain ⟨l₀, h₀, hr⟩ := ok_of_bind_ok (ok_of_mapError_ok h)
    have hrun : (Op.reserve n).run l₀ = .ok (.done, l) := by
      rw [Op.run, hr]
      rfl
    exact .step (.reserve n) (.new (ok_of_mapError_ok h₀)) hrun
  | ofValues w vs =>
    obtain ⟨l₀, h₀, he⟩ := ok_of_bind_ok (ok_of_mapError_ok h)
    have hrun : (Op.extend vs).run l₀ = .ok (.done, l) := by
      rw [Op.run, he]
      rfl
    exact .step (.extend vs) (.new (ok_of_mapError_ok h₀)) hrun

theorem valid_of_new? {w : Nat} (h : new? w = .ok l) : l.Valid := by
  unfold new? at h
  split at h
  · rename_i hw
    cases h
    exact ⟨hw.1, hw.2, fun _ _ => Stream.bit_zero, fun p _ => Stream.testBit_empty p⟩
  · cases h

/-- Setting the default cuts it to the width. -/
theorem Valid.withDefault (h : l.Valid) (d : UInt64) : (l.withDefault d).Valid where
  width_pos := h.width_pos
  width_le := h.width_le
  default_bit j hj := by
    change l.width ≤ j at hj
    show Stream.bit (d &&& l.mask) j = false
    rw [bit_and_mask h.width_le]
    simp [Nat.not_lt.mpr hj]
  clear_above := h.clear_above

/-- Every reachable list is valid. -/
theorem Reachable.valid (h : l.Reachable) : l.Valid := by
  induction h with
  | new hnew => exact valid_of_new? hnew
  | withDefault d hnew => exact (valid_of_new? hnew).withDefault d
  | step op _ hrun ih => exact (Op.run_ok ih hrun).2.valid

/-! ### The refinement -/

/-- **A packed list behaves as the array of its items**: cutting to the width is reducing mod
`2 ^ width`, every item and the default are so reduced, the length, lookups, the first and last
items and both searches read the items, each operation that succeeds answers and changes them
as on the array and keeps the width and default, and an operation fails only on a storage
overflow or a removal at or past the end. -/
structure RefinesList (l : PackedList) : Prop where
  and_mask_toNat : ∀ v : UInt64, (v &&& l.mask).toNat = v.toNat % (1 <<< l.width)
  mem_and_mask : ∀ x ∈ l.toList, x &&& l.mask = x
  default_and_mask : l.default &&& l.mask = l.default
  len_eq : l.len = l.toList.length
  get?_eq : ∀ i, l.get? i = l.toList[i]?
  get_eq : ∀ i (hi : i < l.toList.length), l.get i = .ok l.toList[i]
  get_error : ∀ i, l.toList.length ≤ i →
    l.get i = .error (.indexOutOfBounds .packed i l.toList.length)
  first_eq : l.get? 0 = l.toList.head?
  last_eq : (if l.len = 0 then none else l.get? (l.len - 1)) = l.toList.getLast?
  indexOf_eq : ∀ v, l.indexOf v = l.toList.idxOf? v
  lastIndexOf_eq : ∀ v, l.lastIndexOf v = lastIdxOf? v l.toList
  contains_iff : ∀ v, (l.indexOf v).isSome ↔ v ∈ l.toList
  run_ok : ∀ {op : Op} {a : Answer} {l' : PackedList}, op.run l = .ok (a, l') →
    l'.width = l.width ∧ l'.default = l.default ∧
      (a, l'.toList) = op.onList l.mask l.default l.toList
  run_error : ∀ {op : Op} {s : Stop}, op.run l = .error s →
    s.isOverflow ∨ ∃ i, op = .removeAt i ∧ l.toList.length ≤ i

/-- Lookups read the items. -/
theorem get?_eq_getElem? (l : PackedList) (i : Nat) : l.get? i = l.toList[i]? := by
  unfold get?
  split
  · rename_i hi
    rw [List.getElem?_eq_getElem (by simpa using hi), getElem_toList]
  · rename_i hi
    rw [List.getElem?_eq_none (by simp; omega)]

theorem Valid.refines (h : l.Valid) : l.RefinesList where
  and_mask_toNat v := Stream.toNat_and_lowBits h.width_le v
  mem_and_mask _ hx := and_mask_of_mem_toList h hx
  default_and_mask := PackedList.default_and_mask h
  len_eq := (length_toList l).symm
  get?_eq := get?_eq_getElem? l
  get_eq i hi := by rw [get, if_pos (by simpa using hi), getElem_toList]
  get_error i hi := by rw [get, if_neg (by simp at hi; omega), length_toList]
  first_eq := by rw [get?_eq_getElem?, List.head?_eq_getElem?]
  last_eq := by
    rw [List.getLast?_eq_getElem?, length_toList]
    split
    · rename_i hn
      rw [List.getElem?_eq_none (by simp; omega)]
    · rw [get?_eq_getElem?]
  indexOf_eq v := indexOf_eq h v
  lastIndexOf_eq v := lastIndexOf_eq h v
  contains_iff v := by rw [indexOf_eq h, List.isSome_idxOf?]
  run_ok hr := by
    obtain ⟨ha, hb⟩ := Op.run_ok h hr
    exact ⟨hb.width_eq, hb.default_eq, by rw [ha, hb.toList_eq]⟩
  run_error hr := by
    rw [length_toList]
    exact Op.run_error h hr

/-- **Every reachable packed list behaves as the array of its items**, for every width in
`1..=64`, every default and every history: lookups, the first and last items, both searches and
every operation agree with the same on the array of numbers, written values reduced mod
`2 ^ width` and padding holding the default; and the only failures are storage overflows and
removals past the end. -/
theorem Reachable.refinesList (h : l.Reachable) : l.RefinesList :=
  h.valid.refines

/-- A list of 7-bit items whose growth writes 5, run through a write past the end (padded with
the default), an insertion in the middle, an extension that carries the items across the first
word, a value cut to seven bits, the removal of the first item and a pop: it behaves as the array
of its items, the tenth of which straddles the two words. -/
theorem withDefault_refinesList :
    ∃ l, runSteps Op.run [.set 3 200, .insert 1 9, .extend [1, 2, 3, 4, 5, 6], .add 300,
        .removeAt 0, .pop] ((⟨#[], 0, 0, 7, 0⟩ : PackedList).withDefault 5) = .ok l ∧
      l.Reachable ∧ l.RefinesList ∧ l.toList = [9, 5, 5, 72, 1, 2, 3, 4, 5, 6] ∧
      l.words.size = 2 ∧ l.get? 9 = some 6 := by
  have hnew : new? 7 = .ok ⟨#[], 0, 0, 7, 0⟩ := rfl
  obtain ⟨l, hrun, hfacts⟩ : ∃ l, runSteps Op.run [.set 3 200, .insert 1 9,
      .extend [1, 2, 3, 4, 5, 6], .add 300, .removeAt 0, .pop]
        ((⟨#[], 0, 0, 7, 0⟩ : PackedList).withDefault 5) = .ok l ∧
      l.toList = [9, 5, 5, 72, 1, 2, 3, 4, 5, 6] ∧ l.words.size = 2 ∧ l.get? 9 = some 6 :=
    ⟨_, rfl, by decide +kernel⟩
  have h : l.Reachable :=
    runSteps_invariant (fun op _ _ _ h hop => Reachable.step op h hop) (.withDefault 5 hnew) hrun
  exact ⟨l, hrun, h, Reachable.refinesList h, hfacts⟩

end PackedList

end CompactCollections
