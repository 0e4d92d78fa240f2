import CompactCollections.Proofs.Null.Operations
/-!
# A list with absent positions is a growable array of optional values

Every list with absent positions a caller can reach (`CompactCollections.NullList.Reachable`),
over an array or over a packed list of any width, behaves as the array of its positions
(`CompactCollections.NullList.RefinesOptions`): the length, every lookup, the values, the
cardinality and the four scans read that array, and each operation that succeeds answers and
changes it as `CompactCollections.NullList.Op.onList` says, with every value it writes cut by the
store (kept whole by an array, reduced mod `2 ^ width` by a packed list). An operation fails only
on a storage overflow, or when it removes or swaps a position at or past the end.

The positions are read through the overlay (`CompactCollections.Ranked.Represents`), which every
operation keeps; so the whole statement rests on what one operation does to it
(`CompactCollections.NullList.Op.run_ok`).
-/

namespace CompactCollections

/-- **A storage overflow, reported as an abort**: a growth that the sizing rule refuses, or a sum
that passes the largest machine word. -/
def Abort.isOverflow : Abort → Bool
  | .failed (.capacityOverflow _) => true
  | .wordOverflow => true
  | _ => false

/-- An overflow stays one when it is reported as an abort. -/
theorem Stop.isOverflow_toAbort {s : Stop} (h : s.isOverflow) : s.toAbort.isOverflow := by
  cases s with
  | refused e =>
    cases e with
    | invalidBitWidth => cases h
    | capacityOverflow => rfl
  | aborted a =>
    cases a with
    | wordOverflow => rfl
    | _ => cases h

namespace NullList

open LawfulDenseStore (Good cut)
open CompactCollections.Dense

/-! ### Operations -/

/-- The operations that change a list with absent positions; extending appends positions in
order. -/
inductive Op (α : Type) where
  | set (i : Nat) (v : Option α)
  | add (v : Option α)
  | insert (i : Nat) (v : Option α)
  | removeAt (i : Nat)
  | swap (a b : Nat)
  | clear
  | extend (vs : List (Option α))

variable {S α : Type} [DenseStore S α]

/-- Applies an operation: what it answers (what a write replaced or a removal took) and the list
after it. -/
def Op.run : Op α → NullList S → Except Stop (Option α × NullList S)
  | .set i v, l => l.set i v
  | .add v, l => (l.add v).map (none, ·)
  | .insert i v, l => (l.insert i v).map (none, ·)
  | .removeAt i, l => (l.removeAt i).mapError .aborted
  | .swap a b, l => ((l.swap a b).mapError .aborted).map (none, ·)
  | .clear, l => .ok (none, l.clear)
  | .extend vs, l => (l.addAll vs).map (none, ·)

/-- **What an operation does to an array of optional values** whose written values are cut by
`c`: a write answers what the position held and pads with absent positions up to it, an insertion
at or past the end writes, a removal answers what it removes and moves the later positions down,
and a swap exchanges two positions. -/
def Op.onList (c : α → α) : Op α → List (Option α) → Option α × List (Option α)
  | .set i v, xs => (xs.getD i none, setPadded xs i (v.map c))
  | .add v, xs => (none, xs ++ [v.map c])
  | .insert i v, xs => (none, insertPadded xs i (v.map c))
  | .removeAt i, xs => (xs.getD i none, xs.eraseIdx i)
  | .swap a b, xs => (none, (xs.set a (xs.getD b none)).set b (xs.getD a none))
  | .clear, _ => (none, [])
  | .extend vs, xs => (none, xs ++ vs.map (Option.map c))

/-- An operation out of range in a list of `n` positions: a removal at or past the end, or a swap
with a position there. -/
def Op.OutOfRange : Op α → Nat → Prop
  | .removeAt i, n => n ≤ i
  | .swap a b, n => n ≤ a ∨ n ≤ b
  | _, _ => False

variable [LawfulDenseStore S α] {l l' : NullList S} {xs : List (Option α)}

/-- **Each operation that succeeds** answers and changes the positions as on the array of
optional values, and keeps the store's cut. -/
theorem Op.run_ok (h : l.cells.Represents xs) {op : Op α} {a : Option α}
    (hr : op.run l = .ok (a, l')) :
    l'.cells.Represents (op.onList (cut l.cells.values) xs).2 ∧
      a = (op.onList (cut l.cells.values) xs).1 ∧ cut l'.cells.values = cut l.cells.values := by
  cases op with
  | set i v =>
    obtain ⟨ha, hr', hcut⟩ := set_ok h hr
    exact ⟨hr', ha, hcut⟩
  | add v =>
    obtain ⟨l₁, hadd, he⟩ := ok_of_map_ok hr
    cases he
    obtain ⟨hr', hcut⟩ := add_ok h hadd
    exact ⟨hr', rfl, hcut⟩
  | insert i v =>
    obtain ⟨l₁, hins, he⟩ := ok_of_map_ok hr
    cases he
    obtain ⟨hr', hcut⟩ := insert_ok h hins
    exact ⟨hr', rfl, hcut⟩
  | removeAt i =>
    obtain ⟨-, ha, hr', hcut⟩ := removeAt_ok h (ok_of_mapError_ok hr)
    exact ⟨hr', ha, hcut⟩
  | swap a b =>
    obtain ⟨l₁, hs, he⟩ := ok_of_map_ok hr
    cases he
    obtain ⟨-, -, hr', hcut⟩ := swap_ok h (ok_of_mapError_ok hs)
    exact ⟨hr', rfl, hcut⟩
  | clear =>
    cases hr
    obtain ⟨hr', hcut⟩ := clear_ok h
    exact ⟨hr', rfl, hcut⟩
  | extend vs =>
    obtain ⟨l₁, hs, he⟩ := ok_of_map_ok hr
    cases he
    obtain ⟨hr', hcut⟩ := addAll_ok h hs
    exact ⟨hr', rfl, hcut⟩

/-- **An operation fails only** on a storage overflow, or out of range. -/
theorem Op.run_error (h : l.cells.Represents xs) {op : Op α} {s : Stop} (hr : op.run l = .error s) :
    s.toAbort.isOverflow ∨ op.OutOfRange xs.length := by
  cases op with
  | set i v => exact .inl (Stop.isOverflow_toAbort (set_error hr))
  | add v => exact .inl (Stop.isOverflow_toAbort (add_error (error_of_map_error hr)))
  | insert i v => exact .inl (Stop.isOverflow_toAbort (insert_error (error_of_map_error hr)))
  | removeAt i =>
    obtain ⟨e, he, rfl⟩ := error_of_mapError_error hr
    exact .inr (removeAt_error h he).1
  | swap a b =>
    obtain ⟨e, he, rfl⟩ := error_of_mapError_error (error_of_map_error hr)
    rcases swap_error h he with ⟨hout, -⟩ | ⟨s, hs, rfl⟩
    · exact .inr hout
    · exact .inl (show s.toAbort.isOverflow from Stop.isOverflow_toAbort hs)
  | clear => cases hr
  | extend vs => exact .inl (Stop.isOverflow_toAbort (addAll_error (error_of_map_error hr)))

/-! ### Reachable lists -/

/-- **The lists a caller can reach**: an emptied store that keeps the store's invariant, then any
run of operations. -/
inductive Reachable : NullList S → Prop
  | ofStore {s : S} : Good s → Reachable (ofStore s)
  | step {l l' : NullList S} (op : Op α) {a : Option α} : Reachable l → op.run l = .ok (a, l') →
      Reachable l'

/-- Every reachable list holds its own positions: the overlay invariant is kept by every step. -/
theorem Reachable.represents (h : l.Reachable) : l.cells.Represents l.toList := by
  induction h with
  | ofStore hs =>
    have h₀ := (represents_ofStore hs).1
    rwa [toList_eq h₀]
  | step op _ hrun ih =>
    have h' := (Op.run_ok ih hrun).1
    rwa [toList_eq h']

/-- A session opens its list by extending an emptied store, and so reaches it. -/
theorem Reachable.of_addAll {s : S} (hs : Good s) {items : List (Option α)}
    (h : (NullList.ofStore s).addAll items = .ok l) : l.Reachable :=
  have hrun : (Op.extend items).run (NullList.ofStore s) = .ok (none, l) := by
    rw [Op.run, h]
    rfl
  .step (.extend items) (.ofStore hs) hrun

/-! ### The refinement -/

/-- **A list with absent positions behaves as the array of its positions** `l.toList`: the length,
lookups and presence tests read it (nothing past the end), the values are its present values in
order, the cardinality, the number of values, the set presence bits and the present positions
agree, the four scans find the nearest present or absent position, every stored value is already
cut, and each operation answers and changes the array as on optional values, keeping the cut,
failing only on an overflow or out of range. -/
structure RefinesOptions (l : NullList S) : Prop where
  len_eq : l.len = l.toList.length
  get?_eq : ∀ i, l.get? i = l.toList.getD i none
  hasValue_eq : ∀ i, l.hasValue i = (l.toList.getD i none).isSome
  values_eq : l.values = l.toList.filterMap id
  cardinality_eq : l.cardinality = l.values.length ∧
    l.values.length = l.cells.presence.cardinality ∧
    l.cells.presence.cardinality = l.toList.countP Option.isSome
  nextValueIndex_eq_some_iff : ∀ i q, l.nextValueIndex i = some q ↔ IsNextWith l.toList true i q
  prevValueIndex_eq_some_iff : ∀ i q, l.prevValueIndex i = some q ↔ IsPrevWith l.toList true i q
  nextNullIndex_eq_some_iff : ∀ i q, l.nextNullIndex i = some q ↔ IsNextWith l.toList false i q
  prevNullIndex_eq_some_iff : ∀ i q, l.prevNullIndex i = some q ↔ IsPrevWith l.toList false i q
  values_cut : ∀ v ∈ l.values, cut l.cells.values v = v
  run_ok : ∀ {op : Op α} {a : Option α} {l' : NullList S}, op.run l = .ok (a, l') →
    cut l'.cells.values = cut l.cells.values ∧
      (a, l'.toList) = op.onList (cut l.cells.values) l.toList
  run_error : ∀ {op : Op α} {s : Stop}, op.run l = .error s →
    s.toAbort.isOverflow ∨ op.OutOfRange l.toList.length

/-- A list that holds its positions behaves as the array of them. -/
theorem refinesOptions_of_represents (h : l.cells.Represents xs) : l.RefinesOptions := by
  obtain rfl := toList_eq h
  have hcount : (l.toList.filterMap id).length = l.toList.countP Option.isSome :=
    List.length_filterMap_eq_countP
  exact {
    len_eq := len_eq h
    get?_eq := get?_eq h
    hasValue_eq := hasValue_eq h
    values_eq := values_eq h
    cardinality_eq := by
      rw [cardinality_eq h, values_eq h, presence_cardinality_eq h, hcount]
      exact ⟨rfl, rfl, rfl⟩
    nextValueIndex_eq_some_iff := fun _ _ => by
      rw [nextValueIndex, BitList.nextSetBit_eq, nextWith_eq_some_iff h]
    prevValueIndex_eq_some_iff := fun _ _ => by
      rw [prevValueIndex, BitList.prevSetBit_eq, prevWith_eq_some_iff h]
    nextNullIndex_eq_some_iff := fun _ _ => by
      rw [nextNullIndex, BitList.nextClearBit_eq, nextWith_eq_some_iff h]
    prevNullIndex_eq_some_iff := fun _ _ => by
      rw [prevNullIndex, BitList.prevClearBit_eq, prevWith_eq_some_iff h]
    values_cut := fun _ hv => LawfulDenseStore.cut_of_mem h.good hv
    run_ok := fun hr => by
      obtain ⟨hr', ha, hcut⟩ := Op.run_ok h hr
      rw [toList_eq hr', ha]
      exact ⟨hcut, rfl⟩
    run_error := fun hr => Op.run_error h hr }

/-- Every reachable list behaves as the array of its positions. -/
theorem Reachable.refinesOptions (h : l.Reachable) : l.RefinesOptions :=
  refinesOptions_of_represents h.represents

/-- **Every reachable list with absent positions behaves as the array of its positions**, over an
array of any values, which keeps each value whole, and over a packed list of every width in
`1..=64`, which reduces each value mod `2 ^ width`. -/
theorem refinesOptions_of_reachable :
    (∀ {α : Type} [BEq α] {l : NullList (Array α)}, l.Reachable →
      l.RefinesOptions ∧ ∀ v, cut l.cells.values v = v) ∧
    (∀ {l : NullList PackedList}, l.Reachable →
      l.RefinesOptions ∧ 1 ≤ l.cells.values.width ∧ l.cells.values.width ≤ 64 ∧
        ∀ v, (cut l.cells.values v).toNat = v.toNat % (1 <<< l.cells.values.width)) := by
  refine ⟨fun h => ⟨h.refinesOptions, fun _ => rfl⟩, ?_⟩
  intro l h
  have hvalid : l.cells.values.Valid := h.represents.good
  exact ⟨h.refinesOptions, hvalid.width_pos, hvalid.width_le,
    fun v => Stream.toNat_and_lowBits hvalid.width_le v⟩

/-- An emptied array of integers and an emptied packed list of 3-bit values, run through a write
past the end, additions, an insertion, a swap of a present and an absent position, a removal and
an extension: each behaves as the array of its positions, the array keeping its values whole and
the packed list cutting them to three bits, and the scans find the nearest present and absent
positions. -/
theorem ofStore_refinesOptions :
    (∃ l, runSteps Op.run [.set 2 (some 5), .add none, .insert 1 (some 7), .add (some (-9)),
        .swap 0 3, .removeAt 2, .extend [none, some 12]] (ofStore (#[] : Array Int)) = .ok l ∧
      l.Reachable ∧ l.RefinesOptions ∧
      l.toList = [some 5, some 7, none, none, some (-9), none, some 12] ∧
      l.nextValueIndex 2 = some 4 ∧ l.prevNullIndex 4 = some 3) ∧
    (∃ l, runSteps Op.run [.set 2 (some 5), .add none, .insert 1 (some 7), .add (some 9),
        .swap 0 3, .removeAt 2, .extend [none, some 12]]
          (ofStore (⟨#[], 0, 0, 3, 0⟩ : PackedList)) = .ok l ∧
      l.Reachable ∧ l.RefinesOptions ∧
      l.toList = [some 5, some 7, none, none, some 1, none, some 4] ∧
      l.nextValueIndex 2 = some 4 ∧ l.prevNullIndex 4 = some 3) := by
  obtain ⟨la, hrun_a, hfacts_a⟩ := exists_ok_of_any (x := runSteps Op.run [.set 2 (some 5),
      .add none, .insert 1 (some 7), .add (some (-9)), .swap 0 3, .removeAt 2,
      .extend [none, some 12]] (ofStore (#[] : Array Int)))
    (p := fun l => decide (l.toList = [some 5, some 7, none, none, some (-9), none, some 12] ∧
      l.nextValueIndex 2 = some 4 ∧ l.prevNullIndex 4 = some 3)) (by decide +kernel)
  obtain ⟨lp, hrun_p, hfacts_p⟩ := exists_ok_of_any (x := runSteps Op.run [.set 2 (some 5),
      .add none, .insert 1 (some 7), .add (some 9), .swap 0 3, .removeAt 2,
      .extend [none, some 12]] (ofStore (⟨#[], 0, 0, 3, 0⟩ : PackedList)))
    (p := fun l => decide (l.toList = [some 5, some 7, none, none, some 1, none, some 4] ∧
      l.nextValueIndex 2 = some 4 ∧ l.prevNullIndex 4 = some 3)) (by decide +kernel)
  rw [decide_eq_true_iff] at hfacts_a hfacts_p
  have ha : la.Reachable :=
    runSteps_invariant (fun op _ _ _ h hop => Reachable.step op h hop) (.ofStore trivial) hrun_a
  have hp : lp.Reachable := runSteps_invariant (fun op _ _ _ h hop => Reachable.step op h hop)
    (.ofStore (PackedList.valid_of_new? (show PackedList.new? 3 = .ok ⟨#[], 0, 0, 3, 0⟩ from rfl)))
    hrun_p
  exact ⟨⟨la, hrun_a, ha, (refinesOptions_of_reachable.1 ha).1, hfacts_a⟩,
    ⟨lp, hrun_p, hp, (refinesOptions_of_reachable.2 hp).1, hfacts_p⟩⟩

end NullList

end CompactCollections
