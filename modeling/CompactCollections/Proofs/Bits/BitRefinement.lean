import CompactCollections.Proofs.Ranked
import CompactCollections.Session.Bits
/-!
# A bit list is a growable array of booleans

Every bit list a caller can reach (`CompactCollections.BitList.Reachable`) behaves as the list of
its bits (`CompactCollections.BitList.RefinesBools`): bit `i` is entry `i` of that list, `false`
past the end; the rank of a position counts the set entries up to it and the cardinality all of
them; the four scans find the nearest entry holding `true` or `false`; the set positions are
listed in ascending order; and each operation that succeeds answers and changes the list as a
growable array of booleans does (`CompactCollections.BitList.Op.onList`). An operation fails only
on a storage overflow, or when it removes a position at or past the end.

The words keep every stream bit from the length on clear, whatever the history, so two lists are
equal (same length, same used words) exactly when their bits are
(`CompactCollections.BitList.Reachable.refinesBools_and_sameBits_iff`).

All of it rests on `CompactCollections.BitList.Valid` and on what each operation does to single
bits (`Proofs/Bits/BitList.lean`); here those facts are read through the list of bits.
-/

namespace CompactCollections.BitList

open CompactCollections.Stream

variable {l l' : BitList} {xs : List Bool} {i : Nat}

/-! ### The bits in order -/

@[simp] theorem length_toList (l : BitList) : l.toList.length = l.len := by
  simp [toList]

theorem getElem?_toList (l : BitList) (q : Nat) :
    l.toList[q]? = if q < l.len then some (l.get q) else none := by
  unfold toList
  by_cases hq : q < l.len <;> simp [hq]

/-- **Bit `q` is entry `q` of the list of bits**, `false` past the end. -/
theorem getD_toList (l : BitList) (q : Nat) : l.toList.getD q false = l.get q := by
  rw [List.getD_eq_getElem?_getD, getElem?_toList]
  split
  · rfl
  · rename_i hq
    exact (get_of_le (Nat.le_of_not_lt hq)).symm

/-- A list holds `xs` when it is as long and each of its bits is the entry of `xs`. -/
theorem toList_eq_iff : l.toList = xs ↔ l.len = xs.length ∧ ∀ q, l.get q = xs.getD q false := by
  constructor
  · rintro rfl
    exact ⟨(length_toList l).symm, fun q => (getD_toList l q).symm⟩
  · rintro ⟨hlen, hget⟩
    refine List.ext_getElem (by rw [length_toList, hlen]) fun q hq hq' => ?_
    have h := getD_toList l q
    rw [hget q, List.getD_eq_getElem?_getD, List.getD_eq_getElem?_getD,
      List.getElem?_eq_getElem hq, List.getElem?_eq_getElem hq'] at h
    exact h

/-- An entry holds `b` exactly when it lies below the length and the bit there is `b`. -/
theorem getElem?_toList_eq_some {b : Bool} {q : Nat} :
    l.toList[q]? = some b ↔ q < l.len ∧ l.get q = b := by
  rw [getElem?_toList]
  split <;> simp [*]

/-! ### The reference operations -/

/-- Writes `b` at position `i`: within the length the entry is replaced; past it the list first
grows with `false` up to position `i`. -/
def setPadded (xs : List Bool) (i : Nat) (b : Bool) : List Bool :=
  if i < xs.length then xs.set i b else xs ++ List.replicate (i - xs.length) false ++ [b]

/-- Inserts `b` at position `i`, moving the later entries up; at or past the end it writes. -/
def insertPadded (xs : List Bool) (i : Nat) (b : Bool) : List Bool :=
  if i < xs.length then xs.insertIdx i b else setPadded xs i b

theorem length_setPadded (xs : List Bool) (i : Nat) (b : Bool) :
    (setPadded xs i b).length = max xs.length (i + 1) := by
  unfold setPadded
  split <;> simp <;> omega

theorem getD_setPadded (xs : List Bool) (i : Nat) (b : Bool) (q : Nat) :
    (setPadded xs i b).getD q false = if q = i then b else xs.getD q false := by
  unfold setPadded
  split
  · rename_i hi
    simp only [List.getD_eq_getElem?_getD, List.getElem?_set]
    by_cases hq : q = i
    · simp [hq, hi]
    · simp [hq, Ne.symm hq]
  · -- past the end: the old entries, the padding, then `b`
    simp only [List.getD_eq_getElem?_getD, List.getElem?_append, List.getElem?_replicate,
      List.length_append, List.length_replicate]
    split_ifs <;> grind

theorem getD_insertIdx (hi : i ≤ xs.length) (b : Bool) (q : Nat) :
    (xs.insertIdx i b).getD q false =
      if q < i then xs.getD q false else if q = i then b else xs.getD (q - 1) false := by
  rw [List.getD_eq_getElem?_getD, List.getElem?_insertIdx]
  by_cases hq : q < i
  · rw [if_pos hq, if_pos hq, List.getD_eq_getElem?_getD]
  · rw [if_neg hq, if_neg hq]
    by_cases hqi : q = i
    · rw [if_pos hqi, if_pos hqi, if_pos (by omega)]
      rfl
    · rw [if_neg hqi, if_neg hqi, List.getD_eq_getElem?_getD]

theorem getD_eraseIdx (xs : List Bool) (i q : Nat) :
    (xs.eraseIdx i).getD q false = if q < i then xs.getD q false else xs.getD (q + 1) false := by
  rw [List.getD_eq_getElem?_getD, List.getElem?_eraseIdx]
  split <;> rw [List.getD_eq_getElem?_getD]

theorem getD_take_append_replicate (xs : List Bool) (n q : Nat) :
    (xs.take n ++ List.replicate (n - xs.length) false).getD q false =
      (decide (q < n) && xs.getD q false) := by
  simp only [List.getD_eq_getElem?_getD, List.getElem?_append, List.getElem?_take,
    List.getElem?_replicate, List.length_take]
  split_ifs <;> grind

/-! ### Operations -/

/-- The operations that change a bit list. -/
inductive Op where
  | set (i : Nat) (b : Bool)
  | add (b : Bool)
  | insert (i : Nat) (b : Bool)
  | removeAt (i : Nat)
  | setLen (n : Nat)
  | clear
  deriving Repr

/-- Applies an operation: the bit it removes, if any, and the list after it. -/
def Op.run : Op → BitList → Except Stop (Option Bool × BitList)
  | .set i b, l => (l.set i b).map (none, ·)
  | .add b, l => (l.add b).map (none, ·)
  | .insert i b, l => (l.insert i b).map (none, ·)
  | .removeAt i, l => ((l.removeAt i).mapError .aborted).map fun r => (some r.1, r.2)
  | .setLen n, l => (l.setLen n).map (none, ·)
  | .clear, l => .ok (none, l.clear)

/-- **What an operation does to an array of booleans**: a write pads with `false` up to its
position, an insertion at or past the end writes, a removal answers the entry it removes, and
setting the length truncates or pads with `false`. -/
def Op.onList : Op → List Bool → Option Bool × List Bool
  | .set i b, xs => (none, setPadded xs i b)
  | .add b, xs => (none, xs ++ [b])
  | .insert i b, xs => (none, insertPadded xs i b)
  | .removeAt i, xs => (xs[i]?, xs.eraseIdx i)
  | .setLen n, xs => (none, xs.take n ++ List.replicate (n - xs.length) false)
  | .clear, _ => (none, [])

/-- A write keeps a valid list valid and writes its entry, padding with `false`. -/
theorem set_toList (h : l.Valid) {b : Bool} (hs : l.set i b = .ok l') :
    l'.Valid ∧ l'.toList = setPadded l.toList i b := by
  obtain ⟨hv, hlen, hget⟩ := set_ok h hs
  refine ⟨hv, toList_eq_iff.mpr ⟨by rw [hlen, length_setPadded, length_toList], fun q => ?_⟩⟩
  rw [hget, getD_setPadded, getD_toList]

/-- An insertion keeps a valid list valid and inserts its entry, writing at or past the end. -/
theorem insert_toList (h : l.Valid) {b : Bool} (hs : l.insert i b = .ok l') :
    l'.Valid ∧ l'.toList = insertPadded l.toList i b := by
  by_cases hi : i < l.len
  · obtain ⟨hv, hlen, hget⟩ := insert_ok h hi hs
    have hi' : i < l.toList.length := by rwa [length_toList]
    refine ⟨hv, ?_⟩
    rw [insertPadded, if_pos hi']
    refine toList_eq_iff.mpr
      ⟨by rw [hlen, List.length_insertIdx_of_le_length (Nat.le_of_lt hi'), length_toList],
        fun q => ?_⟩
    rw [hget, getD_insertIdx (Nat.le_of_lt hi')]
    simp only [getD_toList]
  · rw [BitList.insert, if_pos (Nat.le_of_not_lt hi)] at hs
    rw [insertPadded, if_neg (by rwa [length_toList])]
    exact set_toList h hs

/-- A removal keeps a valid list valid, answers its entry and erases it. -/
theorem removeAt_toList (h : l.Valid) {b : Bool} (hr : l.removeAt i = .ok (b, l')) :
    l'.Valid ∧ some b = l.toList[i]? ∧ l'.toList = l.toList.eraseIdx i := by
  obtain ⟨hi, rfl, hv, hlen, hget⟩ := removeAt_ok h hr
  have hlen' : l'.len = (l.toList.eraseIdx i).length := by
    rw [hlen, List.length_eraseIdx_of_lt (by rwa [length_toList]), length_toList]
  refine ⟨hv, by rw [getElem?_toList, if_pos hi], toList_eq_iff.mpr ⟨hlen', fun q => ?_⟩⟩
  rw [hget, getD_eraseIdx]
  simp only [getD_toList]

/-- Setting the length keeps a valid list valid and truncates or pads with `false`. -/
theorem setLen_toList (h : l.Valid) {n : Nat} (hs : l.setLen n = .ok l') :
    l'.Valid ∧ l'.toList = l.toList.take n ++ List.replicate (n - l.toList.length) false := by
  obtain ⟨hv, hlen, hget⟩ := setLen_ok h hs
  refine ⟨hv, toList_eq_iff.mpr ⟨by simp [hlen]; omega, fun q => ?_⟩⟩
  rw [hget, getD_take_append_replicate, getD_toList]

/-- An operation that answers nothing answers `none` with the list it leaves. -/
theorem none_of_map_ok {x : Except Stop BitList} {a : Option Bool}
    (hr : x.map (none, ·) = .ok (a, l')) : a = none ∧ x = .ok l' := by
  obtain ⟨l₁, hx, he⟩ := ok_of_map_ok hr
  cases he
  exact ⟨rfl, hx⟩

/-- **Each operation that succeeds on a valid list** answers and changes the bits as on the array
of booleans, and keeps the list valid. -/
theorem Op.run_ok (h : l.Valid) {op : Op} {a : Option Bool} (hr : op.run l = .ok (a, l')) :
    l'.Valid ∧ (a, l'.toList) = op.onList l.toList := by
  cases op with
  | set i b =>
    obtain ⟨rfl, hs⟩ := none_of_map_ok hr
    obtain ⟨hv, hxs⟩ := set_toList h hs
    exact ⟨hv, by rw [hxs]; rfl⟩
  | add b =>
    obtain ⟨rfl, hs⟩ := none_of_map_ok hr
    obtain ⟨hv, hxs⟩ := set_toList h hs
    -- a write at the end appends
    have happ : setPadded l.toList l.len b = l.toList ++ [b] := by
      rw [setPadded, if_neg (by simp), length_toList, Nat.sub_self, List.replicate_zero,
        List.append_nil]
    exact ⟨hv, by rw [hxs, happ]; rfl⟩
  | insert i b =>
    obtain ⟨rfl, hs⟩ := none_of_map_ok hr
    obtain ⟨hv, hxs⟩ := insert_toList h hs
    exact ⟨hv, by rw [hxs]; rfl⟩
  | removeAt i =>
    obtain ⟨⟨b, l₁⟩, hs, he⟩ := ok_of_map_ok hr
    cases he
    obtain ⟨hv, hb, hxs⟩ := removeAt_toList h (ok_of_mapError_ok hs)
    exact ⟨hv, by rw [Op.onList, hxs, ← hb]⟩
  | setLen n =>
    obtain ⟨rfl, hs⟩ := none_of_map_ok hr
    obtain ⟨hv, hxs⟩ := setLen_toList h hs
    exact ⟨hv, by rw [hxs]; rfl⟩
  | clear =>
    cases hr
    obtain ⟨hv, hlen, hget⟩ := clear_spec l
    have hnil : l.clear.toList = [] := toList_eq_iff.mpr ⟨hlen, hget⟩
    exact ⟨hv, by rw [Op.onList, hnil]⟩

/-- **An operation fails only on a storage overflow**, or when it removes a position at or past
the end, which aborts naming the position and the length. -/
theorem Op.run_error {op : Op} {s : Stop} (hr : op.run l = .error s) :
    s.isOverflow ∨ ∃ i, op = .removeAt i ∧ l.len ≤ i ∧
      s = .aborted (.indexOutOfBounds .bits i l.len) := by
  cases op with
  | set i b => exact .inl (set_error (error_of_map_error hr))
  | add b => exact .inl (set_error (error_of_map_error hr))
  | insert i b => exact .inl (insert_error (error_of_map_error hr))
  | removeAt i =>
    obtain ⟨a, ha, rfl⟩ := error_of_mapError_error (error_of_map_error hr)
    obtain ⟨hi, rfl⟩ := removeAt_error ha
    exact .inr ⟨i, rfl, hi, rfl⟩
  | setLen n => exact .inl (setLen_error (error_of_map_error hr))
  | clear => cases hr

/-! ### Reachable lists -/

/-- **The bit lists a caller can reach**: the empty list, then any run of operations. -/
inductive Reachable : BitList → Prop
  | empty : Reachable empty
  | step {l l' : BitList} (op : Op) {a : Option Bool} : Reachable l → op.run l = .ok (a, l') →
      Reachable l'

/-- Every reachable list is valid. -/
theorem Reachable.valid (h : l.Reachable) : l.Valid := by
  induction h with
  | empty => exact fun p _ => testBit_empty p
  | step op _ hrun ih => exact (Op.run_ok ih hrun).1

/-- Appending bits one by one is a run of operations. -/
theorem Reachable.addAll (h : l.Reachable) {bs : List Bool} (ha : l.addAll bs = .ok l') :
    l'.Reachable := by
  induction bs generalizing l with
  | nil => cases ha; exact h
  | cons b bs ih =>
    obtain ⟨l₁, hadd, hrest⟩ := ok_of_bind_ok ha
    have hrun : (Op.add b).run l = .ok (none, l₁) := by rw [Op.run, hadd]; rfl
    exact ih (.step (.add b) h hrun) hrest

/-- A session's list, sized for some bits and then given its initial bits, is reachable. -/
theorem Reachable.of_session {c : Nat} {bs : List Bool}
    (h : (withCapacity c >>= (·.addAll bs)) = .ok l) : l.Reachable := by
  obtain ⟨l₀, h₀, ha⟩ := ok_of_bind_ok h
  obtain ⟨n, -, h₀⟩ := ok_of_bind_ok h₀
  cases h₀
  exact Reachable.empty.addAll ha

/-! ### Counting and scanning, read on the list -/

/-- Counting the set bits below `n` one by one is counting `true` in the first `n` entries. -/
theorem countP_range_getD (xs : List Bool) (n : Nat) :
    (List.range n).countP (fun q => xs.getD q false) = (xs.take n).count true := by
  induction n with
  | zero => simp
  | succ n ih =>
    rw [List.range_succ, List.countP_append, ih, List.take_add_one, List.count_append]
    cases h : xs[n]? with
    | none => simp [List.getD_eq_getElem?_getD, h]
    | some b => cases b <;> simp [List.getD_eq_getElem?_getD, h]

/-- **The rank of a position in a valid list counts `true` among the entries up to it.** -/
theorem Valid.rank_eq_count (h : l.Valid) (i : Nat) :
    l.rank i = (l.toList.take (i + 1)).count true := by
  rw [h.rank_eq, ← countP_range_getD]
  exact List.countP_congr fun q _ => by rw [getD_toList]

/-- **The cardinality of a valid list counts `true` among its entries.** -/
theorem Valid.cardinality_eq_count (h : l.Valid) : l.cardinality = l.toList.count true := by
  rw [h.cardinality_eq, ← List.take_length (l := l.toList), ← countP_range_getD, length_toList]
  exact List.countP_congr fun q _ => by rw [getD_toList]

/-- **`q` is the first entry at or after `i` holding `b`.** -/
def IsNextBit (xs : List Bool) (b : Bool) (i q : Nat) : Prop :=
  i ≤ q ∧ xs[q]? = some b ∧ ∀ r, i ≤ r → r < q → xs[r]? ≠ some b

/-- **`q` is the last entry at or before `i` holding `b`.** -/
def IsPrevBit (xs : List Bool) (b : Bool) (i q : Nat) : Prop :=
  q ≤ i ∧ xs[q]? = some b ∧ ∀ r, q < r → r ≤ i → xs[r]? ≠ some b

/-- The forward scan finds the first entry holding `b` at or after its start. -/
theorem nextWith_eq_some_iff_isNextBit {b : Bool} {q : Nat} :
    l.nextWith b i = some q ↔ IsNextBit l.toList b i q := by
  rw [nextWith_eq_some_iff, IsNextBit, getElem?_toList_eq_some]
  constructor
  · rintro ⟨hiq, hq, hb, hmin⟩
    exact ⟨hiq, ⟨hq, hb⟩, fun r h₁ h₂ hr => hmin r h₁ h₂ (getElem?_toList_eq_some.mp hr).2⟩
  · rintro ⟨hiq, ⟨hq, hb⟩, hmin⟩
    exact ⟨hiq, hq, hb, fun r h₁ h₂ hr =>
      hmin r h₁ h₂ (getElem?_toList_eq_some.mpr ⟨by omega, hr⟩)⟩

/-- The backward scan finds the last entry holding `b` at or before its bound. -/
theorem prevWith_eq_some_iff_isPrevBit {b : Bool} {q : Nat} :
    l.prevWith b i = some q ↔ IsPrevBit l.toList b i q := by
  rw [prevWith_eq_some_iff, IsPrevBit, getElem?_toList_eq_some]
  constructor
  · rintro ⟨hqi, hq, hb, hmax⟩
    exact ⟨hqi, ⟨hq, hb⟩, fun r h₁ h₂ hr =>
      hmax r h₁ h₂ (getElem?_toList_eq_some.mp hr).1 (getElem?_toList_eq_some.mp hr).2⟩
  · rintro ⟨hqi, ⟨hq, hb⟩, hmax⟩
    exact ⟨hqi, hq, hb, fun r h₁ h₂ h₃ hr =>
      hmax r h₁ h₂ (getElem?_toList_eq_some.mpr ⟨h₃, hr⟩)⟩

/-- The set positions are listed in ascending order. -/
theorem ones_pairwise (l : BitList) : l.ones.Pairwise (· < ·) := by
  rw [ones_eq]
  exact (List.pairwise_lt_range).filter _

/-- A position is listed as set exactly when its entry is `true`. -/
theorem mem_ones {q : Nat} : q ∈ l.ones ↔ l.toList[q]? = some true := by
  rw [ones_eq, List.mem_filter, List.mem_range, getElem?_toList_eq_some]

/-! ### Equality -/

section Equality

variable {a b : BitList}

/-- Lists of one length with equal used words hold the same bits. -/
theorem toList_eq_of_usedWords_eq (hlen : a.len = b.len) (hu : a.usedWords = b.usedWords) :
    a.toList = b.toList := by
  refine toList_eq_iff.mpr ⟨by rw [hlen, length_toList], fun q => ?_⟩
  rw [getD_toList]
  by_cases hq : q < a.len
  · -- the bit lies in a used word, which both lists share
    have hword : q / 64 < wordsFor a.len := by unfold wordsFor; omega
    have hat := word_eq_of_firstWords_eq hu hword
    simp only [get, hq, ← hlen, decide_true, Bool.true_and, testBit_eq, hat]
  · rw [get_of_le (by omega), get_of_le (by omega)]

/-- Two valid lists with the same bits agree on every stream bit. -/
theorem testBit_eq_of_toList_eq (ha : a.Valid) (hb : b.Valid) (hxs : a.toList = b.toList)
    (p : Nat) : testBit a.words p = testBit b.words p := by
  rw [← ha.get_eq, ← hb.get_eq, ← getD_toList, ← getD_toList, hxs]

/-- **Two valid lists are the same exactly when their bits are.** -/
theorem sameBits_iff (ha : a.Valid) (hb : b.Valid) : a.sameBits b = true ↔ a.toList = b.toList := by
  simp only [sameBits, Bool.and_eq_true, beq_iff_eq]
  constructor
  · rintro ⟨hlen, hu⟩
    exact toList_eq_of_usedWords_eq hlen hu
  · intro hxs
    have hlen : a.len = b.len := by rw [← length_toList, hxs, length_toList]
    refine ⟨hlen, ?_⟩
    unfold usedWords
    rw [hlen]
    exact firstWords_eq_of_testBit_eq (testBit_eq_of_toList_eq ha hb hxs) _

end Equality

/-! ### The refinement -/

/-- **A bit list behaves as the array of its bits** `l.toList`: every stream bit from the length
on is clear; the length and every bit read the array (`false` past the end); the rank of a
position counts `true` up to it and the cardinality all of it; the four scans find the nearest
entry holding `true` or `false`; the set positions are listed ascending; each operation that
succeeds answers and changes the array as on booleans; and an operation fails only on a storage
overflow or a removal at or past the end. -/
structure RefinesBools (l : BitList) : Prop where
  clear_above : ∀ p, l.len ≤ p → testBit l.words p = false
  len_eq : l.len = l.toList.length
  get_eq : ∀ i, l.get i = l.toList.getD i false
  rank_eq : ∀ i, l.rank i = (l.toList.take (i + 1)).count true
  cardinality_eq : l.cardinality = l.toList.count true
  nextSetBit_eq_some_iff : ∀ i q, l.nextSetBit i = some q ↔ IsNextBit l.toList true i q
  nextClearBit_eq_some_iff : ∀ i q, l.nextClearBit i = some q ↔ IsNextBit l.toList false i q
  prevSetBit_eq_some_iff : ∀ i q, l.prevSetBit i = some q ↔ IsPrevBit l.toList true i q
  prevClearBit_eq_some_iff : ∀ i q, l.prevClearBit i = some q ↔ IsPrevBit l.toList false i q
  ones_pairwise : l.ones.Pairwise (· < ·)
  mem_ones : ∀ q, q ∈ l.ones ↔ l.toList[q]? = some true
  run_ok : ∀ {op : Op} {a : Option Bool} {l' : BitList}, op.run l = .ok (a, l') →
    (a, l'.toList) = op.onList l.toList
  run_error : ∀ {op : Op} {s : Stop}, op.run l = .error s →
    s.isOverflow ∨ ∃ i, op = .removeAt i ∧ l.toList.length ≤ i ∧
      s = .aborted (.indexOutOfBounds .bits i l.toList.length)

theorem Valid.refines (h : l.Valid) : l.RefinesBools where
  clear_above := h
  len_eq := (length_toList l).symm
  get_eq q := (getD_toList l q).symm
  rank_eq := h.rank_eq_count
  cardinality_eq := h.cardinality_eq_count
  nextSetBit_eq_some_iff i _ := by rw [nextSetBit_eq, nextWith_eq_some_iff_isNextBit]
  nextClearBit_eq_some_iff i _ := by rw [nextClearBit_eq, nextWith_eq_some_iff_isNextBit]
  prevSetBit_eq_some_iff i _ := by rw [prevSetBit_eq, prevWith_eq_some_iff_isPrevBit]
  prevClearBit_eq_some_iff i _ := by rw [prevClearBit_eq, prevWith_eq_some_iff_isPrevBit]
  ones_pairwise := ones_pairwise l
  mem_ones _ := mem_ones
  run_ok hr := (Op.run_ok h hr).2
  run_error hr := by
    rw [length_toList]
    exact Op.run_error hr

/-- **Every reachable bit list behaves as the array of its bits**, keeping every stream bit past
its length clear; so two reachable lists are equal, by length and used words, exactly when their
bits are. -/
theorem Reachable.refinesBools_and_sameBits_iff {a b : BitList} (ha : a.Reachable)
    (hb : b.Reachable) : a.RefinesBools ∧ (a.sameBits b = true ↔ a.toList = b.toList) :=
  ⟨ha.valid.refines, sameBits_iff ha.valid hb.valid⟩

/-- Bits set across two words by writes, an insertion and the removal of the first bit, and the
same bits reached by appends, a write far past them and a cut back to 72 bits that leaves a third,
zero word: both behave as the array of their bits, the scans crossing the word boundary, and the
two are equal. -/
theorem twoHistories_refinesBools_and_sameBits_iff :
    ∃ a b, runSteps Op.run [.set 70 true, .insert 3 true, .add false, .removeAt 0, .set 5 true]
        empty = .ok a ∧
      runSteps Op.run [.add false, .add false, .add true, .set 139 true, .set 5 true, .set 70 true,
        .setLen 72] empty = .ok b ∧
      a.Reachable ∧ b.Reachable ∧ (a.RefinesBools ∧ (a.sameBits b = true ↔ a.toList = b.toList)) ∧
      a.ones = [2, 5, 70] ∧ a.nextSetBit 6 = some 70 ∧ a.prevSetBit 69 = some 5 ∧
      a.words.size = 2 ∧ b.words.size = 3 ∧ a.sameBits b = true ∧ a.toList = b.toList := by
  obtain ⟨a, ha, hfacts_a⟩ := exists_ok_of_any (x := runSteps Op.run [.set 70 true,
      .insert 3 true, .add false, .removeAt 0, .set 5 true] empty)
    (p := fun a => decide (a.ones = [2, 5, 70] ∧ a.nextSetBit 6 = some 70 ∧
      a.prevSetBit 69 = some 5 ∧ a.words.size = 2)) (by decide +kernel)
  obtain ⟨b, hb, hsize_b⟩ := exists_ok_of_any (x := runSteps Op.run [.add false, .add false,
      .add true, .set 139 true, .set 5 true, .set 70 true, .setLen 72] empty)
    (p := fun b => decide (b.words.size = 3)) (by decide +kernel)
  have hsame : a.sameBits b = true := by
    have hcheck : (runSteps Op.run [.set 70 true, .insert 3 true, .add false, .removeAt 0,
        .set 5 true] empty).toOption.any (fun a => (runSteps Op.run [.add false, .add false,
          .add true, .set 139 true, .set 5 true, .set 70 true, .setLen 72] empty).toOption.any
            a.sameBits) = true := by decide +kernel
    rwa [ha, hb] at hcheck
  have hreach_a : a.Reachable :=
    runSteps_invariant (fun op _ _ _ h hop => Reachable.step op h hop) .empty ha
  have hreach_b : b.Reachable :=
    runSteps_invariant (fun op _ _ _ h hop => Reachable.step op h hop) .empty hb
  have hrefines := Reachable.refinesBools_and_sameBits_iff hreach_a hreach_b
  obtain ⟨hones, hnext, hprev, hsize_a⟩ := of_decide_eq_true hfacts_a
  exact ⟨a, b, ha, hb, hreach_a, hreach_b, hrefines, hones, hnext, hprev, hsize_a,
    of_decide_eq_true hsize_b, hsame, hrefines.2.mp hsame⟩

end CompactCollections.BitList
