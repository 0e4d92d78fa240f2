import CompactCollections.Proofs.Except
/-!
# Present values kept densely

A collection whose positions each hold a value or nothing may keep only the values, densely: the
values of the present positions in position order. Read as the list `xs : List (Option α)` of
its positions, that dense list is `xs.filterMap id`, and the value of a present position `i`
sits at index `(xs.take i).countP Option.isSome`, the number of present positions before `i`
(`CompactCollections.Dense.getElem?_filterMap`).

Every change to a position is one change to the dense list at that index:

* writing a value where there was one replaces it; where there was none, it is inserted;
* writing nothing where there was a value erases it;
* opening a position holding a value inserts it; closing a present position erases its value,
  and opening or closing an absent one leaves the dense list as it was.

Byte maps and lists with absent positions both keep their values so, finding the index by a
rank over presence bits.
-/

namespace CompactCollections.Dense

variable {α : Type} {xs : List (Option α)} {i : Nat} {v w : α}

/-- Inserting right after a prefix puts the value between the prefix and the rest. -/
theorem insertIdx_length_append {β : Type} (as bs : List β) (y : β) :
    (as ++ bs).insertIdx as.length y = as ++ y :: bs := by
  induction as with
  | nil => rw [List.nil_append, List.length_nil, List.insertIdx_zero, List.nil_append]
  | cons a as ih => rw [List.cons_append, List.length_cons, List.insertIdx_succ_cons, ih]; rfl

/-- The dense list of a prefix has one entry per present position of it. -/
theorem length_filterMap_take (xs : List (Option α)) (i : Nat) :
    ((xs.take i).filterMap id).length = (xs.take i).countP Option.isSome :=
  List.length_filterMap_eq_countP

/-- The dense list of the positions before `i`, what position `i` holds, then the rest. -/
theorem filterMap_take_cons_drop (xs : List (Option α)) (i : Nat) (y : Option α) :
    (xs.take i ++ y :: xs.drop (i + 1)).filterMap id =
      (xs.take i).filterMap id ++ y.toList ++ (xs.drop (i + 1)).filterMap id := by
  rw [List.filterMap_append, List.filterMap_cons, List.append_assoc]
  cases y <;> rfl

/-- A list split at a position it has: the positions before, that one, and the rest. -/
theorem eq_take_cons_drop {x : Option α} (h : xs[i]? = some x) :
    xs = xs.take i ++ x :: xs.drop (i + 1) := by
  obtain ⟨hi, rfl⟩ := List.getElem?_eq_some_iff.mp h
  rw [List.getElem_cons_drop, List.take_append_drop]

/-- The dense list split at a position the list has. -/
theorem filterMap_eq_of_getElem? {x : Option α} (h : xs[i]? = some x) :
    xs.filterMap id = (xs.take i).filterMap id ++ x.toList ++ (xs.drop (i + 1)).filterMap id := by
  rw [← filterMap_take_cons_drop, ← eq_take_cons_drop h]

/-! ### Presence counts -/

theorem getElem?_of_getD_eq_some (h : xs.getD i none = some v) : xs[i]? = some (some v) := by
  rw [List.getD_eq_getElem?_getD] at h
  cases hx : xs[i]? with
  | none => rw [hx] at h; cases h
  | some y => rw [hx] at h; rw [← h]; rfl

theorem getD_of_getElem? {y : Option α} (h : xs[i]? = some y) : xs.getD i none = y := by
  rw [List.getD_eq_getElem?_getD, h]
  rfl

/-- Counting present positions below `n` one by one is counting them in the first `n`. -/
theorem countP_range_getD (xs : List (Option α)) (n : Nat) :
    (List.range n).countP (fun q => (xs.getD q none).isSome) = (xs.take n).countP Option.isSome := by
  induction n with
  | zero => simp
  | succ n ih =>
    rw [List.range_succ, List.countP_append, ih, List.take_add_one, List.countP_append]
    cases h : xs[n]? <;> simp [List.getD_eq_getElem?_getD, h]

/-- Two lists present at the same positions below `n` count the same present positions there. -/
theorem countP_take_congr {ys : List (Option α)} {n : Nat}
    (h : ∀ q < n, (ys.getD q none).isSome = (xs.getD q none).isSome) :
    (ys.take n).countP Option.isSome = (xs.take n).countP Option.isSome := by
  rw [← countP_range_getD, ← countP_range_getD]
  exact List.countP_congr fun q hq => by rw [h q (List.mem_range.mp hq)]

theorem countP_take_succ_of_some (h : xs[i]? = some (some v)) :
    (xs.take (i + 1)).countP Option.isSome = (xs.take i).countP Option.isSome + 1 := by
  rw [List.take_add_one, h, List.countP_append]
  rfl

theorem countP_take_le_length (xs : List (Option α)) (i : Nat) :
    (xs.take i).countP Option.isSome ≤ (xs.filterMap id).length := by
  rw [List.length_filterMap_eq_countP]
  exact (List.take_sublist i xs).countP_le

/-! ### Reading -/

/-- **The value of a present position sits at the number of present positions before it.** -/
theorem getElem?_filterMap (h : xs[i]? = some (some v)) :
    (xs.filterMap id)[(xs.take i).countP Option.isSome]? = some v := by
  rw [filterMap_eq_of_getElem? h, ← length_filterMap_take, List.append_assoc,
    List.getElem?_append_right (Nat.le_refl _), Nat.sub_self]
  rfl

/-! ### Writing a position -/

/-- Writing a value at a present position replaces its value. -/
theorem filterMap_set_of_some (h : xs[i]? = some (some w)) (v : α) :
    (xs.set i (some v)).filterMap id =
      (xs.filterMap id).set ((xs.take i).countP Option.isSome) v := by
  have hi : i < xs.length := (List.getElem?_eq_some_iff.mp h).1
  rw [List.set_eq_take_append_cons_drop, if_pos hi, filterMap_take_cons_drop, filterMap_eq_of_getElem? h,
    ← length_filterMap_take]
  simp only [Option.toList_some, List.append_assoc, List.singleton_append]
  rw [List.set_append_right _ _ (Nat.le_refl _), Nat.sub_self, List.set_cons_zero]

/-- Writing a value at an absent position inserts it at the number of present positions
before. -/
theorem filterMap_set_of_none (h : xs[i]? = some none) (v : α) :
    (xs.set i (some v)).filterMap id =
      (xs.filterMap id).insertIdx ((xs.take i).countP Option.isSome) v := by
  have hi : i < xs.length := (List.getElem?_eq_some_iff.mp h).1
  rw [List.set_eq_take_append_cons_drop, if_pos hi, filterMap_take_cons_drop, filterMap_eq_of_getElem? h,
    ← length_filterMap_take]
  simp only [Option.toList_some, Option.toList_none, List.append_nil, List.append_assoc,
    List.singleton_append]
  rw [insertIdx_length_append]

/-- Writing nothing at a present position erases its value. -/
theorem filterMap_set_none_of_some (h : xs[i]? = some (some w)) :
    (xs.set i none).filterMap id =
      (xs.filterMap id).eraseIdx ((xs.take i).countP Option.isSome) := by
  have hi : i < xs.length := (List.getElem?_eq_some_iff.mp h).1
  rw [List.set_eq_take_append_cons_drop, if_pos hi, filterMap_take_cons_drop, filterMap_eq_of_getElem? h,
    ← length_filterMap_take]
  simp only [Option.toList_some, Option.toList_none, List.append_nil, List.append_assoc,
    List.singleton_append]
  rw [List.eraseIdx_append_of_length_le (Nat.le_refl _), Nat.sub_self, List.eraseIdx_cons_zero]

/-! ### Opening and closing a position -/

/-- Opening a position at `i` puts it between the positions before `i` and the rest. -/
theorem insertIdx_eq_take_cons_drop {β : Type} {ys : List β} (hi : i ≤ ys.length) (y : β) :
    ys.insertIdx i y = ys.take i ++ y :: ys.drop i := by
  have h := insertIdx_length_append (ys.take i) (ys.drop i) y
  rwa [List.take_append_drop, List.length_take_of_le hi] at h

/-- The dense list of the positions before `i`, then of the rest. -/
theorem filterMap_eq_take_append_drop (xs : List (Option α)) (i : Nat) :
    xs.filterMap id = (xs.take i).filterMap id ++ (xs.drop i).filterMap id := by
  rw [← List.filterMap_append, List.take_append_drop]

/-- Opening a position that holds a value inserts it at the number of present positions
before. -/
theorem filterMap_insertIdx_some (hi : i ≤ xs.length) (v : α) :
    (xs.insertIdx i (some v)).filterMap id =
      (xs.filterMap id).insertIdx ((xs.take i).countP Option.isSome) v := by
  rw [insertIdx_eq_take_cons_drop hi, List.filterMap_append, filterMap_eq_take_append_drop xs i,
    ← length_filterMap_take, insertIdx_length_append]
  rfl

/-- Opening an absent position leaves the dense list as it was. -/
theorem filterMap_insertIdx_none (xs : List (Option α)) (i : Nat) :
    (xs.insertIdx i none).filterMap id = xs.filterMap id := by
  by_cases hi : i ≤ xs.length
  · rw [insertIdx_eq_take_cons_drop hi, List.filterMap_append, filterMap_eq_take_append_drop xs i]
    rfl
  · rw [List.insertIdx_of_length_lt (by omega)]

/-- Closing an absent position leaves the dense list as it was. -/
theorem filterMap_eraseIdx_of_none (h : xs[i]? = some none) :
    (xs.eraseIdx i).filterMap id = xs.filterMap id := by
  rw [List.eraseIdx_eq_take_drop_succ, List.filterMap_append, filterMap_eq_of_getElem? h,
    Option.toList_none, List.append_nil]

/-! ### Positions past the end -/

/-- Writes `y` at position `i`, first growing the list with absent positions up to it. -/
def setPadded (xs : List (Option α)) (i : Nat) (y : Option α) : List (Option α) :=
  (xs ++ List.replicate (i + 1 - xs.length) none).set i y

/-- Absent positions appended read as positions past the end. -/
theorem getD_append_replicate (xs : List (Option α)) (n q : Nat) :
    (xs ++ List.replicate n none).getD q none = xs.getD q none := by
  rw [List.getD_eq_getElem?_getD, List.getD_eq_getElem?_getD, List.getElem?_append]
  split
  · rfl
  · rename_i hq
    rw [List.getElem?_eq_none (Nat.le_of_not_lt hq), List.getElem?_replicate]
    split <;> rfl

theorem filterMap_append_replicate (xs : List (Option α)) (n : Nat) :
    (xs ++ List.replicate n none).filterMap id = xs.filterMap id := by
  rw [List.filterMap_append, List.filterMap_replicate]
  exact List.append_nil _

theorem length_setPadded (xs : List (Option α)) (i : Nat) (y : Option α) :
    (setPadded xs i y).length = max xs.length (i + 1) := by
  rw [setPadded, List.length_set, List.length_append, List.length_replicate]
  omega

theorem getD_setPadded (xs : List (Option α)) (i : Nat) (y : Option α) (q : Nat) :
    (setPadded xs i y).getD q none = if q = i then y else xs.getD q none := by
  rw [setPadded, List.getD_eq_getElem?_getD, List.getElem?_set]
  by_cases hq : q = i
  · rw [if_pos hq.symm, if_pos (by rw [List.length_append, List.length_replicate]; omega), if_pos hq]
    rfl
  · rw [if_neg (Ne.symm hq), if_neg hq, ← List.getD_eq_getElem?_getD, getD_append_replicate]

theorem setPadded_of_lt (hi : i < xs.length) (y : Option α) : setPadded xs i y = xs.set i y := by
  rw [setPadded, show i + 1 - xs.length = 0 by omega, List.replicate_zero, List.append_nil]

theorem getElem?_setPadded_self (xs : List (Option α)) (i : Nat) (y : Option α) :
    (setPadded xs i y)[i]? = some y := by
  rw [setPadded, List.getElem?_set_self (by rw [List.length_append, List.length_replicate]; omega)]

theorem getElem?_of_getD_eq_none (hi : i < xs.length) (h : xs.getD i none = none) :
    xs[i]? = some none := by
  rw [List.getD_eq_getElem?_getD, List.getElem?_eq_getElem hi, Option.getD_some] at h
  rw [List.getElem?_eq_getElem hi, h]

/-- Writing a value at a position that holds nothing, past the end or not, inserts it at the
number of present positions before. -/
theorem filterMap_setPadded_of_none (h : xs.getD i none = none) (v : α) :
    (setPadded xs i (some v)).filterMap id =
      (xs.filterMap id).insertIdx ((xs.take i).countP Option.isSome) v := by
  have hpad : (xs ++ List.replicate (i + 1 - xs.length) none)[i]? = some none :=
    getElem?_of_getD_eq_none (by rw [List.length_append, List.length_replicate]; omega)
      (by rw [getD_append_replicate, h])
  have hcount : ((xs ++ List.replicate (i + 1 - xs.length) none).take i).countP Option.isSome =
      (xs.take i).countP Option.isSome :=
    countP_take_congr fun q _ => by rw [getD_append_replicate]
  rw [setPadded, filterMap_set_of_none hpad, filterMap_append_replicate, hcount]

theorem getD_set_of_lt (hi : i < xs.length) (y : Option α) (q : Nat) :
    (xs.set i y).getD q none = if q = i then y else xs.getD q none := by
  rw [← setPadded_of_lt hi, getD_setPadded]

/-- Writing nothing at a position that holds nothing leaves the list as it was. -/
theorem set_none_of_getD (h : xs.getD i none = none) : xs.set i none = xs := by
  by_cases hi : i < xs.length
  · have hx : xs[i] = none := by
      rw [List.getD_eq_getElem?_getD, List.getElem?_eq_getElem hi] at h
      exact h
    conv => lhs; rw [← hx]
    exact List.set_getElem_self hi
  · exact List.set_eq_of_length_le (Nat.le_of_not_lt hi)

theorem setPadded_length (xs : List (Option α)) (y : Option α) :
    setPadded xs xs.length y = xs ++ [y] := by
  rw [setPadded, show xs.length + 1 - xs.length = 1 by omega, List.replicate_one,
    List.set_append_right _ _ (Nat.le_refl _), Nat.sub_self, List.set_cons_zero]

/-- Inserts `y` at position `i`, moving the later positions up; at or past the end this writes
`y` there, growing the list with absent positions. -/
def insertPadded (xs : List (Option α)) (i : Nat) (y : Option α) : List (Option α) :=
  if i < xs.length then xs.insertIdx i y else setPadded xs i y

/-! ### Opening and closing positions, read one by one -/

theorem getD_insertIdx (hi : i ≤ xs.length) (y : Option α) (q : Nat) :
    (xs.insertIdx i y).getD q none =
      if q < i then xs.getD q none else if q = i then y else xs.getD (q - 1) none := by
  rw [List.getD_eq_getElem?_getD, List.getElem?_insertIdx]
  by_cases hq : q < i
  · rw [if_pos hq, if_pos hq, List.getD_eq_getElem?_getD]
  · rw [if_neg hq, if_neg hq]
    by_cases hqi : q = i
    · rw [if_pos hqi, if_pos hqi, if_pos (by omega)]
      rfl
    · rw [if_neg hqi, if_neg hqi, List.getD_eq_getElem?_getD]

theorem getD_eraseIdx (xs : List (Option α)) (i q : Nat) :
    (xs.eraseIdx i).getD q none = if q < i then xs.getD q none else xs.getD (q + 1) none := by
  rw [List.getD_eq_getElem?_getD, List.getElem?_eraseIdx]
  split <;> rw [List.getD_eq_getElem?_getD]

/-! ### Nearest positions -/

/-- **`q` is the first position at or after `i` whose presence is `b`**, below the length. -/
def IsNextWith (xs : List (Option α)) (b : Bool) (i q : Nat) : Prop :=
  i ≤ q ∧ q < xs.length ∧ (xs.getD q none).isSome = b ∧
    ∀ r, i ≤ r → r < q → (xs.getD r none).isSome ≠ b

/-- **`q` is the last position at or before `i` whose presence is `b`**, below the length. -/
def IsPrevWith (xs : List (Option α)) (b : Bool) (i q : Nat) : Prop :=
  q ≤ i ∧ q < xs.length ∧ (xs.getD q none).isSome = b ∧
    ∀ r, q < r → r ≤ i → r < xs.length → (xs.getD r none).isSome ≠ b

end CompactCollections.Dense
