import CompactCollections.Proofs.Ranked
import CompactCollections.NullList
/-!
# What each operation does to the positions of a list with absent positions

A list with absent positions (`CompactCollections.NullList`) holds the positions `xs` when its
overlay does (`CompactCollections.Ranked.Represents`). Read so, its length, lookups, values and
cardinality read `xs`, and the four scans find the nearest present or absent position of `xs`.
Each operation that succeeds acts on `xs` as on a list of optional values, keeping the store's
cut:

* writing past the end first pads with absent positions (`CompactCollections.Dense.setPadded`),
  and inserting at or past the end writes (`CompactCollections.Dense.insertPadded`);
* removing a position answers what it held and moves the later ones down;
* swapping exchanges two positions in each of the four combinations of present and absent.

Every failure is a storage overflow, or a removal or swap out of range.
-/

namespace CompactCollections.NullList

open LawfulDenseStore (Good cut)
open CompactCollections.Dense

variable {S α : Type} [DenseStore S α]
variable {l l' : NullList S} {xs : List (Option α)} {i : Nat}

/-! ### The steps of a write -/

/-- What writing a position does, whenever it succeeds: the presence bits, grown to `i + 1`
when `i` is past the end, then a put or a take at `i`. -/
theorem set_shape {y prev : Option α} (hs : l.set i y = .ok (prev, l')) :
    ∃ p : BitList, (if l.len ≤ i then l.cells.presence.setLen (i + 1) = .ok p
        else p = l.cells.presence) ∧
      (∀ v, y = some v →
        ∃ c, ({ l.cells with presence := p } : Ranked S).put i v = .ok (prev, c) ∧ l' = ⟨c⟩) ∧
      (y = none → ({ l.cells with presence := p } : Ranked S).take i = (prev, l'.cells)) := by
  cases y with
  | some v =>
    simp only [NullList.set, bind, Except.bind, pure, Except.pure] at hs
    split at hs
    · rename_i hi
      split at hs
      · cases hs
      · rename_i n hn
        cases Capacity.wordSum_ok hn
        split at hs
        · cases hs
        · rename_i p hp
          split at hs
          · cases hs
          · rename_i r hr
            cases hs
            exact ⟨p, by rw [if_pos hi]; exact hp, fun _ hv => by cases hv; exact ⟨r.2, hr, rfl⟩,
              fun hv => by cases hv⟩
    · rename_i hi
      split at hs
      · cases hs
      · rename_i r hr
        cases hs
        exact ⟨l.cells.presence, by rw [if_neg hi], fun _ hv => by cases hv; exact ⟨r.2, hr, rfl⟩,
          fun hv => by cases hv⟩
  | none =>
    simp only [NullList.set, bind, Except.bind, pure, Except.pure] at hs
    split at hs
    · rename_i hi
      split at hs
      · cases hs
      · rename_i n hn
        cases Capacity.wordSum_ok hn
        split at hs
        · cases hs
        · rename_i p hp
          cases hs
          exact ⟨p, by rw [if_pos hi]; exact hp, fun _ hv => (by cases hv), fun _ => rfl⟩
    · rename_i hi
      cases hs
      exact ⟨l.cells.presence, by rw [if_neg hi], fun _ hv => (by cases hv), fun _ => rfl⟩

variable [LawfulDenseStore S α]

/-! ### Reading -/

theorem len_eq (h : l.cells.Represents xs) : l.len = xs.length :=
  h.len_eq

theorem get?_eq (h : l.cells.Represents xs) (i : Nat) : l.get? i = xs.getD i none :=
  h.get?_eq i

theorem hasValue_eq (h : l.cells.Represents xs) (i : Nat) :
    l.hasValue i = (xs.getD i none).isSome :=
  h.get_eq i

/-- **The positions of a list are the list it holds.** -/
theorem toList_eq (h : l.cells.Represents xs) : l.toList = xs := by
  apply List.ext_getElem
  · rw [toList, List.length_map, List.length_range, len_eq h]
  · intro j _ hj
    simp only [toList, List.getElem_map, List.getElem_range]
    rw [get?_eq h, List.getD_eq_getElem?_getD, List.getElem?_eq_getElem hj, Option.getD_some]

theorem values_eq (h : l.cells.Represents xs) : l.values = xs.filterMap id :=
  h.toList_eq

theorem cardinality_eq (h : l.cells.Represents xs) : l.cardinality = (xs.filterMap id).length :=
  h.cardinality_eq

/-- The presence bits count the present positions. -/
theorem presence_cardinality_eq (h : l.cells.Represents xs) :
    l.cells.presence.cardinality = xs.countP Option.isSome :=
  h.presence_cardinality_eq

/-- The forward scan for presence `b` finds the first such position of the list. -/
theorem nextWith_eq_some_iff (h : l.cells.Represents xs) {b : Bool} {q : Nat} :
    l.cells.presence.nextWith b i = some q ↔ IsNextWith xs b i q := by
  simp only [BitList.nextWith_eq_some_iff, IsNextWith, h.get_eq, h.len_eq]

/-- The backward scan for presence `b` finds the last such position of the list. -/
theorem prevWith_eq_some_iff (h : l.cells.Represents xs) {b : Bool} {q : Nat} :
    l.cells.presence.prevWith b i = some q ↔ IsPrevWith xs b i q := by
  simp only [BitList.prevWith_eq_some_iff, IsPrevWith, h.get_eq, h.len_eq]

/-! ### Writing and appending -/

/-- **Writing a position** answers what it held and writes there the cut value or nothing,
first growing the list with absent positions when the position is past the end. -/
theorem set_ok (h : l.cells.Represents xs) {y prev : Option α} (hs : l.set i y = .ok (prev, l')) :
    prev = xs.getD i none ∧ l'.cells.Represents (setPadded xs i (y.map (cut l.cells.values))) ∧
      cut l'.cells.values = cut l.cells.values := by
  obtain ⟨p, hgrow, hput, htake⟩ := set_shape hs
  -- the overlay the write starts from holds `xs`, padded up to `i` when `i` is past the end
  have hc : ({ l.cells with presence := p } : Ranked S).Represents
      (xs ++ List.replicate (i + 1 - xs.length) none) := by
    by_cases hi : l.len ≤ i
    · rw [if_pos hi] at hgrow
      exact h.setLen hgrow (by rw [← len_eq h]; omega)
    · rw [if_neg hi] at hgrow
      subst hgrow
      rw [show i + 1 - xs.length = 0 by rw [← len_eq h]; omega, List.replicate_zero,
        List.append_nil]
      exact h
  have hlt : i < (xs ++ List.replicate (i + 1 - xs.length) none).length := by
    rw [List.length_append, List.length_replicate]
    omega
  cases y with
  | some v =>
    obtain ⟨c, hc', rfl⟩ := hput v rfl
    obtain ⟨rfl, hr, hcut⟩ := hc.put_ok hc'
    rw [setPadded_of_lt hlt] at hr
    exact ⟨getD_append_replicate _ _ _, hr, hcut⟩
  | none =>
    obtain ⟨hprev, hr, hcut⟩ := hc.take_spec i
    rw [htake rfl] at hprev hr hcut
    exact ⟨hprev.trans (getD_append_replicate _ _ _), hr, hcut⟩

/-- **Appending a position** adds the cut value or nothing at the end. -/
theorem add_ok (h : l.cells.Represents xs) {y : Option α} (hs : l.add y = .ok l') :
    l'.cells.Represents (xs ++ [y.map (cut l.cells.values)]) ∧
      cut l'.cells.values = cut l.cells.values := by
  obtain ⟨⟨prev, l₁⟩, hset, hs⟩ := ok_of_bind_ok hs
  cases hs
  obtain ⟨-, hr, hcut⟩ := set_ok h hset
  rw [len_eq h, setPadded_length] at hr
  exact ⟨hr, hcut⟩

/-- **Appending positions** adds each cut value or nothing, in order. -/
theorem addAll_ok (h : l.cells.Represents xs) {ys : List (Option α)} (hs : l.addAll ys = .ok l') :
    l'.cells.Represents (xs ++ ys.map (Option.map (cut l.cells.values))) ∧
      cut l'.cells.values = cut l.cells.values := by
  induction ys generalizing l xs with
  | nil =>
    cases hs
    rw [List.map_nil, List.append_nil]
    exact ⟨h, rfl⟩
  | cons y ys ih =>
    rw [addAll] at hs
    obtain ⟨l₁, hadd, hs⟩ := ok_of_bind_ok hs
    obtain ⟨h₁, hcut₁⟩ := add_ok h hadd
    obtain ⟨h₂, hcut₂⟩ := ih h₁ hs
    rw [hcut₁, List.append_assoc] at h₂
    exact ⟨h₂, hcut₂.trans hcut₁⟩

/-! ### Opening and removing positions -/

/-- **Inserting a position** opens it at `i` holding the cut value or nothing, moving the later
positions up; at or past the end it writes. -/
theorem insert_ok (h : l.cells.Represents xs) {y : Option α} (hs : l.insert i y = .ok l') :
    l'.cells.Represents (insertPadded xs i (y.map (cut l.cells.values))) ∧
      cut l'.cells.values = cut l.cells.values := by
  unfold NullList.insert at hs
  split at hs
  · rename_i hi
    obtain ⟨⟨prev, l₁⟩, hset, hs⟩ := ok_of_bind_ok hs
    cases hs
    obtain ⟨-, hr, hcut⟩ := set_ok h hset
    rw [insertPadded, if_neg (by rw [← len_eq h]; omega)]
    exact ⟨hr, hcut⟩
  · rename_i hi
    have hlt : i < xs.length := by rw [← len_eq h]; omega
    obtain ⟨p, hp, hs⟩ := ok_of_bind_ok hs
    obtain ⟨hpv, hplen, hpget⟩ :=
      BitList.insert_ok h.valid (show i < l.cells.presence.len from Nat.lt_of_not_le hi) hp
    rw [insertPadded, if_pos hlt]
    -- the new presence bits mark `xs` with position `i` opened
    have hget : ∀ q, p.get q = ((xs.insertIdx i (y.map (cut l.cells.values))).getD q none).isSome := by
      intro q
      rw [hpget q, getD_insertIdx (Nat.le_of_lt hlt)]
      by_cases hq : q < i
      · rw [if_pos hq, if_pos hq, h.get_eq]
      · by_cases hqi : q = i
        · rw [if_neg hq, if_pos hqi, if_neg hq, if_pos hqi, Option.isSome_map]
        · rw [if_neg hq, if_neg hqi, if_neg hq, if_neg hqi, h.get_eq]
    have hlen : p.len = (xs.insertIdx i (y.map (cut l.cells.values))).length := by
      rw [hplen, List.length_insertIdx_of_le_length (Nat.le_of_lt hlt), h.len_eq]
    cases y with
    | some v =>
      obtain ⟨vs, hvs, hs⟩ := ok_of_bind_ok hs
      cases hs
      have hat : (xs.insertIdx i (some (cut l.cells.values v)))[i]? =
          some (some (cut l.cells.values v)) :=
        getElem?_of_getD_eq_some (by rw [getD_insertIdx (Nat.le_of_lt hlt), if_neg (Nat.lt_irrefl i), if_pos rfl])
      have hindex : p.rank i - 1 = (xs.take i).countP Option.isSome := by
        rw [Ranked.rank_sub_one hpv hget hat]
        exact countP_take_congr fun q hq => by rw [getD_insertIdx (Nat.le_of_lt hlt), if_pos hq]
      rw [hindex] at hvs
      obtain ⟨hgood, hcut, hlist⟩ := LawfulDenseStore.insertAt_ok h.good (h.countP_le_length i) hvs
      exact ⟨⟨hpv, hlen, hget, hgood, by rw [hlist, h.toList_eq, Option.map_some, filterMap_insertIdx_some (Nat.le_of_lt hlt)]⟩,
        hcut⟩
    | none =>
      cases hs
      exact ⟨⟨hpv, hlen, hget, h.good, by rw [h.toList_eq]; exact (filterMap_insertIdx_none xs i).symm⟩,
        rfl⟩

/-- **Removing a position** answers what it held and moves the later positions down. -/
theorem removeAt_ok (h : l.cells.Represents xs) {y : Option α} (hr : l.removeAt i = .ok (y, l')) :
    i < xs.length ∧ y = xs.getD i none ∧ l'.cells.Represents (xs.eraseIdx i) ∧
      cut l'.cells.values = cut l.cells.values := by
  unfold NullList.removeAt at hr
  split at hr
  · cases hr
  · rename_i hi
    have hlt : i < xs.length := by rw [← len_eq h]; omega
    obtain ⟨hy, hc, hcut⟩ := h.take_spec i
    rcases ht : l.cells.take i with ⟨v, cells⟩
    rw [ht] at hr hy hc hcut
    dsimp only at hr hy hc hcut
    rcases hp : cells.presence.removeAt i with a | ⟨b, p⟩
    · rw [hp] at hr
      cases hr
    · rw [hp] at hr
      cases hr
      obtain ⟨-, -, hpv, hplen, hpget⟩ := BitList.removeAt_ok hc.valid hp
      have hnone : (xs.set i none)[i]? = some none := List.getElem?_set_self hlt
      refine ⟨hlt, hy, ⟨hpv, ?_, fun q => ?_, hc.good, ?_⟩, hcut⟩
      · rw [hplen, hc.len_eq, List.length_set, List.length_eraseIdx_of_lt hlt]
      · rw [hpget q, getD_eraseIdx, hc.get_eq, hc.get_eq, getD_set_of_lt hlt, getD_set_of_lt hlt]
        by_cases hq : q < i
        · rw [if_pos hq, if_pos hq, if_neg (Nat.ne_of_lt hq)]
        · rw [if_neg hq, if_neg hq, if_neg (by omega)]
      · rw [hc.toList_eq, ← List.eraseIdx_set_eq, filterMap_eraseIdx_of_none hnone]

/-! ### Exchanging positions -/

/-- Moving the value of a present position to another position within the list. -/
theorem moveValue_ok (h : l.cells.Represents xs) {a b : Nat} {v : α} (ha : xs[a]? = some (some v))
    (hb : b < xs.length) (hm : l.moveValue a b = .ok l') :
    l'.cells.Represents ((xs.set a none).set b (some v)) ∧
      cut l'.cells.values = cut l.cells.values := by
  obtain ⟨hv, hc, hcut⟩ := h.take_spec a
  rw [getD_of_getElem? ha] at hv
  unfold moveValue at hm
  rcases ht : l.cells.take a with ⟨o, cells⟩
  rw [ht] at hm hv hc hcut
  subst hv
  obtain ⟨⟨prev, c'⟩, hput, hm⟩ := ok_of_bind_ok hm
  cases hm
  obtain ⟨-, hr, hcut'⟩ := hc.put_ok hput
  -- the value moved is kept whole: it was already cut when it was stored
  rw [hcut, h.cut_of_getElem? ha, setPadded_of_lt (by rw [List.length_set]; exact hb)] at hr
  exact ⟨hr, hcut'.trans hcut⟩

/-- Exchanging the dense values of two present positions exchanges what the positions hold. -/
theorem exchange_values {r : Ranked S} (h : r.Represents xs) {a b : Nat} {x y : α}
    (ha : xs[a]? = some (some x)) (hb : xs[b]? = some (some y)) :
    ({ r with values := (DenseStore.replace
        (DenseStore.replace r.values ((xs.take a).countP Option.isSome) y)
        ((xs.take b).countP Option.isSome) x) } : Ranked S).Represents
        ((xs.set a (some y)).set b (some x)) ∧
      cut (DenseStore.replace (DenseStore.replace r.values ((xs.take a).countP Option.isSome) y)
        ((xs.take b).countP Option.isSome) x) = cut r.values := by
  -- the values exchanged are kept whole: they were already cut when they were stored
  obtain ⟨h₁, hcut₁⟩ := h.replace ha y
  rw [h.cut_of_getElem? hb] at h₁
  -- after the first write `b` still holds `y`, at the dense index it had
  have hb₁ : (xs.set a (some y))[b]? = some (some y) := by
    by_cases hab : a = b
    · subst hab
      exact List.getElem?_set_self (List.getElem?_eq_some_iff.mp ha).1
    · rw [List.getElem?_set_ne hab, hb]
  have hindex : ((xs.set a (some y)).take b).countP Option.isSome =
      (xs.take b).countP Option.isSome :=
    Option.some.inj ((h₁.denseIndex_of_some hb₁).symm.trans (h.denseIndex_of_some hb))
  obtain ⟨h₂, hcut₂⟩ := h₁.replace hb₁ x
  rw [hindex, hcut₁, h.cut_of_getElem? ha] at h₂
  rw [hindex] at hcut₂
  exact ⟨h₂, hcut₂.trans hcut₁⟩

/-- **Swapping two positions** exchanges what they hold, in each of the four combinations of
present and absent. -/
theorem swap_ok (h : l.cells.Represents xs) {a b : Nat} (hs : l.swap a b = .ok l') :
    a < xs.length ∧ b < xs.length ∧
      l'.cells.Represents ((xs.set a (xs.getD b none)).set b (xs.getD a none)) ∧
      cut l'.cells.values = cut l.cells.values := by
  unfold NullList.swap at hs
  split at hs
  · cases hs
  · rename_i hout
    have ha : a < xs.length := by rw [← len_eq h]; omega
    have hb : b < xs.length := by rw [← len_eq h]; omega
    refine ⟨ha, hb, ?_⟩
    cases hxa : xs.getD a none with
    | none =>
      cases hxb : xs.getD b none with
      | none =>
        -- both absent: nothing moves
        rw [h.denseIndex_of_none hxa, h.denseIndex_of_none hxb] at hs
        cases hs
        rw [set_none_of_getD hxa, set_none_of_getD hxb]
        exact ⟨h, rfl⟩
      | some y =>
        -- the value of `b` moves to `a`
        have hyb := getElem?_of_getD_eq_some hxb
        have hab : b ≠ a := fun hba => by rw [hba, hxa] at hxb; cases hxb
        rw [h.denseIndex_of_none hxa, h.denseIndex_of_some hyb] at hs
        dsimp only at hs
        obtain ⟨hr, hcut⟩ := moveValue_ok h hyb ha (ok_of_abortOnStop hs)
        rw [List.set_comm _ _ hab] at hr
        exact ⟨hr, hcut⟩
    | some x =>
      have hxa' := getElem?_of_getD_eq_some hxa
      cases hxb : xs.getD b none with
      | none =>
        -- the value of `a` moves to `b`
        rw [h.denseIndex_of_some hxa', h.denseIndex_of_none hxb] at hs
        dsimp only at hs
        exact moveValue_ok h hxa' hb (ok_of_abortOnStop hs)
      | some y =>
        -- both present: the two dense values are exchanged in place
        have hyb := getElem?_of_getD_eq_some hxb
        rw [h.denseIndex_of_some hxa', h.denseIndex_of_some hyb] at hs
        dsimp only at hs
        rw [h.get?_values hxa', h.get?_values hyb] at hs
        cases hs
        exact exchange_values h hxa' hyb

/-! ### Emptying -/

theorem represents_ofStore {s : S} (hs : Good s) :
    (ofStore s).cells.Represents ([] : List (Option α)) ∧ cut (ofStore s).cells.values = cut s :=
  Ranked.represents_ofStore hs

theorem clear_ok (h : l.cells.Represents xs) :
    l.clear.cells.Represents ([] : List (Option α)) ∧ cut l.clear.cells.values = cut l.cells.values :=
  h.clear

/-! ### Failures -/

theorem set_error {y : Option α} {s : Stop} (hs : l.set i y = .error s) : s.isOverflow := by
  simp only [NullList.set, bind, Except.bind, pure, Except.pure] at hs
  -- the growth, by a word count and the presence bits; then the write, where only a put fails
  split at hs
  · split at hs
    · rename_i hn
      cases hs
      exact PackedList.wordSum_error hn
    · split at hs
      · rename_i hp
        cases hs
        exact BitList.setLen_error hp
      · split at hs
        · split at hs
          · rename_i hput
            cases hs
            exact Ranked.put_error hput
          · cases hs
        · cases hs
  · split at hs
    · split at hs
      · rename_i hput
        cases hs
        exact Ranked.put_error hput
      · cases hs
    · cases hs

theorem add_error {y : Option α} {s : Stop} (hs : l.add y = .error s) : s.isOverflow := by
  rcases error_of_bind_error hs with hs | ⟨r, -, hs⟩
  · exact set_error hs
  · cases hs

theorem addAll_error {ys : List (Option α)} {s : Stop} (hs : l.addAll ys = .error s) :
    s.isOverflow := by
  induction ys generalizing l with
  | nil => cases hs
  | cons y ys ih =>
    rw [addAll] at hs
    rcases error_of_bind_error hs with hs | ⟨l₁, -, hs⟩
    · exact add_error hs
    · exact ih hs

theorem insert_error {y : Option α} {s : Stop} (hs : l.insert i y = .error s) : s.isOverflow := by
  unfold NullList.insert at hs
  split at hs
  · rcases error_of_bind_error hs with hs | ⟨r, -, hs⟩
    · exact set_error hs
    · cases hs
  · rcases error_of_bind_error hs with hs | ⟨p, -, hs⟩
    · exact BitList.insert_error hs
    · cases y with
      | some v =>
        rcases error_of_bind_error hs with hs | ⟨vs, -, hs⟩
        · exact LawfulDenseStore.insertAt_error hs
        · cases hs
      | none => cases hs

/-- Removing a position fails exactly at or past the end. -/
theorem removeAt_error (h : l.cells.Represents xs) {a : Abort} (hr : l.removeAt i = .error a) :
    xs.length ≤ i ∧ a = .indexOutOfBounds .nullable i xs.length := by
  unfold NullList.removeAt at hr
  split at hr
  · cases hr
    rw [← len_eq h]
    exact ⟨‹_›, rfl⟩
  · rename_i hi
    have hc := (h.take_spec i).2.1
    rcases ht : l.cells.take i with ⟨v, cells⟩
    rw [ht] at hr hc
    dsimp only at hr hc
    rcases hp : cells.presence.removeAt i with a' | ⟨b, p⟩
    · -- the presence bits keep the length, so the position is within them
      have hle := (BitList.removeAt_error hp).1
      rw [hc.len_eq, List.length_set, ← len_eq h] at hle
      exact absurd hle hi
    · rw [hp] at hr
      cases hr

theorem moveValue_error {a b : Nat} {s : Stop} (hm : l.moveValue a b = .error s) : s.isOverflow := by
  unfold moveValue at hm
  split at hm
  · rcases error_of_bind_error hm with hm | ⟨r, -, hm⟩
    · exact Ranked.put_error hm
    · cases hm
  · cases hm

/-- Swapping fails only out of range, or on a storage overflow while moving a value. -/
theorem swap_error (h : l.cells.Represents xs) {a b : Nat} {e : Abort} (hs : l.swap a b = .error e) :
    ((xs.length ≤ a ∨ xs.length ≤ b) ∧ e = .swapOutOfBounds a b xs.length) ∨
      ∃ s : Stop, s.isOverflow ∧ e = s.toAbort := by
  unfold NullList.swap at hs
  split at hs
  · cases hs
    rw [← len_eq h]
    exact .inl ⟨‹_›, rfl⟩
  · right
    split at hs
    · split at hs <;> cases hs
    · obtain ⟨s, hm, rfl⟩ := error_of_abortOnStop hs
      exact ⟨s, moveValue_error hm, rfl⟩
    · obtain ⟨s, hm, rfl⟩ := error_of_abortOnStop hs
      exact ⟨s, moveValue_error hm, rfl⟩
    · cases hs

end CompactCollections.NullList
