import CompactCollections.Proofs.Table.Operations
import CompactCollections.Proofs.Capacity
/-!
# The bookkeeping of a table stays right

Every table a caller can reach is well-formed (`CompactCollections.Table.WellFormed`): its size
is a power of two between four and `CompactCollections.maxCapacity`, its threshold is the one
its load factor gives that size, its keys are non-zero and sit one per slot, its count is the
number of occupied slots, and that count is below the size, so at least one slot is empty. An
empty slot is what ends every walk: the probe, the search for an empty slot in a rehash, and the
scan of a backward shift.

The proof carries more than it states (`CompactCollections.Table.LaidBy`): that the slots are
laid out by an insertion order, which is what lets a probe find a key that is present and what
makes a backward shift sound. The count stays below the size because a table grows as soon as
the count reaches the threshold, which is kept below the size, and a growth at least doubles it;
after a doubling the count may stand at or above the new threshold, so the next key doubles the
table again, and still the count stays below the size.

* `CompactCollections.Table.LaidBy.step` – one operation keeps the bookkeeping and lays the
  slots out by the order `CompactCollections.Table.Op.order` gives;
* `CompactCollections.Table.Placed.laidBy` – every reachable table, with its order.
-/

namespace CompactCollections.Table

open scoped List

variable {V : Type}

/-! ### Sizes -/

/-- The size a table is built or grown to is a power of two between four and `maxCapacity`. -/
theorem tableCapacity_spec {lf : LoadFactor} {e c : Nat} (h : lf.tableCapacity e = .ok c) :
    c.isPowerOfTwo ∧ 4 ≤ c ∧ c ≤ maxCapacity := by
  unfold LoadFactor.tableCapacity at h
  simp only [bind, Except.bind] at h
  split at h
  · cases h
  · split at h
    · cases h
    · rename_i p hp
      obtain ⟨hpow, hle, hmax⟩ := Capacity.nextPowerOfTwo_spec hp
      split at h
      · obtain ⟨hpow', hle', hmax'⟩ := Capacity.nextPowerOfTwo_spec h
        exact ⟨hpow', by omega, hmax'⟩
      · cases h
        exact ⟨hpow, by omega, hmax⟩

/-- The threshold leaves at least one slot free. -/
theorem threshold_le (lf : LoadFactor) (n : Nat) : lf.threshold n ≤ n - 1 :=
  Nat.min_le_right _ _

/-! ### Well-formed tables -/

/-- **A well-formed table.** Its size is a power of two between four and `maxCapacity`; its
threshold is the one its load factor gives that size; every occupied slot lies below the size
and holds a non-zero key, no key twice; the count is the number of occupied slots, and it is
below the size. -/
structure WellFormed (t : Table V) : Prop where
  capacity_pow : t.capacity.isPowerOfTwo
  four_le : 4 ≤ t.capacity
  le_max : t.capacity ≤ maxCapacity
  resizeAt_eq : t.resizeAt = t.loadFactor.threshold t.capacity
  slot_lt : ∀ {i : Nat} {e : UInt64 × V}, t.slots[i]? = some e → i < t.capacity
  key_ne_zero : ∀ {i : Nat} {e : UInt64 × V}, t.slots[i]? = some e → e.1 ≠ 0
  keys_inj : ∀ {i j : Nat} {e f : UInt64 × V}, t.slots[i]? = some e → t.slots[j]? = some f →
    e.1 = f.1 → i = j
  assigned_eq : t.assigned = t.slots.size
  assigned_lt : t.assigned < t.capacity

/-- **Every walk of a table ends within one round**: the probe for any key stops, the backward
shift from any occupied slot ends before one round of fuel runs out, and a rehash into any
power-of-two size above the count finds an empty slot for every entry. -/
structure WalksEnd (t : Table V) : Prop where
  probe_ne_exhausted : ∀ k, t.probe k ≠ .exhausted
  shiftBack_fuel : ∀ {i : Nat} {e : UInt64 × V}, t.slots[i]? = some e → ∀ m,
    shiftBack t.hash t.capacity t.slots i 0 (t.capacity + m) =
      shiftBack t.hash t.capacity t.slots i 0 t.capacity
  rehash_perm : ∀ {c : Nat} {t' : Table V}, c.isPowerOfTwo → t.assigned < c → t.rehash c = .ok t' →
    t'.slotEntries.Perm t.slotEntries

/-- **A table laid out by an order.** Its slots are laid out by `σ`, whose keys are non-zero;
its count is the length of `σ`, below its size; its size and threshold are as the sizing rules
make them. -/
structure LaidBy (t : Table V) (σ : List (UInt64 × V)) : Prop where
  laid : Laid t.hash t.capacity σ t.slots none
  key_ne_zero : ∀ e ∈ σ, e.1 ≠ 0
  assigned_eq : t.assigned = σ.length
  room : σ.length < t.capacity
  capacity_pow : t.capacity.isPowerOfTwo
  four_le : 4 ≤ t.capacity
  le_max : t.capacity ≤ maxCapacity
  resizeAt_eq : t.resizeAt = t.loadFactor.threshold t.capacity

namespace LaidBy

variable {t : Table V} {σ : List (UInt64 × V)}

theorem wellFormed (h : t.LaidBy σ) : t.WellFormed where
  capacity_pow := h.capacity_pow
  four_le := h.four_le
  le_max := h.le_max
  resizeAt_eq := h.resizeAt_eq
  slot_lt := h.laid.lt
  key_ne_zero hi := h.key_ne_zero _ (h.laid.mem hi)
  keys_inj := h.laid.keys_inj
  assigned_eq := by rw [h.assigned_eq, h.laid.size_eq]
  assigned_lt := h.assigned_eq ▸ h.room

/-- A key that is not in the order is in no slot, the zero key among them. -/
theorem not_mem_of_zero (h : t.LaidBy σ) : (0 : UInt64) ∉ σ.map Prod.fst := by
  intro h0
  obtain ⟨e, he, he0⟩ := List.mem_map.mp h0
  exact h.key_ne_zero e he he0

/-- **Where the probe for a non-zero key stops**: at the key's slot when it is present, else at
the first empty slot on its way, which is also where the search for an empty slot stops. -/
theorem probe_cases (h : t.LaidBy σ) (k : UInt64) :
    (∃ q w, t.slots[q]? = some (k, w) ∧ t.probe k = .found q) ∨
    (k ∉ σ.map Prod.fst ∧ ∃ p < t.capacity, t.slots[p]? = none ∧ t.probe k = .vacant p ∧
      vacancy t.slots t.capacity (home t.hash t.capacity k) t.capacity = some p ∧
      ∀ j < span t.capacity (home t.hash t.capacity k) p,
        t.slots[(home t.hash t.capacity k + j) % t.capacity]? ≠ none) := by
  rw [probe_eq_seek h.capacity_pow]
  by_cases hk : k ∈ σ.map Prod.fst
  · obtain ⟨⟨k', w⟩, he, rfl⟩ := List.mem_map.mp hk
    obtain ⟨q, hq⟩ := (h.laid.mem_iff _).mp he
    exact Or.inl ⟨q, w, hq, h.laid.seek_found h.capacity_pow hq⟩
  · have hk' : ∀ e ∈ σ, e.1 ≠ k := fun e he hek => hk (hek ▸ List.mem_map_of_mem he)
    obtain ⟨p, hp, hpe, hseek, hvac, hwalk⟩ := h.laid.exists_vacant h.capacity_pow hk' h.room
    exact Or.inr ⟨hk, p, hp, hpe, hseek, hvac, hwalk⟩

/-- The probe never walks a whole round without stopping. -/
theorem probe_ne_exhausted (h : t.LaidBy σ) (k : UInt64) : t.probe k ≠ .exhausted := by
  rcases h.probe_cases k with ⟨q, w, -, hprobe⟩ | ⟨-, p, -, -, hprobe, -⟩ <;> rw [hprobe] <;>
    simp

end LaidBy

/-- A table a constructor returns is empty and laid out by the empty order. -/
theorem laidBy_fresh {hash : UInt64 → UInt64} {expected : Nat} {lf : LoadFactor} {t : Table V}
    (h : withConfig hash expected lf = .ok t) : t.LaidBy [] := by
  unfold withConfig at h
  simp only [bind, Except.bind] at h
  split at h
  · cases h
  · rename_i c hc
    cases h
    obtain ⟨hpow, hfour, hmax⟩ := tableCapacity_spec hc
    exact ⟨laid_nil hash c, by simp, rfl, show 0 < c by omega, hpow, hfour, hmax, rfl⟩

/-! ### The order under an absent key -/

section Absent

variable {σ : List (UInt64 × V)} {k : UInt64}

/-- Dropping a key the order does not hold leaves it as it is. -/
theorem filter_key_of_not_mem (hk : k ∉ σ.map Prod.fst) : σ.filter (fun e => e.1 != k) = σ := by
  rw [List.filter_eq_self]
  intro e he
  rw [bne_iff_ne, ne_eq]
  exact fun hek => hk (hek ▸ List.mem_map_of_mem he)

/-- Rewriting the value of a key the order does not hold leaves it as it is. -/
theorem map_rewriteValue_of_not_mem (hk : k ∉ σ.map Prod.fst) (φ : V → V) :
    σ.map (rewriteValue k φ) = σ := by
  conv_rhs => rw [← List.map_id σ]
  refine List.map_congr_left fun e he => ?_
  have hek : e.1 ≠ k := fun hek => hk (hek ▸ List.mem_map_of_mem he)
  rw [rewriteValue, if_neg hek]
  rfl

end Absent

/-! ### Growth -/

/-- A rehash that succeeds asked for at most `maxCapacity` slots and placed the entries, in slot
order, into that many empty slots. -/
theorem rehash_ok {t t' : Table V} {c : Nat} (h : t.rehash c = .ok t') :
    c ≤ maxCapacity ∧
      t' = { t with capacity := c, resizeAt := t.loadFactor.threshold c,
                    slots := placeAll { t with capacity := c } t.slotEntries } := by
  have hmax : c ≤ maxCapacity := by
    unfold rehash at h
    split at h
    · cases h
    · omega
  rw [rehash_eq hmax] at h
  exact ⟨hmax, (Except.ok.inj h).symm⟩

/-- **A rehash places every entry.** Rehashing slots laid out by `σ` into any size with room for
all of `σ` lays the entries out by their slot order; none is lost for want of an empty slot. -/
theorem Laid.rehash {t t' : Table V} {σ : List (UInt64 × V)}
    (hlaid : Laid t.hash t.capacity σ t.slots none) {c : Nat} (hpow : c.isPowerOfTwo)
    (hroom : σ.length < c) (h : t.rehash c = .ok t') :
    Laid t'.hash t'.capacity t.slotEntries t'.slots none := by
  obtain ⟨-, rfl⟩ := rehash_ok h
  have hperm : t.slotEntries.Perm σ := hlaid.perm
  exact laid_placeAll { t with capacity := c } hpow
    ((hperm.map Prod.fst).nodup_iff.mpr hlaid.nodup)
    (hperm.length_eq ▸ hroom)

/-- **A growth keeps the bookkeeping.** Rehashing slots laid out by `σ` into a power of two of
at least four slots, with room for all of `σ`, lays the entries out by their slot order. -/
theorem laidBy_rehash {t t' : Table V} {σ : List (UInt64 × V)}
    (hlaid : Laid t.hash t.capacity σ t.slots none) (hkeys : ∀ e ∈ σ, e.1 ≠ 0)
    (hassigned : t.assigned = σ.length) {c : Nat} (hpow : c.isPowerOfTwo) (hfour : 4 ≤ c)
    (hroom : σ.length < c) (h : t.rehash c = .ok t') :
    t'.capacity = c ∧ t'.LaidBy t.slotEntries := by
  have hlaid' := hlaid.rehash hpow hroom h
  obtain ⟨hmax, rfl⟩ := rehash_ok h
  have hperm : t.slotEntries.Perm σ := hlaid.perm
  refine ⟨rfl, hlaid', fun e he => hkeys e (hperm.mem_iff.mp he), ?_, ?_, hpow, hfour, hmax, rfl⟩
  · rw [hperm.length_eq]
    exact hassigned
  · rw [hperm.length_eq]
    exact hroom

/-- Making room leaves a table as it is, or rehashes it into a larger power of two. -/
theorem reserve_cases {t t' : Table V} {n : Nat} (h : t.reserve n = .ok t') :
    t' = t ∨ ∃ c, c.isPowerOfTwo ∧ 4 ≤ c ∧ t.capacity < c ∧ t.rehash c = .ok t' := by
  unfold reserve at h
  simp only [bind, Except.bind, pure, Except.pure] at h
  split at h
  · cases h
  · split at h
    · exact Or.inl (Except.ok.inj h).symm
    · split at h
      · cases h
      · rename_i c hc
        obtain ⟨hpow, hfour, -⟩ := tableCapacity_spec hc
        split at h
        · exact Or.inr ⟨c, hpow, hfour, ‹_›, h⟩
        · exact Or.inl (Except.ok.inj h).symm

/-! ### One operation -/

namespace LaidBy

variable {t t' : Table V} {σ : List (UInt64 × V)}

/-- The bookkeeping reads the hash, the size, the slots, the count, the load factor and the
threshold of a table, and nothing else: the zero and null keys are free. -/
theorem congr (h : t.LaidBy σ) (hh : t'.hash = t.hash) (hc : t'.capacity = t.capacity)
    (hs : t'.slots = t.slots) (ha : t'.assigned = t.assigned)
    (hl : t'.loadFactor = t.loadFactor) (hr : t'.resizeAt = t.resizeAt) : t'.LaidBy σ where
  laid := by rw [hh, hc, hs]; exact h.laid
  key_ne_zero := h.key_ne_zero
  assigned_eq := by rw [ha]; exact h.assigned_eq
  room := by rw [hc]; exact h.room
  capacity_pow := by rw [hc]; exact h.capacity_pow
  four_le := by rw [hc]; exact h.four_le
  le_max := by rw [hc]; exact h.le_max
  resizeAt_eq := by rw [hr, hl, hc]; exact h.resizeAt_eq

/-- **Rewriting a value in place.** Changing the value in the slot of a present key keeps the
layout, the key keeping its place in the order. -/
theorem rewrite (h : t.LaidBy σ) {q : Nat} {k : UInt64} {w : V} (hq : t.slots[q]? = some (k, w))
    (φ : V → V) :
    { t with slots := t.slots.insert q (k, φ w) }.LaidBy (σ.map (rewriteValue k φ)) := by
  have hslots : ∀ i : Nat,
      (t.slots.insert q (k, φ w))[i]? = (t.slots[i]?).map (rewriteValue k φ) := by
    intro i
    rw [getElem?_insert_slots]
    split
    · subst_vars
      simp [hq, rewriteValue]
    · cases hi : t.slots[i]? with
      | none => rfl
      | some e =>
        have hek : e.1 ≠ k := fun hek => ‹¬q = i› (h.laid.keys_inj hq hi hek.symm)
        simp [rewriteValue, hek]
  refine ⟨h.laid.map _ (fst_rewriteValue k φ) hslots, fun e he => ?_, ?_, ?_, h.capacity_pow,
    h.four_le, h.le_max, h.resizeAt_eq⟩
  · obtain ⟨f, hf, rfl⟩ := List.mem_map.mp he
    rw [fst_rewriteValue]
    exact h.key_ne_zero f hf
  · rw [List.length_map]
    exact h.assigned_eq
  · rw [List.length_map]
    exact h.room

/-- **Storing a value.** The null and zero keys live outside the slots; a present key is
rewritten in its slot; a new key takes the first empty slot on its walk and joins the end of
the order, and when the count reaches the threshold the table doubles, the order becoming the
slot order just before. -/
theorem insert_step (h : t.LaidBy σ) {k : Option UInt64} {v : V} {r : Option V}
    (hrun : (Op.insert k v).run t = .ok (r, t')) : t'.LaidBy ((Op.insert k v).order t t' σ) := by
  rcases k with _ | k
  · simp only [Op.run, insertNullable, insertNull, Except.ok.injEq, Prod.mk.injEq] at hrun
    obtain ⟨-, rfl⟩ := hrun
    exact h.congr rfl rfl rfl rfl rfl rfl
  by_cases hk0 : k = 0
  · subst hk0
    simp only [Op.run, insertNullable, insert_zero, Except.ok.injEq, Prod.mk.injEq] at hrun
    obtain ⟨-, rfl⟩ := hrun
    rw [Op.order, if_pos rfl]
    exact h.congr rfl rfl rfl rfl rfl rfl
  rcases h.probe_cases k with ⟨q, w, hq, hprobe⟩ | ⟨hk, p, hp, hpe, hprobe, -, hwalk⟩
  · simp only [Op.run, insertNullable, insert_found hk0 hprobe, Except.ok.injEq,
      Prod.mk.injEq] at hrun
    obtain ⟨-, rfl⟩ := hrun
    rw [Op.order, if_neg hk0, if_pos (List.mem_map_of_mem (h.laid.mem hq))]
    exact h.rewrite hq fun _ => v
  simp only [Op.run, insertNullable, insert_vacant hk0 hprobe] at hrun
  have hlaid : Laid t.hash t.capacity (σ ++ [(k, v)]) (t.slots.insert p (k, v)) none :=
    h.laid.snoc hk hp hpe hwalk
  have hkeys : ∀ e ∈ σ ++ [(k, v)], e.1 ≠ 0 := by
    intro e he
    rcases List.mem_append.mp he with he | he
    · exact h.key_ne_zero e he
    · rw [List.mem_singleton.mp he]
      exact hk0
  have hlen : (σ ++ [(k, v)]).length = t.assigned + 1 := by
    rw [List.length_append, List.length_singleton, h.assigned_eq]
  split at hrun
  · -- the count reached the threshold: the table doubles
    obtain ⟨grown, hgrow, hpair⟩ := ok_of_map_ok hrun
    cases hpair
    have hfour := h.four_le
    have hroom := h.room
    obtain ⟨hcap, hgrown⟩ := laidBy_rehash hlaid hkeys hlen.symm
      (Nat.mul_comm 2 _ ▸ Nat.isPowerOfTwo_mul_two_of_isPowerOfTwo h.capacity_pow)
      (by omega) (by rw [List.length_append, List.length_singleton]; omega) hgrow
    rw [Op.order, if_neg hk0, if_neg hk, if_neg (by rw [hcap]; omega),
      hlaid.placeAll_eq h.capacity_pow]
    exact hgrown
  · -- below the threshold the new key stays where it went
    rename_i hlt
    simp only [Except.ok.injEq, Prod.mk.injEq] at hrun
    obtain ⟨-, rfl⟩ := hrun
    rw [Op.order, if_neg hk0, if_neg hk, if_pos rfl]
    have hthreshold := threshold_le t.loadFactor t.capacity
    rw [← h.resizeAt_eq] at hthreshold
    exact ⟨hlaid, hkeys, hlen.symm, show _ < t.capacity by omega, h.capacity_pow, h.four_le,
      h.le_max, h.resizeAt_eq⟩

/-- **Removing a key.** The null and zero keys live outside the slots; a present key is
closed over by the backward shift, which drops it from the order; an absent key changes
nothing. -/
theorem take_step (h : t.LaidBy σ) {k : Option UInt64} {r : Option V}
    (hrun : (Op.take k).run t = .ok (r, t')) : t'.LaidBy ((Op.take k).order t t' σ) := by
  rcases k with _ | k
  · simp only [Op.run, takeNullable, takeNull, Except.ok.injEq, Prod.mk.injEq] at hrun
    obtain ⟨-, rfl⟩ := hrun
    exact h.congr rfl rfl rfl rfl rfl rfl
  by_cases hk0 : k = 0
  · subst hk0
    simp only [Op.run, takeNullable, take_zero, Except.ok.injEq, Prod.mk.injEq] at hrun
    obtain ⟨-, rfl⟩ := hrun
    rw [Op.order, filter_key_of_not_mem h.not_mem_of_zero]
    exact h.congr rfl rfl rfl rfl rfl rfl
  rw [Op.order]
  rcases h.probe_cases k with ⟨q, w, hq, hprobe⟩ | ⟨hk, _, -, -, hprobe, -⟩
  · simp only [Op.run, takeNullable, take_found hk0 hprobe, Except.ok.injEq,
      Prod.mk.injEq] at hrun
    obtain ⟨-, rfl⟩ := hrun
    obtain ⟨hlaid, -⟩ := h.laid.shiftBack_erase h.capacity_pow
      (Nat.le_trans h.le_max Capacity.maxCapacity_le_wordLimit) hq h.room
    -- the removal takes one entry off: erasing the key's slot takes one off the slots
    have hsize := (h.laid.erase_gap hq).size_eq
    have hcontains : t.slots.contains q = true := by
      rw [Std.ExtTreeMap.contains_eq_isSome_getElem?, hq]
      rfl
    rw [Std.ExtTreeMap.size_erase, if_pos hcontains, h.laid.size_eq] at hsize
    have hroom := h.room
    have hle := List.length_filter_le (fun e => e.1 != k) σ
    refine ⟨hlaid, fun e he => h.key_ne_zero e (List.mem_of_mem_filter he), ?_,
      show _ < t.capacity by omega, h.capacity_pow, h.four_le, h.le_max, h.resizeAt_eq⟩
    show t.assigned - 1 = _
    rw [h.assigned_eq]
    exact hsize
  · simp only [Op.run, takeNullable, take_vacant hk0 hprobe, Except.ok.injEq,
      Prod.mk.injEq] at hrun
    obtain ⟨-, rfl⟩ := hrun
    rw [filter_key_of_not_mem hk]
    exact h

/-- **Modifying a value in place.** Only the entry of a present key changes, and it keeps its
place in the order. -/
theorem modify_step (h : t.LaidBy σ) {k : Option UInt64} {f : V → V} {r : Option V}
    (hrun : (Op.modify k f).run t = .ok (r, t')) : t'.LaidBy ((Op.modify k f).order t t' σ) := by
  rcases k with _ | k
  · cases hn : t.null with
    | none =>
      simp only [Op.run, tokenNullable, nullToken, hn, value?, Option.isSome_none] at hrun
      cases hrun
      exact h
    | some w =>
      simp only [Op.run, tokenNullable, nullToken, hn, value?, Option.isSome_some, setValue,
        if_true, Except.ok.injEq, Prod.mk.injEq] at hrun
      obtain ⟨-, rfl⟩ := hrun
      exact h.congr rfl rfl rfl rfl rfl rfl
  by_cases hk0 : k = 0
  · subst hk0
    rw [Op.order, if_pos rfl]
    cases hz : t.zero with
    | none =>
      simp only [Op.run, tokenNullable, token, hz, value?, Option.isSome_none] at hrun
      cases hrun
      exact h
    | some w =>
      simp only [Op.run, tokenNullable, token, hz, value?, Option.isSome_some, setValue,
        if_true, Except.ok.injEq, Prod.mk.injEq] at hrun
      obtain ⟨-, rfl⟩ := hrun
      exact h.congr rfl rfl rfl rfl rfl rfl
  rw [Op.order, if_neg hk0]
  rcases h.probe_cases k with ⟨q, w, hq, hprobe⟩ | ⟨hk, _, -, -, hprobe, -⟩
  · simp only [Op.run, tokenNullable, token_found hk0 hprobe, value?, entryAt?, hq,
      Option.map_some, setValue_slot hq, Except.ok.injEq, Prod.mk.injEq] at hrun
    obtain ⟨-, rfl⟩ := hrun
    exact h.rewrite hq f
  · simp only [Op.run, tokenNullable, token_vacant hk0 hprobe, value?] at hrun
    cases hrun
    rw [map_rewriteValue_of_not_mem hk]
    exact h

/-- **Clearing** empties the slots and the order, and keeps the size. -/
theorem clear_step (h : t.LaidBy σ) {r : Option V} (hrun : (Op.clear : Op V).run t = .ok (r, t')) :
    t'.LaidBy ((Op.clear : Op V).order t t' σ) := by
  simp only [Op.run, Except.ok.injEq, Prod.mk.injEq] at hrun
  obtain ⟨-, rfl⟩ := hrun
  have hfour := h.four_le
  exact ⟨laid_nil t.hash t.capacity, fun e he => absurd he List.not_mem_nil, rfl,
    show 0 < t.capacity by omega, h.capacity_pow, hfour, h.le_max, h.resizeAt_eq⟩

/-- **Making room** keeps a table, or grows it and orders its entries by their slots. -/
theorem reserve_step (h : t.LaidBy σ) {n : Nat} {r : Option V}
    (hrun : (Op.reserve n : Op V).run t = .ok (r, t')) :
    t'.LaidBy ((Op.reserve n : Op V).order t t' σ) := by
  obtain ⟨t'', hres, hpair⟩ := ok_of_map_ok hrun
  cases hpair
  rw [Op.order]
  rcases reserve_cases hres with rfl | ⟨c, hpow, hfour, hlt, hre⟩
  · rw [if_pos rfl]
    exact h
  · have hroom := h.room
    obtain ⟨hcap, hgrown⟩ := laidBy_rehash h.laid h.key_ne_zero h.assigned_eq hpow hfour
      (by omega) hre
    rw [if_neg (by omega), h.laid.placeAll_eq h.capacity_pow]
    exact hgrown

/-- **One operation keeps the bookkeeping**, the slots laid out by the order
`CompactCollections.Table.Op.order` gives. -/
theorem step (h : t.LaidBy σ) {op : Op V} {r : Option V} (hrun : op.run t = .ok (r, t')) :
    t'.LaidBy (op.order t t' σ) := by
  cases op with
  | insert k v => exact h.insert_step hrun
  | take k => exact h.take_step hrun
  | modify k f => exact h.modify_step hrun
  | clear => exact h.clear_step hrun
  | reserve n => exact h.reserve_step hrun

end LaidBy

/-- **Every reachable table keeps its bookkeeping**, its slots laid out by the order its run
gives. -/
theorem Placed.laidBy {t : Table V} {σ : List (UInt64 × V)} (h : Placed t σ) : t.LaidBy σ := by
  induction h with
  | fresh hbuild => exact laidBy_fresh hbuild
  | step op _ hrun ih => exact ih.step hrun

/-- The walks of a laid-out table end: an empty slot is always ahead. -/
theorem LaidBy.walksEnd {t : Table V} {σ : List (UInt64 × V)} (h : t.LaidBy σ) : t.WalksEnd where
  probe_ne_exhausted := h.probe_ne_exhausted
  shiftBack_fuel {i e} hi m := by
    obtain ⟨k, v⟩ := e
    exact (h.laid.shiftBack_erase h.capacity_pow
      (Nat.le_trans h.le_max Capacity.maxCapacity_le_wordLimit) hi h.room).2 m
  rehash_perm {c t'} hpow hc hre := (h.laid.rehash hpow (h.assigned_eq ▸ hc) hre).perm

/-- **Every reachable table is well-formed and its walks end.** Its size is a power of two
between four and `maxCapacity`, its threshold is its load factor's for that size, its keys are
non-zero and one per slot, its count is the number of occupied slots and below the size, also
right after a doubling that leaves the count at or above the new threshold; so the probe, the
backward shift and the placement of a rehash each end within one round of the table. Its length
is the number of occupied slots plus one for each of the zero and null keys present. -/
theorem Reachable.wellFormed_and_walks_end {t : Table V} (h : t.Reachable) :
    t.WellFormed ∧ t.WalksEnd ∧
      t.len = t.slots.size + (if t.zero.isSome then 1 else 0) +
        (if t.null.isSome then 1 else 0) := by
  obtain ⟨σ, hσ⟩ := h.exists_placed
  have hlaid := hσ.laidBy
  refine ⟨hlaid.wellFormed, hlaid.walksEnd, ?_⟩
  rw [len, hlaid.wellFormed.assigned_eq]

/-- Keys that all share the last slot, run through a doubling and a backward shift across the
end of the slots, leave a well-formed table whose walks end: three keyed entries in a cluster
round the end of its eight slots, and the zero and null keys beside them. -/
theorem colliding_wellFormed_and_walks_end :
    ∃ t, Op.runAll collidingRun collidingStart = .ok t ∧ t.Reachable ∧ t.WellFormed ∧
      t.WalksEnd ∧ t.capacity = 8 ∧ t.slots.size = 3 ∧ t.len = 5 := by
  obtain ⟨t, hrun, hcap, hsize, hcount⟩ : ∃ t, Op.runAll collidingRun collidingStart = .ok t ∧
      t.capacity = 8 ∧ t.slots.size = 3 ∧
      t.slots.size + (if t.zero.isSome then 1 else 0) + (if t.null.isSome then 1 else 0) = 5 :=
    ⟨_, rfl, by decide +kernel, by decide +kernel, by decide +kernel⟩
  have h := collidingStart_reachable.runAll collidingRun hrun
  obtain ⟨hwf, hwalks, hlen⟩ := Reachable.wellFormed_and_walks_end h
  exact ⟨t, hrun, h, hwf, hwalks, hcap, hsize, hlen.trans hcount⟩

/-! ### The layout of a reachable table -/

/-- **The slots of a reachable table are the placement of its order.** Placing the entries of
its order one after another, each into the first empty slot from its home slot, into empty
slots of the same size and hash gives exactly its slots; its entries are those of the order; no
empty slot lies on the way from an entry's home slot to its own; and removing a key leaves the
slots that placing the order without the key gives, as if it had never been stored. -/
theorem Placed.slots_eq_placeAll {t : Table V} {σ : List (UInt64 × V)} (h : Placed t σ) :
    t.slotEntries.Perm σ ∧ t.slots = t.placeAll σ ∧
      (∀ {i : Nat} {e : UInt64 × V}, t.slots[i]? = some e →
        ∀ j < span t.capacity (home t.hash t.capacity e.1) i,
          t.slots[(home t.hash t.capacity e.1 + j) % t.capacity]? ≠ none) ∧
      (∀ {k : UInt64} {r : Option V} {t' : Table V}, (Op.take (some k)).run t = .ok (r, t') →
        t'.slots = t.placeAll (σ.filter fun e => e.1 != k)) := by
  have hlaid := h.laidBy.laid
  refine ⟨hlaid.perm, (hlaid.placeAll_eq h.laidBy.capacity_pow).symm, fun {i e} hi j hj => ?_,
    fun {k r t'} hrun => ?_⟩
  · -- every slot on the way holds an earlier entry: the order has no hole
    rcases hlaid.chain hi j hj with hhole | ⟨f, hf, -⟩
    · cases hhole
    · rw [hf]
      exact Option.some_ne_none f
  · -- the removal is one more step of the run, and it keeps the hash and the size
    have hplaced' := Placed.step (Op.take (some k)) h hrun
    have hlaid' : Laid t'.hash t'.capacity (σ.filter fun e => e.1 != k) t'.slots none :=
      hplaced'.laidBy.laid
    have htake : t.take k = (r, t') := Except.ok.inj hrun
    have ht' : t' = (t.take k).2 := by
      rw [htake]
    obtain ⟨hh, hc⟩ : t'.hash = t.hash ∧ t'.capacity = t.capacity := by
      rw [ht']
      exact take_hash_capacity
    rw [placeAll_congr hh.symm hc.symm, hlaid'.placeAll_eq hplaced'.laidBy.capacity_pow]

/-- Keys that all share the last slot, run through a doubling and a backward shift across the
end of the slots: the slots are the placement of the order the run builds, from the last slot
round to the second, and taking the key in the middle of the cluster leaves the placement of the
other two, as if it had never been stored. -/
theorem colliding_slots_eq_placeAll :
    ∃ t, Op.runAll collidingRun collidingStart = .ok t ∧ Placed t [(1, 10), (3, 31), (4, 40)] ∧
      t.slots = t.placeAll [(1, 10), (3, 31), (4, 40)] ∧
      (Op.take (some 3)).run t = .ok (some 31, (t.take 3).2) ∧
      (t.take 3).2.slots = t.placeAll [(1, 10), (4, 40)] := by
  obtain ⟨t, hrun, hvalue⟩ : ∃ t, Op.runAll collidingRun collidingStart = .ok t ∧
      (t.take 3).1 = some 31 := ⟨_, rfl, by decide +kernel⟩
  have horder : Op.orderAll collidingRun collidingStart [] = [(1, 10), (3, 31), (4, 40)] := by
    decide +kernel
  have h := collidingStart_placed.runAll collidingRun hrun
  rw [horder] at h
  have htake : (Op.take (some 3)).run t = .ok (some 31, (t.take 3).2) := by
    rw [← hvalue]
    rfl
  have hrest : ([(1, 10), (3, 31), (4, 40)] : List (UInt64 × Nat)).filter (fun e => e.1 != 3) =
      [(1, 10), (4, 40)] := by decide
  obtain ⟨-, hslots, -, hremove⟩ := Placed.slots_eq_placeAll h
  exact ⟨t, hrun, h, hslots, htake, hrest ▸ hremove htake⟩

end CompactCollections.Table
