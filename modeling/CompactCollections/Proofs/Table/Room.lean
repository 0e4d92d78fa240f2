import CompactCollections.Proofs.Table.Sizing
import CompactCollections.Proofs.Table.FiniteMap
import CompactCollections.Session.Table
import Mathlib.Data.Finset.Card
/-!
# Room for new keys

A table grows only when a new key brings its count of occupied slots to its threshold. So a run
of operations that removes nothing – stores and rewrites in place – and adds to the slots only
keys from a set `B` that already covers the table's keys, with `|B|` below the threshold, never
grows the table and never fails (`CompactCollections.Table.LaidBy.runAll_within`). Counted the
other way, a run that adds at most `n` new keys keeps the size whenever the count plus `n` is
below the threshold (`CompactCollections.Table.LaidBy.runAll_of_newSlotKeys`); and a run of
distinct new keys that reaches the threshold does grow it
(`CompactCollections.Table.LaidBy.insertAll_grows`). No run of operations ever shrinks a table.

With the sizing law this settles what a table built for `e` entries promises
(`CompactCollections.LoadFactor.builtSize_is_least`): it takes any `e` non-zero keys without
changing its size, and no smaller power of two of at least four slots would.
-/

namespace CompactCollections.Table

variable {V : Type}

/-! ### Runs of operations -/

namespace Op

/-- Whether an operation removes no key: a store or a rewrite in place. -/
def removesNone : Op V → Bool
  | .insert _ _ | .modify _ _ => true
  | _ => false

/-- The key an operation stores in a slot: a non-zero key it stores. -/
def slotKey : Op V → Option UInt64
  | .insert (some k) _ => if k = 0 then none else some k
  | _ => none

end Op

/-- **The keys a run adds to the slots of `t`**: the non-zero keys it stores that `t` does not
hold. -/
def newSlotKeys (t : Table V) (ops : List (Op V)) : Finset UInt64 :=
  ((ops.filterMap Op.slotKey).filter fun k => !t.contains k).toFinset

/-! ### No operation shrinks a table -/

section Grow

variable {t t' : Table V}

@[simp] theorem capacity_setValue (t : Table V) (tok : Token) (v : V) :
    (t.setValue tok v).capacity = t.capacity := by
  unfold setValue
  split
  · split <;> rfl
  all_goals first | rfl | (split <;> rfl)

@[simp] theorem resizeAt_setValue (t : Table V) (tok : Token) (v : V) :
    (t.setValue tok v).resizeAt = t.resizeAt := by
  unfold setValue
  split
  · split <;> rfl
  all_goals first | rfl | (split <;> rfl)

/-- A store keeps the size and the load factor of a table, or rehashes into twice the size a
table that has them. -/
theorem insert_ok_cases {k : UInt64} {v : V} {r : Option V} (h : t.insert k v = .ok (r, t')) :
    (t'.capacity = t.capacity ∧ t'.loadFactor = t.loadFactor) ∨
      ∃ s : Table V, s.capacity = t.capacity ∧ s.loadFactor = t.loadFactor ∧
        s.rehash (2 * t.capacity) = .ok t' := by
  by_cases hk : k = 0
  · subst hk
    rw [insert_zero] at h
    cases h
    exact .inl ⟨rfl, rfl⟩
  cases hp : t.probe k with
  | found i =>
    rw [insert_found hk hp] at h
    cases h
    exact .inl ⟨rfl, rfl⟩
  | vacant i =>
    rw [insert_vacant hk hp] at h
    split at h
    · -- the count reached the threshold: the table with the new key is rehashed
      obtain ⟨grown, hgrow, hpair⟩ := ok_of_map_ok h
      cases hpair
      refine .inr ⟨_, ?_, ?_, hgrow⟩ <;> rfl
    · cases h
      exact .inl ⟨rfl, rfl⟩
  | exhausted =>
    simp only [insert, hk, if_false, hp] at h
    cases h
    exact .inl ⟨rfl, rfl⟩

theorem insert_capacity_le {k : UInt64} {v : V} {r : Option V} (h : t.insert k v = .ok (r, t')) :
    t.capacity ≤ t'.capacity := by
  rcases insert_ok_cases h with ⟨hc, -⟩ | ⟨s, hs, -, hgrow⟩
  · exact Nat.le_of_eq hc.symm
  · -- a growth doubles the size
    rw [(rehash_ok hgrow).2]
    show t.capacity ≤ 2 * t.capacity
    omega

/-- **No operation shrinks a table**: a growth doubles it or rehashes it into a larger size. -/
theorem Op.capacity_le_of_run {op : Op V} {r : Option V} (h : op.run t = .ok (r, t')) :
    t.capacity ≤ t'.capacity := by
  cases op with
  | insert k v =>
    rcases k with _ | k
    · cases h
      exact Nat.le_refl _
    · exact insert_capacity_le h
  | take k =>
    have h' : t.takeNullable k = (r, t') := Except.ok.inj h
    rcases k with _ | k
    · cases h'
      exact Nat.le_refl _
    · have htake : t.take k = (r, t') := h'
      have hc := (take_hash_capacity (t := t) (k := k)).2
      rw [htake] at hc
      exact Nat.le_of_eq hc.symm
  | modify k f =>
    simp only [Op.run] at h
    split at h
    · cases h
      exact Nat.le_of_eq (capacity_setValue _ _ _).symm
    · cases h
      exact Nat.le_refl _
  | clear =>
    cases h
    exact Nat.le_refl _
  | reserve n =>
    obtain ⟨t'', hres, hpair⟩ := ok_of_map_ok h
    cases hpair
    rcases reserve_cases hres with rfl | ⟨c, -, -, hlt, hre⟩
    · exact Nat.le_refl _
    · rw [(rehash_ok hre).2]
      exact Nat.le_of_lt hlt

theorem Op.capacity_le_of_runAll {ops : List (Op V)} (h : Op.runAll ops t = .ok t') :
    t.capacity ≤ t'.capacity := by
  induction ops generalizing t with
  | nil =>
    cases h
    exact Nat.le_refl _
  | cons op ops ih =>
    obtain ⟨r, t₁, hrun, hrest⟩ := Op.runAll_cons_ok h
    exact Nat.le_trans (Op.capacity_le_of_run hrun) (ih hrest)

end Grow

/-! ### Runs within a set of keys -/

namespace LaidBy

variable {t : Table V} {σ : List (UInt64 × V)}

/-- A non-zero key is present exactly when the order holds it. -/
theorem contains_iff (h : t.LaidBy σ) {k : UInt64} (hk : k ≠ 0) :
    t.contains k = true ↔ k ∈ σ.map Prod.fst := by
  rw [h.contains_eq, Std.ExtTreeMap.contains_eq_isSome_getElem?, h.getElem?_toMap_some hk,
    Option.isSome_iff_ne_none, Ne, valueIn_eq_none_iff, Classical.not_not]

/-- **One store or rewrite within `B`.** If the order's keys and the key stored lie in `B`, and
`|B|` is below the threshold, the operation succeeds, keeps the size and the threshold, and lays
the table out by an order whose keys still lie in `B`. -/
theorem run_within (h : t.LaidBy σ) {op : Op V} (hop : op.removesNone = true)
    {B : Finset UInt64} (hσ : ∀ e ∈ σ, e.1 ∈ B) (hB : ∀ k, op.slotKey = some k → k ∈ B)
    (hroom : B.card < t.resizeAt) :
    ∃ r t' σ', op.run t = .ok (r, t') ∧ t'.LaidBy σ' ∧ t'.capacity = t.capacity ∧
      t'.resizeAt = t.resizeAt ∧ ∀ e ∈ σ', e.1 ∈ B := by
  cases op with
  | insert k v =>
    rcases k with _ | k
    · -- the null key lives outside the slots
      exact ⟨_, _, σ, rfl, h.congr rfl rfl rfl rfl rfl rfl, rfl, rfl, hσ⟩
    by_cases hk0 : k = 0
    · subst hk0
      exact ⟨t.zero, { t with zero := some v }, σ, by simp only [Op.run, insertNullable, insert_zero],
        h.congr rfl rfl rfl rfl rfl rfl, rfl, rfl, hσ⟩
    rcases h.probe_cases k with ⟨q, w, hq, hprobe⟩ | ⟨hk, p, hp, hpe, hprobe, -, hwalk⟩
    · -- a present key is rewritten where it is
      refine ⟨(t.entryAt? q).map Prod.snd, { t with slots := t.slots.insert q (k, v) }, _,
        by simp only [Op.run, insertNullable, insert_found hk0 hprobe],
        h.rewrite hq fun _ => v, rfl, rfl, fun e he => ?_⟩
      obtain ⟨f, hf, rfl⟩ := List.mem_map.mp he
      rw [fst_rewriteValue]
      exact hσ f hf
    · -- a new key lies in `B` too, so the count stays below the threshold
      have hkB : k ∈ B := hB k (by simp [Op.slotKey, hk0])
      have hlaid : Laid t.hash t.capacity (σ ++ [(k, v)]) (t.slots.insert p (k, v)) none :=
        h.laid.snoc hk hp hpe hwalk
      have hσ' : ∀ e ∈ σ ++ [(k, v)], e.1 ∈ B := by
        intro e he
        rcases List.mem_append.mp he with he | he
        · exact hσ e he
        · rw [List.mem_singleton.mp he]
          exact hkB
      have hcount : σ.length + 1 ≤ B.card := by
        have hnodup : ((σ ++ [(k, v)]).map Prod.fst).Nodup := hlaid.nodup
        have := List.toFinset_card_of_nodup hnodup
        have hsub : ((σ ++ [(k, v)]).map Prod.fst).toFinset ⊆ B := fun x hx => by
          obtain ⟨e, he, rfl⟩ := List.mem_map.mp (List.mem_toFinset.mp hx)
          exact hσ' e he
        have := Finset.card_le_card hsub
        simp_all
      have hlt : ¬t.resizeAt ≤ t.assigned + 1 := by
        rw [h.assigned_eq]
        omega
      have hrun : (Op.insert (some k) v).run t =
          .ok (none, { t with slots := t.slots.insert p (k, v), assigned := t.assigned + 1 }) := by
        simp only [Op.run, insertNullable, insert_vacant hk0 hprobe, if_neg hlt]
      have hstep := h.insert_step hrun
      rw [Op.order, if_neg hk0, if_neg hk, if_pos rfl] at hstep
      exact ⟨_, _, _, hrun, hstep, rfl, rfl, hσ'⟩
  | modify k f =>
    -- a rewrite in place keeps the keys, the size and the threshold
    have hrun : ∃ r t', (Op.modify k f).run t = .ok (r, t') ∧ t'.capacity = t.capacity ∧
        t'.resizeAt = t.resizeAt := by
      simp only [Op.run]
      split
      · exact ⟨_, _, rfl, capacity_setValue _ _ _, resizeAt_setValue _ _ _⟩
      · exact ⟨_, _, rfl, rfl, rfl⟩
    obtain ⟨r, t', hrun, hcap, hresize⟩ := hrun
    refine ⟨r, t', _, hrun, h.modify_step hrun, hcap, hresize, fun e he => ?_⟩
    rcases k with _ | k
    · exact hσ e he
    · simp only [Op.order] at he
      split at he
      · exact hσ e he
      · obtain ⟨f', hf', rfl⟩ := List.mem_map.mp he
        rw [fst_rewriteValue]
        exact hσ f' hf'
  | take k => cases hop
  | clear => cases hop
  | reserve n => cases hop

/-- **A run of stores and rewrites within `B` keeps the size.** If the order's keys and every
key the run stores in a slot lie in `B`, and `|B|` is below the threshold, the run succeeds and
the table keeps its size. -/
theorem runAll_within (h : t.LaidBy σ) {ops : List (Op V)} (hops : ∀ op ∈ ops, op.removesNone)
    {B : Finset UInt64} (hσ : ∀ e ∈ σ, e.1 ∈ B)
    (hB : ∀ op ∈ ops, ∀ k, op.slotKey = some k → k ∈ B) (hroom : B.card < t.resizeAt) :
    ∃ t', Op.runAll ops t = .ok t' ∧ t'.capacity = t.capacity := by
  induction ops generalizing t σ with
  | nil => exact ⟨t, rfl, rfl⟩
  | cons op ops ih =>
    obtain ⟨r, t₁, σ₁, hrun, h₁, hcap, hresize, hσ₁⟩ :=
      h.run_within (hops op List.mem_cons_self) hσ (hB op List.mem_cons_self) hroom
    obtain ⟨t', hrest, hcap'⟩ := ih h₁ (fun op hop => hops op (List.mem_cons_of_mem _ hop)) hσ₁
      (fun op hop => hB op (List.mem_cons_of_mem _ hop)) (hresize ▸ hroom)
    refine ⟨t', ?_, hcap'.trans hcap⟩
    rw [Op.runAll, runSteps_cons_of_ok hrun]
    exact hrest

/-- **A run that adds at most `n` new keys keeps the size** when the count plus `n` is below the
threshold. -/
theorem runAll_of_newSlotKeys (h : t.LaidBy σ) {ops : List (Op V)}
    (hops : ∀ op ∈ ops, op.removesNone) (hroom : t.assigned + (t.newSlotKeys ops).card < t.resizeAt) :
    ∃ t', Op.runAll ops t = .ok t' ∧ t'.capacity = t.capacity := by
  -- the keys held and the keys added
  refine h.runAll_within hops (B := (σ.map Prod.fst).toFinset ∪ t.newSlotKeys ops)
    (fun e he => Finset.mem_union_left _ (List.mem_toFinset.mpr (List.mem_map_of_mem he)))
    (fun op hop k hk => ?_) ?_
  · have hk0 : k ≠ 0 := by
      unfold Op.slotKey at hk
      split at hk
      · split at hk
        · cases hk
        · cases hk
          assumption
      · cases hk
    by_cases hc : t.contains k = true
    · exact Finset.mem_union_left _ (List.mem_toFinset.mpr ((h.contains_iff hk0).mp hc))
    · refine Finset.mem_union_right _ (List.mem_toFinset.mpr (List.mem_filter.mpr ⟨?_, by simpa using hc⟩))
      exact List.mem_filterMap.mpr ⟨op, hop, hk⟩
  · calc ((σ.map Prod.fst).toFinset ∪ t.newSlotKeys ops).card
        ≤ (σ.map Prod.fst).toFinset.card + (t.newSlotKeys ops).card := Finset.card_union_le _ _
      _ ≤ t.assigned + (t.newSlotKeys ops).card := by
        have := List.toFinset_card_le (σ.map Prod.fst)
        rw [List.length_map, ← h.assigned_eq] at this
        omega
      _ < t.resizeAt := hroom

end LaidBy

/-! ### Storing entries in turn -/

theorem insertAll_cons (t : Table V) (k : UInt64) (v : V) (rest : List (UInt64 × V)) :
    Session.insertAll t ((k, v) :: rest) = t.insert k v >>= fun p => Session.insertAll p.2 rest :=
  rfl

/-- Storing entries in turn is the run of their stores. -/
theorem insertAll_eq_runAll (t : Table V) (kvs : List (UInt64 × V)) :
    Session.insertAll t kvs = Op.runAll (kvs.map fun kv => Op.insert (some kv.1) kv.2) t := by
  induction kvs generalizing t with
  | nil => rfl
  | cons kv kvs ih =>
    obtain ⟨k, v⟩ := kv
    rw [insertAll_cons, List.map_cons, Op.runAll]
    cases hins : t.insert k v with
    | error e =>
      have hop : (Op.insert (some k) v).run t = .error e := hins
      simp only [runSteps, hop]
      rfl
    | ok p =>
      obtain ⟨r, t₁⟩ := p
      have hop : (Op.insert (some k) v).run t = .ok (r, t₁) := hins
      rw [runSteps_cons_of_ok hop]
      exact ih t₁

namespace LaidBy

variable {t t' : Table V} {σ : List (UInt64 × V)}

/-- **Distinct new keys that reach the threshold grow the table.** Storing at least as many
distinct non-zero keys, none held, as the threshold leaves room for ends in a larger table, if it
succeeds. -/
theorem insertAll_grows (h : t.LaidBy σ) {kvs : List (UInt64 × V)} (hnz : ∀ kv ∈ kvs, kv.1 ≠ 0)
    (hnd : (kvs.map Prod.fst).Nodup) (hnew : ∀ kv ∈ kvs, kv.1 ∉ σ.map Prod.fst) (hne : kvs ≠ [])
    (hfull : t.resizeAt ≤ t.assigned + kvs.length) (hrun : Session.insertAll t kvs = .ok t') :
    t.capacity < t'.capacity := by
  induction kvs generalizing t σ with
  | nil => exact absurd rfl hne
  | cons kv kvs ih =>
    obtain ⟨k, v⟩ := kv
    rw [insertAll_cons] at hrun
    obtain ⟨⟨r, t₁⟩, hins, hrest⟩ := ok_of_bind_ok hrun
    have hk0 : k ≠ 0 := hnz (k, v) List.mem_cons_self
    have hk : k ∉ σ.map Prod.fst := hnew (k, v) List.mem_cons_self
    have hcap := Op.capacity_le_of_runAll ((insertAll_eq_runAll _ _).symm.trans hrest)
    rcases h.probe_cases k with ⟨q, w, hq, -⟩ | ⟨-, p, hp, hpe, hprobe, -, hwalk⟩
    · exact absurd (List.mem_map_of_mem (f := Prod.fst) (h.laid.mem hq)) hk
    rw [insert_vacant hk0 hprobe] at hins
    split at hins
    · -- the threshold is reached: the table doubles, and later stores never shrink it
      obtain ⟨grown, hgrow, hpair⟩ := ok_of_map_ok hins
      cases hpair
      have hfour := h.four_le
      rw [(rehash_ok hgrow).2] at hcap
      exact Nat.lt_of_lt_of_le (by show t.capacity < 2 * t.capacity; omega) hcap
    · -- below the threshold the key takes an empty slot, and the rest reach the threshold
      rename_i hlt
      cases hins
      have hrun₁ : (Op.insert (some k) v).run t = .ok (none, { t with
          slots := t.slots.insert p (k, v), assigned := t.assigned + 1 }) := by
        simp only [Op.run, insertNullable, insert_vacant hk0 hprobe, if_neg hlt]
      have h₁ := h.insert_step hrun₁
      rw [Op.order, if_neg hk0, if_neg hk, if_pos rfl] at h₁
      have hrest_ne : kvs ≠ [] := by
        rintro rfl
        simp only [List.length_cons, List.length_nil] at hfull
        omega
      have hnew₁ : ∀ kv ∈ kvs, kv.1 ∉ (σ ++ [(k, v)]).map Prod.fst := by
        intro kv hkv hmem
        rw [List.map_append, List.mem_append] at hmem
        rcases hmem with hmem | hmem
        · exact hnew kv (List.mem_cons_of_mem _ hkv) hmem
        · have hkv_k : kv.1 = k := by simpa using hmem
          refine (List.nodup_cons.mp hnd).1 ?_
          rw [← hkv_k]
          exact List.mem_map.mpr ⟨kv, hkv, rfl⟩
      have hfull₁ : t.resizeAt ≤ t.assigned + 1 + kvs.length := by
        simp only [List.length_cons] at hfull
        omega
      have hgrow := ih h₁ (fun kv hkv => hnz kv (List.mem_cons_of_mem _ hkv))
        (List.nodup_cons.mp hnd).2 hnew₁ hrest_ne hfull₁ hrest
      exact hgrow

end LaidBy

/-- An empty table of a power-of-two size between four and `maxCapacity` is laid out by the
empty order. -/
theorem laidBy_empty (hash : UInt64 → UInt64) (lf : LoadFactor) {p : Nat} (hp : p.isPowerOfTwo)
    (hfour : 4 ≤ p) (hmax : p ≤ maxCapacity) : (empty hash lf p : Table V).LaidBy [] :=
  ⟨laid_nil hash p, by simp, rfl, show 0 < p by omega, hp, hfour, hmax, rfl⟩

end CompactCollections.Table

namespace CompactCollections.LoadFactor

open CompactCollections.Table

/-- **A table built for `e` entries has the least size that takes them.** For every clamped load
factor, the least power of two of at least four slots whose threshold exceeds `e` exists; the
sizing rule gives it when it fits in `maxCapacity` and otherwise refuses. A table built for `e`
entries at that load factor, with any hash function, has that size, takes any `e` non-zero keys
without changing it, and no smaller power of two of at least four slots would take `e` distinct
non-zero keys without growing. -/
theorem builtSize_is_least (b : UInt32) (e : Nat) :
    (∃ c, LeastSize (clamp b) e c ∧
      ((c ≤ maxCapacity ∧ (clamp b).tableCapacity e = .ok c) ∨
        (maxCapacity < c ∧ ((clamp b).tableCapacity e = .error (.capacityOverflow e) ∨
          (clamp b).tableCapacity e = .error (.capacityOverflow c))))) ∧
    ∀ {V : Type} (hash : UInt64 → UInt64) (t : Table V),
      withConfig hash e (clamp b) = .ok t →
        LeastSize (clamp b) e t.capacity ∧
        (∀ kvs : List (UInt64 × V), (∀ kv ∈ kvs, kv.1 ≠ 0) → kvs.length ≤ e →
          ∃ t', Session.insertAll t kvs = .ok t' ∧ t'.capacity = t.capacity) ∧
        (∀ p, p.isPowerOfTwo → 4 ≤ p → p < t.capacity →
          ∀ kvs : List (UInt64 × V), (∀ kv ∈ kvs, kv.1 ≠ 0) → (kvs.map Prod.fst).Nodup →
            kvs.length = e → ∀ t', Session.insertAll (empty hash (clamp b) p) kvs = .ok t' →
              t'.capacity ≠ p) := by
  have hf := fraction_clamp b
  refine ⟨tableCapacity_cases hf e, fun {V} hash t hbuild => ?_⟩
  -- the table is empty, of the least size
  obtain ⟨c, hc, rfl⟩ : ∃ c, (clamp b).tableCapacity e = .ok c ∧ t = empty hash (clamp b) c := by
    unfold withConfig at hbuild
    simp only [bind, Except.bind] at hbuild
    split at hbuild
    · cases hbuild
    · cases hbuild
      exact ⟨_, ‹_›, rfl⟩
  obtain ⟨hleast, hfit⟩ := (tableCapacity_eq_ok_iff hf).mp hc
  refine ⟨hleast, fun kvs hnz hlen => ?_, fun p hp hfour hlt kvs hnz hnd hlen t' hrun => ?_⟩
  · -- every key is new to the empty table, and there are at most `e < threshold` of them
    have h := laidBy_empty (V := V) hash (clamp b) hleast.pow hleast.four_le hfit
    rw [insertAll_eq_runAll]
    refine h.runAll_within (B := (kvs.map Prod.fst).toFinset) (fun op hop => ?_) (by simp)
      (fun op hop k hk => ?_) ?_
    · obtain ⟨kv, -, rfl⟩ := List.mem_map.mp hop
      rfl
    · obtain ⟨kv, hkv, rfl⟩ := List.mem_map.mp hop
      simp only [Op.slotKey] at hk
      split at hk
      · cases hk
      · cases hk
        exact List.mem_toFinset.mpr (List.mem_map_of_mem hkv)
    · calc (kvs.map Prod.fst).toFinset.card ≤ (kvs.map Prod.fst).length := List.toFinset_card_le _
        _ ≤ e := by rw [List.length_map]; exact hlen
        _ < _ := hleast.lt_threshold
  · -- a smaller size has its threshold reached by `e` distinct keys, so it grows
    change p < c at hlt
    have hmax : p ≤ maxCapacity := by omega
    have h := laidBy_empty (V := V) hash (clamp b) hp hfour hmax
    have hth : (clamp b).threshold p ≤ e := Nat.le_of_not_lt fun hpth =>
      absurd (hleast.le_of_lt_threshold hp hfour hpth) (Nat.not_le.mpr hlt)
    have hpos : 0 < (clamp b).threshold p := by
      unfold threshold
      omega
    have hgrow := h.insertAll_grows hnz hnd (fun _ _ hmem => by simp at hmem)
      (by rintro rfl; simp at hlen; omega) (by show (clamp b).threshold p ≤ 0 + kvs.length; omega) hrun
    exact Nat.ne_of_gt hgrow

/-- At load factor `0.3` nine entries need the doubling: the power above `⌈9 / 0.3⌉ = 30` is 32,
whose threshold is nine, so a table built for nine entries has 64 slots; it takes nine keys
without growing, and a table of 32 slots grows on them. -/
theorem nine_entries_at_three_tenths :
    withConfig id 9 (clamp 0x3E99999A) = .ok (empty id (clamp 0x3E99999A) 64 : Table Nat) ∧
      LeastSize (clamp 0x3E99999A) 9 64 ∧
      (∃ t', Session.insertAll (empty id (clamp 0x3E99999A) 64 : Table Nat)
          [(1, 0), (2, 0), (3, 0), (4, 0), (5, 0), (6, 0), (7, 0), (8, 0), (9, 0)] = .ok t' ∧
        t'.capacity = 64) ∧
      ∀ t', Session.insertAll (empty id (clamp 0x3E99999A) 32 : Table Nat)
          [(1, 0), (2, 0), (3, 0), (4, 0), (5, 0), (6, 0), (7, 0), (8, 0), (9, 0)] = .ok t' →
        t'.capacity ≠ 32 := by
  have hbuild : withConfig id 9 (clamp 0x3E99999A) =
      .ok (empty id (clamp 0x3E99999A) 64 : Table Nat) := rfl
  obtain ⟨hleast, haccept, hsmaller⟩ := (builtSize_is_least 0x3E99999A 9).2 id _ hbuild
  exact ⟨hbuild, hleast, haccept _ (by decide) (by decide),
    hsmaller 32 ⟨5, rfl⟩ (by decide) (by decide) _ (by decide) (by decide) rfl⟩

end CompactCollections.LoadFactor
