import CompactCollections.Proofs.Table.Room
/-!
# Making room ahead of time

`CompactCollections.Table.reserve t n` asks for room for `n` more keys in slots. It refuses in
two ways only: the count of keys wanted, `assigned + n`, passes the largest machine word, or the
sizing rule refuses that count. It refuses before it touches anything – a session that tries to
reserve keeps its table, and one that must reserve aborts with that same error.

When it succeeds, the map is the same, the table is no smaller, and its threshold is above the
count wanted: either the count was already below the threshold, or the table was rehashed into
the least size whose threshold exceeds it (or was already at least that large). So any later run
of stores and rewrites that adds at most `n` new keys keeps the size
(`CompactCollections.Table.Reachable.reserve_refuses_or_makesRoom`).

Both rest on the load factor staying the clamped one it was built with
(`CompactCollections.Table.Reachable.loadFactor_clamp`), which is what makes the sizing law apply.
-/

namespace CompactCollections.Table

variable {V : Type} {t t' : Table V} {n : Nat}

/-! ### The load factor never changes -/

@[simp] theorem loadFactor_setValue (t : Table V) (tok : Token) (v : V) :
    (t.setValue tok v).loadFactor = t.loadFactor := by
  unfold setValue
  split
  · split <;> rfl
  all_goals first | rfl | (split <;> rfl)

theorem loadFactor_rehash {s : Table V} {c : Nat} (h : s.rehash c = .ok t') :
    t'.loadFactor = s.loadFactor := by
  rw [(rehash_ok h).2]

theorem loadFactor_take (t : Table V) (k : UInt64) : (t.take k).2.loadFactor = t.loadFactor := by
  unfold Table.take
  split
  · rfl
  · split <;> rfl

theorem loadFactor_insert {k : UInt64} {v : V} {r : Option V} (h : t.insert k v = .ok (r, t')) :
    t'.loadFactor = t.loadFactor := by
  rcases insert_ok_cases h with ⟨-, hl⟩ | ⟨s, -, hl, hgrow⟩
  · exact hl
  · rw [loadFactor_rehash hgrow, hl]

/-- No operation changes the load factor. -/
theorem Op.loadFactor_of_run {op : Op V} {r : Option V} (h : op.run t = .ok (r, t')) :
    t'.loadFactor = t.loadFactor := by
  cases op with
  | insert k v =>
    rcases k with _ | k
    · cases h
      rfl
    · exact loadFactor_insert h
  | take k =>
    have h' : t.takeNullable k = (r, t') := Except.ok.inj h
    rcases k with _ | k
    · cases h'
      rfl
    · have htake : t.take k = (r, t') := h'
      have hlf := loadFactor_take t k
      rw [htake] at hlf
      exact hlf
  | modify k f =>
    simp only [Op.run] at h
    split at h <;> cases h
    · exact loadFactor_setValue _ _ _
    · rfl
  | clear =>
    cases h
    rfl
  | reserve n =>
    obtain ⟨t'', hres, hpair⟩ := ok_of_map_ok h
    cases hpair
    rcases reserve_cases hres with rfl | ⟨c, -, -, -, hre⟩
    · rfl
    · exact loadFactor_rehash hre

/-- **A reachable table keeps the clamped load factor it was built with.** -/
theorem Reachable.loadFactor_clamp (h : t.Reachable) : ∃ b, t.loadFactor = LoadFactor.clamp b := by
  induction h with
  | @fresh hash expected bits t hbuild =>
    refine ⟨bits, ?_⟩
    unfold withConfig at hbuild
    simp only [bind, Except.bind] at hbuild
    split at hbuild
    · cases hbuild
    · cases hbuild
      rfl
  | step op _ hrun ih =>
    obtain ⟨b, hb⟩ := ih
    exact ⟨b, (Op.loadFactor_of_run hrun).trans hb⟩

/-! ### What making room does -/

/-- The code of making room once the count wanted is a machine word: nothing when it is below the
threshold, else the size the sizing rule gives, rehashed into when larger. -/
theorem reserve_of_lt (hw : t.assigned + n < Capacity.wordLimit) :
    t.reserve n =
      if t.assigned + n < t.resizeAt then .ok t
      else (t.loadFactor.tableCapacity (t.assigned + n)).bind fun c =>
        if t.capacity < c then t.rehash c else .ok t := by
  simp only [reserve, if_neg (Nat.not_le.mpr hw)]
  split
  · rfl
  · cases t.loadFactor.tableCapacity (t.assigned + n) <;> rfl

/-- Below the threshold of a well-sized table, the sizing rule never refuses: the least size
for the count is at most the table's own. -/
theorem tableCapacity_ok_of_lt_threshold (h : t.LaidBy σ) (hf : t.loadFactor.Fraction)
    (hlt : n < t.loadFactor.threshold t.capacity) :
    ∃ c, t.loadFactor.tableCapacity n = .ok c ∧ LoadFactor.LeastSize t.loadFactor n c := by
  obtain ⟨c, hleast, hok | ⟨hbig, -⟩⟩ := LoadFactor.tableCapacity_cases hf n
  · exact ⟨c, hok.2, hleast⟩
  · have := hleast.le_of_lt_threshold h.capacity_pow h.four_le hlt
    have := h.le_max
    omega

/-- **Making room refuses exactly** when the count wanted passes the largest machine word, with
the largest word as the request, or when the sizing rule refuses that count, with its error. -/
theorem LaidBy.reserve_error_iff (h : t.LaidBy σ) (hf : t.loadFactor.Fraction) (err : CollectionError) :
    t.reserve n = .error err ↔
      (Capacity.wordLimit ≤ t.assigned + n ∧ err = .capacityOverflow (Capacity.wordLimit - 1)) ∨
      (t.assigned + n < Capacity.wordLimit ∧
        t.loadFactor.tableCapacity (t.assigned + n) = .error err) := by
  by_cases hw : Capacity.wordLimit ≤ t.assigned + n
  · simp only [reserve, hw, ↓reduceIte, Except.error.injEq, true_and, Nat.not_lt.mpr hw,
      false_and, or_false]
    exact eq_comm
  have hw' := Nat.lt_of_not_le hw
  simp only [reserve_of_lt hw', hw, false_and, hw', true_and, false_or]
  split
  · -- below the threshold nothing is refused, and neither is the count by the sizing rule
    rename_i hlt
    rw [h.resizeAt_eq] at hlt
    obtain ⟨c, hc, -⟩ := tableCapacity_ok_of_lt_threshold h hf hlt
    rw [hc]
    exact ⟨fun h => (by cases h), fun h => (by cases h)⟩
  · simp only [Except.bind]
    cases hc : t.loadFactor.tableCapacity (t.assigned + n) with
    | error e => simp
    | ok c =>
      -- the size the rule gives fits, so the rehash into it succeeds
      have hfit := ((LoadFactor.tableCapacity_eq_ok_iff hf).mp hc).2
      simp only
      split
      · rw [rehash_eq hfit]
        exact ⟨fun h => (by cases h), fun h => (by cases h)⟩
      · exact ⟨fun h => (by cases h), fun h => (by cases h)⟩

/-- **After making room the threshold is above the count wanted**, and the count is the same. -/
theorem LaidBy.reserve_room (h : t.LaidBy σ) (hf : t.loadFactor.Fraction) (hres : t.reserve n = .ok t') :
    t.assigned + n < t'.resizeAt ∧ t'.assigned = t.assigned := by
  have hw : t.assigned + n < Capacity.wordLimit := by
    by_contra hw
    simp only [reserve, if_pos (Nat.le_of_not_lt hw)] at hres
    cases hres
  rw [reserve_of_lt hw] at hres
  split at hres
  · cases hres
    exact ⟨‹_›, rfl⟩
  · cases hc : t.loadFactor.tableCapacity (t.assigned + n) with
    | error e =>
      rw [hc] at hres
      cases hres
    | ok c =>
      rw [hc] at hres
      have hleast := ((LoadFactor.tableCapacity_eq_ok_iff hf).mp hc).1
      simp only [Except.bind] at hres
      split at hres
      · -- rehashed into the least size, whose threshold exceeds the count
        obtain ⟨-, rfl⟩ := rehash_ok hres
        exact ⟨hleast.lt_threshold, rfl⟩
      · -- already at least that large, and the threshold grows with the size
        cases hres
        rw [h.resizeAt_eq]
        exact ⟨Nat.lt_of_lt_of_le hleast.lt_threshold
          (LoadFactor.threshold_mono (Nat.le_of_not_lt ‹_›)), rfl⟩

/-- Making room is the operation that reserves, answering nothing. -/
theorem run_reserve (hres : t.reserve n = .ok t') : (Op.reserve n : Op V).run t = .ok (none, t') := by
  simp only [Op.run, hres]
  rfl

/-! ### Every reachable table -/

/-- **What making room for `n` keys promises.** It refuses exactly when the count wanted passes
the largest machine word or the sizing rule refuses it; when it succeeds, the map is the same,
the table is no smaller, and any run of stores and rewrites that adds at most `n` new keys keeps
the size it left. -/
structure ReservesRoom (t : Table V) (n : Nat) : Prop where
  error_iff : ∀ err : CollectionError, t.reserve n = .error err ↔
    (Capacity.wordLimit ≤ t.assigned + n ∧ err = .capacityOverflow (Capacity.wordLimit - 1)) ∨
    (t.assigned + n < Capacity.wordLimit ∧ t.loadFactor.tableCapacity (t.assigned + n) = .error err)
  toMap_eq : ∀ {t' : Table V}, t.reserve n = .ok t' → t'.toMap = t.toMap
  capacity_le : ∀ {t' : Table V}, t.reserve n = .ok t' → t.capacity ≤ t'.capacity
  keeps_size : ∀ {t' : Table V}, t.reserve n = .ok t' → ∀ ops : List (Op V),
    (∀ op ∈ ops, op.removesNone) → (t.newSlotKeys ops).card ≤ n →
      ∃ t'', Op.runAll ops t' = .ok t'' ∧ t''.capacity = t'.capacity

theorem LaidBy.reservesRoom (h : t.LaidBy σ) (hf : t.loadFactor.Fraction) (n : Nat) :
    t.ReservesRoom n where
  error_iff := h.reserve_error_iff hf
  toMap_eq {t'} hres := (h.reserve_refines (run_reserve hres)).2
  capacity_le {t'} hres := Op.capacity_le_of_run (run_reserve hres)
  keeps_size {t'} hres ops hops hcard := by
    have hrun := run_reserve hres
    have h' := h.step hrun
    obtain ⟨hroom, hassigned⟩ := h.reserve_room hf hres
    -- the new keys are counted the same against either table: their maps are equal
    have hmap : t'.toMap = t.toMap := (h.reserve_refines hrun).2
    have hnew : t'.newSlotKeys ops = t.newSlotKeys ops := by
      unfold newSlotKeys
      congr 2
      funext k
      rw [h'.contains_eq, h.contains_eq, hmap]
    refine h'.runAll_of_newSlotKeys hops ?_
    rw [hnew, hassigned]
    omega

/-- **Making room refuses exactly when it must, refuses before changing anything, and leaves
room it keeps.** For every reachable table and every `n`: making room for `n` more keys refuses
exactly when `assigned + n` passes the largest machine word (naming the largest word) or the
sizing rule refuses `assigned + n` (with that error); when it succeeds, the map is the same, the
size has not decreased, and any later run of stores and rewrites adding at most `n` new keys
keeps the size and never fails. A map session that tries to make room keeps its table and
reports that error exactly then, and one that must make room aborts with that same error. -/
theorem Reachable.reserve_refuses_or_makesRoom :
    (∀ {V : Type} {t : Table V}, t.Reachable → ∀ n, t.ReservesRoom n) ∧
    ∀ (s : Session.MapState) (n : Nat) (err : CollectionError),
      (Session.MapCommand.exec s (.tryReserve n) = .refused err s ↔ s.table.reserve n = .error err) ∧
      (Session.MapCommand.exec s (.reserve n) = .aborted (.failed err) ↔
        s.table.reserve n = .error err) := by
  refine ⟨fun {V t} ht n => ?_, fun s n err => ⟨?_, ?_⟩⟩
  · obtain ⟨σ, hσ⟩ := ht.exists_placed
    obtain ⟨b, hb⟩ := ht.loadFactor_clamp
    exact hσ.laidBy.reservesRoom (hb ▸ LoadFactor.fraction_clamp b) n
  · simp only [Session.MapCommand.exec]
    cases s.table.reserve n with
    | ok t' => simp
    | error e => simp [eq_comm]
  · simp only [Session.MapCommand.exec]
    cases s.table.reserve n with
    | ok t' => simp
    | error e => simp [eq_comm]

/-- Making room for a hundred keys in a table built for none grows it to 256 slots, and the table
keeps what making room promises. -/
theorem empty_reservesRoom_hundred :
    (empty id (LoadFactor.clamp 0x3F000000) 4 : Table Nat).Reachable ∧
      (empty id (LoadFactor.clamp 0x3F000000) 4 : Table Nat).reserve 100 =
        .ok (empty id (LoadFactor.clamp 0x3F000000) 256) ∧
      (empty id (LoadFactor.clamp 0x3F000000) 4 : Table Nat).ReservesRoom 100 :=
  have hbuild : withConfig id 0 (LoadFactor.clamp 0x3F000000) =
      .ok (empty id (LoadFactor.clamp 0x3F000000) 4 : Table Nat) := rfl
  have h : (empty id (LoadFactor.clamp 0x3F000000) 4 : Table Nat).Reachable := .fresh hbuild
  ⟨h, rfl, Reachable.reserve_refuses_or_makesRoom.1 h 100⟩

end CompactCollections.Table
