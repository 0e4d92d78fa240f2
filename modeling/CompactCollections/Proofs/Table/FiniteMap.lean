import CompactCollections.Proofs.Table.Invariant
/-!
# A table is a finite map

A table stands for a finite map from keys that may be the null key to values
(`CompactCollections.Table.toMap`): every in-slot entry under its key, the zero key's entry
under the zero key, and the null key's value under `none`. Where an entry sits, how long its
cluster is, whether the table grew or shifted entries back – none of it shows in the map.

Every reachable table behaves as that map (`CompactCollections.Table.RefinesMap`): a lookup
reads the map, the length is its size, an operation that succeeds answers and changes as the
same operation on the map (`CompactCollections.Table.Op.onMap`), and the only failure is a
growth beyond `CompactCollections.maxCapacity`.

The map of a laid-out table is read off its order (`CompactCollections.Table.valueIn`), so each
operation is settled by what it does to the order, which the step lemmas of the bookkeeping
already say.
-/

namespace CompactCollections.Table

variable {V : Type}

/-! ### The map a table stands for -/

/-- The value of key `k` among entries: the value of the first entry with key `k`. -/
def valueIn (σ : List (UInt64 × V)) (k : UInt64) : Option V :=
  (σ.find? fun e => e.1 == k).map Prod.snd

/-- The pairs of the map a table stands for: each in-slot entry and the zero key's entry under
their key, the null key's value under `none`. -/
def mapEntries (t : Table V) : List (Option UInt64 × V) :=
  t.entries.map (fun e => (some e.1, e.2)) ++ (t.null.map fun v => (none, v)).toList

/-- **The finite map a table stands for.** -/
def toMap (t : Table V) : Std.ExtTreeMap (Option UInt64) V :=
  .ofList t.mapEntries

/-- What an operation answers and leaves on a finite map: storing and removing answer the value
they replace or remove, modifying answers the value it rewrites, clearing empties the map, and
making room changes nothing. -/
def Op.onMap : Op V → Std.ExtTreeMap (Option UInt64) V →
    Option V × Std.ExtTreeMap (Option UInt64) V
  | .insert k v, m => (m[k]?, m.insert k v)
  | .take k, m => (m[k]?, m.erase k)
  | .modify k f, m => (m[k]?, m.modify k f)
  | .clear, _ => (none, ∅)
  | .reserve _, m => (none, m)

/-! ### Values among entries with distinct keys -/

section ValueIn

variable {σ τ : List (UInt64 × V)} {k k' : UInt64} {v : V}

@[simp] theorem valueIn_nil : valueIn ([] : List (UInt64 × V)) k = none := rfl

theorem valueIn_eq_none_iff : valueIn σ k = none ↔ k ∉ σ.map Prod.fst := by
  rw [valueIn, Option.map_eq_none_iff, List.find?_eq_none]
  constructor
  · intro h hk
    obtain ⟨e, he, hek⟩ := List.mem_map.mp hk
    exact h e he (beq_iff_eq.mpr hek)
  · intro h e he hek
    exact h (beq_iff_eq.mp hek ▸ List.mem_map_of_mem he)

/-- Among entries with distinct keys, the value of a key is the value of its entry. -/
theorem valueIn_eq_some_iff (hσ : (σ.map Prod.fst).Nodup) : valueIn σ k = some v ↔ (k, v) ∈ σ := by
  constructor
  · intro h
    obtain ⟨e, he, rfl⟩ := Option.map_eq_some_iff.mp h
    have hek : e.1 = k := by simpa using List.find?_some he
    rw [← hek]
    exact List.mem_of_find?_eq_some he
  · intro hmem
    cases hf : σ.find? (fun e => e.1 == k) with
    | none =>
      exact absurd (List.find?_eq_none.mp hf _ hmem) (by simp)
    | some e =>
      have hek : e.1 = k := by simpa using List.find?_some hf
      have heq : e = (k, v) :=
        List.inj_on_of_nodup_map hσ (List.mem_of_find?_eq_some hf) hmem hek
      rw [valueIn, hf, heq]
      rfl

/-- Reordering entries with distinct keys changes no value. -/
theorem valueIn_perm (hperm : σ.Perm τ) (hσ : (σ.map Prod.fst).Nodup) :
    valueIn σ k = valueIn τ k := by
  have hτ : (τ.map Prod.fst).Nodup := (hperm.map Prod.fst).nodup_iff.mp hσ
  refine Option.ext fun v => ?_
  rw [valueIn_eq_some_iff hσ, valueIn_eq_some_iff hτ, hperm.mem_iff]

theorem valueIn_map_rewriteValue (φ : V → V) :
    valueIn (σ.map (rewriteValue k φ)) k' =
      if k = k' then (valueIn σ k).map φ else valueIn σ k' := by
  have hpred : ((fun e : UInt64 × V => e.1 == k') ∘ rewriteValue k φ) = fun e => e.1 == k' := by
    funext e
    simp
  unfold valueIn
  rw [List.find?_map, hpred, Option.map_map]
  split
  · rename_i hkk
    rw [← hkk]
    cases hf : σ.find? (fun e => e.1 == k) with
    | none => rfl
    | some e =>
      have hek : e.1 = k := by simpa using List.find?_some hf
      simp [rewriteValue, hek]
  · cases hf : σ.find? (fun e => e.1 == k') with
    | none => rfl
    | some e =>
      have hek : e.1 = k' := by simpa using List.find?_some hf
      have hne : e.1 ≠ k := fun h => ‹¬k = k'› (h ▸ hek)
      simp [rewriteValue, hne]

/-- A key joining at the end of entries without it takes its value there. -/
theorem valueIn_append_singleton (hk : k ∉ σ.map Prod.fst) :
    valueIn (σ ++ [(k, v)]) k' = if k = k' then some v else valueIn σ k' := by
  unfold valueIn
  rw [List.find?_append]
  split
  · rename_i hkk
    rw [← hkk]
    have hnone : σ.find? (fun e => e.1 == k) = none :=
      Option.map_eq_none_iff.mp (valueIn_eq_none_iff.mpr hk)
    simp [hnone]
  · have hne : ((k, v).1 == k') = false := by simpa using ‹¬k = k'›
    simp [List.find?, hne]

/-- Dropping a key takes its value away and keeps the others. -/
theorem valueIn_filter :
    valueIn (σ.filter fun e => e.1 != k) k' = if k = k' then none else valueIn σ k' := by
  unfold valueIn
  rw [List.find?_filter]
  split
  · rename_i hkk
    rw [← hkk]
    rw [(List.find?_eq_none.mpr fun e _ => by simp : List.find? _ σ = none)]
    rfl
  · congr 2
    funext e
    by_cases hek : e.1 = k'
    · simp [hek, Ne.symm ‹¬k = k'›]
    · simp [hek]

end ValueIn

/-! ### Reading the map of a laid-out table -/

/-- Distinct keys are pairwise unequal under the order of the map. -/
theorem pairwise_of_nodup {l : List (Option UInt64 × V)} (hl : (l.map Prod.fst).Nodup) :
    l.Pairwise fun a b => ¬compare a.1 b.1 = .eq :=
  (List.pairwise_map.mp hl).imp fun hne heq => hne (Std.LawfulEqCmp.eq_of_compare heq)

/-- A map built from pairs with distinct keys holds exactly those pairs. -/
theorem getElem?_ofList_eq_some_iff {l : List (Option UInt64 × V)} (hl : (l.map Prod.fst).Nodup)
    {x : Option UInt64} {v : V} : (Std.ExtTreeMap.ofList l)[x]? = some v ↔ (x, v) ∈ l := by
  constructor
  · intro hx
    by_cases hmem : x ∈ l.map Prod.fst
    · obtain ⟨⟨x, w⟩, hw, rfl⟩ := List.mem_map.mp hmem
      rw [Std.ExtTreeMap.getElem?_ofList_of_mem Std.ReflCmp.compare_self (pairwise_of_nodup hl)
        hw] at hx
      cases hx
      exact hw
    · rw [Std.ExtTreeMap.getElem?_ofList_of_contains_eq_false (by simpa using hmem)] at hx
      cases hx
  · intro hx
    exact Std.ExtTreeMap.getElem?_ofList_of_mem Std.ReflCmp.compare_self (pairwise_of_nodup hl) hx

theorem mem_mapEntries_none {t : Table V} {v : V} :
    ((none : Option UInt64), v) ∈ t.mapEntries ↔ t.null = some v := by
  simp [mapEntries]

theorem mem_mapEntries_some {t : Table V} {k : UInt64} {v : V} :
    (some k, v) ∈ t.mapEntries ↔ (k, v) ∈ t.slotEntries ∨ (k = 0 ∧ t.zero = some v) := by
  simp [mapEntries, entries]
  rw [@eq_comm _ 0 k, and_comm]

namespace LaidBy

variable {t t' : Table V} {σ : List (UInt64 × V)} {k : UInt64}

theorem mem_slotEntries (h : t.LaidBy σ) {e : UInt64 × V} : e ∈ t.slotEntries ↔ e ∈ σ :=
  h.laid.perm.mem_iff

/-- The keys of the map of a laid-out table are distinct: the in-slot keys are distinct and
non-zero, and the null key is none of them. -/
theorem nodup_mapEntries (h : t.LaidBy σ) : (t.mapEntries.map Prod.fst).Nodup := by
  have hslots : (t.slotEntries.map Prod.fst).Nodup :=
    (h.laid.perm.map Prod.fst).nodup_iff.mpr h.laid.nodup
  have hsome : (t.slotEntries.map fun e => some e.1).Nodup := by
    have := hslots.map (f := some) fun _ _ h => Option.some.inj h
    rwa [List.map_map] at this
  have hzero : ∀ x w, (x, w) ∈ t.slotEntries → x ≠ 0 := fun x w he =>
    h.key_ne_zero (x, w) (h.mem_slotEntries.mp he)
  cases hz : t.zero <;> cases hn : t.null <;>
    simp [mapEntries, entries, hz, hn, List.nodup_append, List.map_map, Function.comp_def, hsome]
  -- what is left: no in-slot key is the zero key or the null key
  all_goals
    rintro _ x w hx rfl
    simp [hzero x w hx]

theorem getElem?_toMap_eq_some_iff (h : t.LaidBy σ) {x : Option UInt64} {v : V} :
    t.toMap[x]? = some v ↔ (x, v) ∈ t.mapEntries :=
  getElem?_ofList_eq_some_iff h.nodup_mapEntries

theorem getElem?_toMap_none (h : t.LaidBy σ) : t.toMap[(none : Option UInt64)]? = t.null :=
  Option.ext fun v => by rw [h.getElem?_toMap_eq_some_iff, mem_mapEntries_none]

theorem getElem?_toMap_zero (h : t.LaidBy σ) : t.toMap[some (0 : UInt64)]? = t.zero :=
  Option.ext fun v => by
    have hslot : ((0 : UInt64), v) ∉ t.slotEntries := fun hm =>
      h.key_ne_zero _ (h.mem_slotEntries.mp hm) rfl
    rw [h.getElem?_toMap_eq_some_iff, mem_mapEntries_some]
    simp [hslot]

/-- A non-zero key of a laid-out table has the value its order gives it. -/
theorem getElem?_toMap_some (h : t.LaidBy σ) (hk : k ≠ 0) : t.toMap[some k]? = valueIn σ k :=
  Option.ext fun v => by
    rw [h.getElem?_toMap_eq_some_iff, mem_mapEntries_some, valueIn_eq_some_iff h.laid.nodup,
      h.mem_slotEntries]
    simp [hk]

/-- **The map of a laid-out table is settled by its three kinds of keys**: the null key, the
zero key, and the keys in slots, whose values the order gives. -/
theorem toMap_eq (h : t.LaidBy σ) {M : Std.ExtTreeMap (Option UInt64) V}
    (hnull : t.null = M[(none : Option UInt64)]?) (hzero : t.zero = M[some (0 : UInt64)]?)
    (hslot : ∀ k : UInt64, k ≠ 0 → valueIn σ k = M[some k]?) : t.toMap = M := by
  refine Std.ExtTreeMap.ext_getElem? fun x => ?_
  rcases x with _ | k
  · rw [h.getElem?_toMap_none, hnull]
  · by_cases hk : k = 0
    · subst hk
      rw [h.getElem?_toMap_zero, hzero]
    · rw [h.getElem?_toMap_some hk, hslot k hk]

end LaidBy

/-! ### Each operation acts on the map -/

namespace LaidBy

variable {t t' : Table V} {σ : List (UInt64 × V)}

/-- **Storing** answers the value the map held under the key and sets the key in the map. -/
theorem insert_refines (h : t.LaidBy σ) {k : Option UInt64} {v : V} {r : Option V}
    (hrun : (Op.insert k v).run t = .ok (r, t')) :
    r = t.toMap[k]? ∧ t'.toMap = t.toMap.insert k v := by
  have h' := h.insert_step hrun
  rcases k with _ | k
  · simp only [Op.run, insertNullable, insertNull, Except.ok.injEq, Prod.mk.injEq] at hrun
    obtain ⟨rfl, rfl⟩ := hrun
    refine ⟨h.getElem?_toMap_none.symm, h'.toMap_eq ?_ ?_ fun k' hk' => ?_⟩
    · simp
    · simp [Std.ExtTreeMap.getElem?_insert, h.getElem?_toMap_zero]
    · simp [Std.ExtTreeMap.getElem?_insert, Op.order, h.getElem?_toMap_some hk']
  by_cases hk0 : k = 0
  · subst hk0
    simp only [Op.run, insertNullable, insert_zero, Except.ok.injEq, Prod.mk.injEq] at hrun
    obtain ⟨rfl, rfl⟩ := hrun
    rw [Op.order, if_pos rfl] at h'
    refine ⟨h.getElem?_toMap_zero.symm, h'.toMap_eq ?_ ?_ fun k' hk' => ?_⟩
    · simp [Std.ExtTreeMap.getElem?_insert, h.getElem?_toMap_none]
    · simp
    · simp [Std.ExtTreeMap.getElem?_insert, h.getElem?_toMap_some hk', Ne.symm hk']
  rcases h.probe_cases k with ⟨q, w, hq, hprobe⟩ | ⟨hk, p, hp, hpe, hprobe, -, hwalk⟩
  · -- a present key: its value is rewritten in place
    simp only [Op.run, insertNullable, insert_found hk0 hprobe, Except.ok.injEq,
      Prod.mk.injEq] at hrun
    obtain ⟨rfl, rfl⟩ := hrun
    have hmem := h.laid.mem hq
    have hval : valueIn σ k = some w := (valueIn_eq_some_iff h.laid.nodup).mpr hmem
    rw [Op.order, if_neg hk0, if_pos (List.mem_map_of_mem hmem)] at h'
    refine ⟨?_, h'.toMap_eq ?_ ?_ fun k' hk' => ?_⟩
    · rw [h.getElem?_toMap_some hk0, hval, entryAt?, hq]
      rfl
    · simp [Std.ExtTreeMap.getElem?_insert, h.getElem?_toMap_none]
    · simp [Std.ExtTreeMap.getElem?_insert, h.getElem?_toMap_zero, hk0]
    · rw [valueIn_map_rewriteValue, hval]
      simp [Std.ExtTreeMap.getElem?_insert, h.getElem?_toMap_some hk']
  -- a new key: it joins the order at its end, and a growth only reorders the order
  simp only [Op.run, insertNullable, insert_vacant hk0 hprobe] at hrun
  have hlaid : Laid t.hash t.capacity (σ ++ [(k, v)]) (t.slots.insert p (k, v)) none :=
    h.laid.snoc hk hp hpe hwalk
  have hfinish : ∀ {t'' : Table V} {τ : List (UInt64 × V)}, t''.LaidBy τ →
      τ.Perm (σ ++ [(k, v)]) → t''.zero = t.zero → t''.null = t.null →
      t''.toMap = t.toMap.insert (some k) v := by
    intro t'' τ h'' hperm hzero hnull
    refine h''.toMap_eq ?_ ?_ fun k' hk' => ?_
    · simp [Std.ExtTreeMap.getElem?_insert, hnull, h.getElem?_toMap_none]
    · simp [Std.ExtTreeMap.getElem?_insert, hzero, h.getElem?_toMap_zero, hk0]
    · rw [valueIn_perm hperm h''.laid.nodup, valueIn_append_singleton hk]
      simp [Std.ExtTreeMap.getElem?_insert, h.getElem?_toMap_some hk']
  have hnone : t.toMap[some k]? = none := by
    rw [h.getElem?_toMap_some hk0]
    exact valueIn_eq_none_iff.mpr hk
  split at hrun
  · obtain ⟨grown, hgrow, hpair⟩ := ok_of_map_ok hrun
    simp only [Prod.mk.injEq] at hpair
    obtain ⟨rfl, rfl⟩ := hpair
    obtain ⟨-, rfl⟩ := rehash_ok hgrow
    have hfour := h.four_le
    rw [Op.order, if_neg hk0, if_neg hk, if_neg (show 2 * t.capacity ≠ t.capacity by omega),
      hlaid.placeAll_eq h.capacity_pow] at h'
    exact ⟨hnone.symm, hfinish h' hlaid.perm rfl rfl⟩
  · simp only [Except.ok.injEq, Prod.mk.injEq] at hrun
    obtain ⟨rfl, rfl⟩ := hrun
    rw [Op.order, if_neg hk0, if_neg hk, if_pos rfl] at h'
    exact ⟨hnone.symm, hfinish h' (List.Perm.refl _) rfl rfl⟩

/-- **Removing** answers the value the map held under the key and erases the key. -/
theorem take_refines (h : t.LaidBy σ) {k : Option UInt64} {r : Option V}
    (hrun : (Op.take k).run t = .ok (r, t')) :
    r = t.toMap[k]? ∧ t'.toMap = t.toMap.erase k := by
  have h' := h.take_step hrun
  rcases k with _ | k
  · simp only [Op.run, takeNullable, takeNull, Except.ok.injEq, Prod.mk.injEq] at hrun
    obtain ⟨rfl, rfl⟩ := hrun
    refine ⟨h.getElem?_toMap_none.symm, h'.toMap_eq ?_ ?_ fun k' hk' => ?_⟩
    · simp
    · simp [Std.ExtTreeMap.getElem?_erase, h.getElem?_toMap_zero]
    · simp [Std.ExtTreeMap.getElem?_erase, Op.order, h.getElem?_toMap_some hk']
  rw [Op.order] at h'
  have hslot : ∀ k' : UInt64, k' ≠ 0 →
      valueIn (σ.filter fun e => e.1 != k) k' = (t.toMap.erase (some k))[some k']? := by
    intro k' hk'
    rw [valueIn_filter]
    simp [Std.ExtTreeMap.getElem?_erase, h.getElem?_toMap_some hk']
  by_cases hk0 : k = 0
  · subst hk0
    simp only [Op.run, takeNullable, take_zero, Except.ok.injEq, Prod.mk.injEq] at hrun
    obtain ⟨rfl, rfl⟩ := hrun
    exact ⟨h.getElem?_toMap_zero.symm,
      h'.toMap_eq (by simp [Std.ExtTreeMap.getElem?_erase, h.getElem?_toMap_none]) (by simp) hslot⟩
  rcases h.probe_cases k with ⟨q, w, hq, hprobe⟩ | ⟨hk, _, -, -, hprobe, -⟩
  · simp only [Op.run, takeNullable, take_found hk0 hprobe, Except.ok.injEq,
      Prod.mk.injEq] at hrun
    obtain ⟨rfl, rfl⟩ := hrun
    refine ⟨?_, h'.toMap_eq (by simp [Std.ExtTreeMap.getElem?_erase, h.getElem?_toMap_none])
      (by simp [Std.ExtTreeMap.getElem?_erase, h.getElem?_toMap_zero, hk0]) hslot⟩
    rw [h.getElem?_toMap_some hk0, (valueIn_eq_some_iff h.laid.nodup).mpr (h.laid.mem hq),
      entryAt?, hq]
    rfl
  · simp only [Op.run, takeNullable, take_vacant hk0 hprobe, Except.ok.injEq,
      Prod.mk.injEq] at hrun
    obtain ⟨rfl, rfl⟩ := hrun
    refine ⟨?_, h'.toMap_eq (by simp [Std.ExtTreeMap.getElem?_erase, h.getElem?_toMap_none])
      (by simp [Std.ExtTreeMap.getElem?_erase, h.getElem?_toMap_zero, hk0]) hslot⟩
    rw [h.getElem?_toMap_some hk0]
    exact (valueIn_eq_none_iff.mpr hk).symm

/-- **Modifying** answers the value the map held under the key and rewrites it in the map. -/
theorem modify_refines (h : t.LaidBy σ) {k : Option UInt64} {f : V → V} {r : Option V}
    (hrun : (Op.modify k f).run t = .ok (r, t')) :
    r = t.toMap[k]? ∧ t'.toMap = t.toMap.modify k f := by
  have h' := h.modify_step hrun
  rcases k with _ | k
  · rw [h.getElem?_toMap_none]
    cases hn : t.null with
    | none =>
      simp only [Op.run, tokenNullable, nullToken, hn, value?, Option.isSome_none] at hrun
      cases hrun
      refine ⟨rfl, h.toMap_eq ?_ ?_ fun k' hk' => ?_⟩
      · simp [h.getElem?_toMap_none, hn]
      · simp [Std.ExtTreeMap.getElem?_modify, h.getElem?_toMap_zero]
      · simp [Std.ExtTreeMap.getElem?_modify, h.getElem?_toMap_some hk']
    | some w =>
      simp only [Op.run, tokenNullable, nullToken, hn, value?, Option.isSome_some, setValue,
        if_true, Except.ok.injEq, Prod.mk.injEq] at hrun
      obtain ⟨rfl, rfl⟩ := hrun
      refine ⟨rfl, h'.toMap_eq ?_ ?_ fun k' hk' => ?_⟩
      · simp [h.getElem?_toMap_none, hn]
      · simp [Std.ExtTreeMap.getElem?_modify, h.getElem?_toMap_zero]
      · simp [Std.ExtTreeMap.getElem?_modify, Op.order, h.getElem?_toMap_some hk']
  by_cases hk0 : k = 0
  · subst hk0
    rw [h.getElem?_toMap_zero]
    cases hz : t.zero with
    | none =>
      simp only [Op.run, tokenNullable, token, hz, value?, Option.isSome_none] at hrun
      cases hrun
      refine ⟨rfl, h.toMap_eq ?_ ?_ fun k' hk' => ?_⟩
      · simp [Std.ExtTreeMap.getElem?_modify, h.getElem?_toMap_none]
      · simp [h.getElem?_toMap_zero, hz]
      · simp [Std.ExtTreeMap.getElem?_modify, h.getElem?_toMap_some hk', Ne.symm hk']
    | some w =>
      simp only [Op.run, tokenNullable, token, hz, value?, Option.isSome_some, setValue,
        if_true, Except.ok.injEq, Prod.mk.injEq] at hrun
      obtain ⟨rfl, rfl⟩ := hrun
      rw [Op.order, if_pos rfl] at h'
      refine ⟨rfl, h'.toMap_eq ?_ ?_ fun k' hk' => ?_⟩
      · simp [Std.ExtTreeMap.getElem?_modify, h.getElem?_toMap_none]
      · simp [h.getElem?_toMap_zero, hz]
      · simp [Std.ExtTreeMap.getElem?_modify, h.getElem?_toMap_some hk', Ne.symm hk']
  rw [Op.order, if_neg hk0] at h'
  have hslot : ∀ k' : UInt64, k' ≠ 0 →
      valueIn (σ.map (rewriteValue k f)) k' = (t.toMap.modify (some k) f)[some k']? := by
    intro k' hk'
    rw [valueIn_map_rewriteValue]
    simp [Std.ExtTreeMap.getElem?_modify, h.getElem?_toMap_some hk', h.getElem?_toMap_some hk0]
  rcases h.probe_cases k with ⟨q, w, hq, hprobe⟩ | ⟨hk, _, -, -, hprobe, -⟩
  · simp only [Op.run, tokenNullable, token_found hk0 hprobe, value?, entryAt?, hq,
      Option.map_some, setValue_slot hq, Except.ok.injEq, Prod.mk.injEq] at hrun
    obtain ⟨rfl, rfl⟩ := hrun
    refine ⟨?_, h'.toMap_eq (by simp [Std.ExtTreeMap.getElem?_modify, h.getElem?_toMap_none])
      (by simp [Std.ExtTreeMap.getElem?_modify, h.getElem?_toMap_zero, hk0]) hslot⟩
    rw [h.getElem?_toMap_some hk0]
    exact ((valueIn_eq_some_iff h.laid.nodup).mpr (h.laid.mem hq)).symm
  · simp only [Op.run, tokenNullable, token_vacant hk0 hprobe, value?] at hrun
    cases hrun
    refine ⟨?_, h'.toMap_eq (by simp [Std.ExtTreeMap.getElem?_modify, h.getElem?_toMap_none])
      (by simp [Std.ExtTreeMap.getElem?_modify, h.getElem?_toMap_zero, hk0]) hslot⟩
    rw [h.getElem?_toMap_some hk0]
    exact (valueIn_eq_none_iff.mpr hk).symm

/-- **Clearing** empties the map. -/
theorem clear_refines (h : t.LaidBy σ) {r : Option V}
    (hrun : (Op.clear : Op V).run t = .ok (r, t')) : r = none ∧ t'.toMap = ∅ := by
  have h' := h.clear_step hrun
  simp only [Op.run, Except.ok.injEq, Prod.mk.injEq] at hrun
  obtain ⟨rfl, rfl⟩ := hrun
  exact ⟨rfl, h'.toMap_eq (by simp [clear]) (by simp [clear]) fun k' _ => by simp [Op.order]⟩

/-- **Making room** changes nothing in the map, also when the table grows. -/
theorem reserve_refines (h : t.LaidBy σ) {n : Nat} {r : Option V}
    (hrun : (Op.reserve n : Op V).run t = .ok (r, t')) : r = none ∧ t'.toMap = t.toMap := by
  have h' := h.reserve_step hrun
  obtain ⟨t'', hres, hpair⟩ := ok_of_map_ok hrun
  simp only [Prod.mk.injEq] at hpair
  obtain ⟨rfl, rfl⟩ := hpair
  refine ⟨rfl, ?_⟩
  rcases reserve_cases hres with rfl | ⟨c, -, -, hlt, hre⟩
  · rfl
  · obtain ⟨-, rfl⟩ := rehash_ok hre
    rw [Op.order, if_neg (show c ≠ t.capacity by omega), h.laid.placeAll_eq h.capacity_pow] at h'
    refine h'.toMap_eq h.getElem?_toMap_none.symm h.getElem?_toMap_zero.symm fun k' hk' => ?_
    rw [valueIn_perm h.laid.perm h'.laid.nodup, h.getElem?_toMap_some hk']

/-- **One operation on a laid-out table is the same operation on its map.** -/
theorem run_refines (h : t.LaidBy σ) {op : Op V} {r : Option V}
    (hrun : op.run t = .ok (r, t')) : (r, t'.toMap) = op.onMap t.toMap := by
  cases op with
  | insert k v =>
    obtain ⟨hr, hm⟩ := h.insert_refines hrun
    rw [hr, hm]
    rfl
  | take k =>
    obtain ⟨hr, hm⟩ := h.take_refines hrun
    rw [hr, hm]
    rfl
  | modify k f =>
    obtain ⟨hr, hm⟩ := h.modify_refines hrun
    rw [hr, hm]
    rfl
  | clear =>
    obtain ⟨hr, hm⟩ := h.clear_refines hrun
    rw [hr, hm]
    rfl
  | reserve n =>
    obtain ⟨hr, hm⟩ := h.reserve_refines hrun
    rw [hr, hm]
    rfl

end LaidBy

/-! ### Lookups and the length read the map -/

namespace LaidBy

variable {t : Table V} {σ : List (UInt64 × V)}

/-- A lookup reads the map: the zero key outside the slots, any other key at the slot its probe
finds. -/
theorem get?_eq (h : t.LaidBy σ) (k : UInt64) : t.get? k = t.toMap[some k]? := by
  by_cases hk0 : k = 0
  · subst hk0
    rw [h.getElem?_toMap_zero]
    cases hz : t.zero <;> simp [get?, token, value?, hz]
  rw [h.getElem?_toMap_some hk0]
  rcases h.probe_cases k with ⟨q, w, hq, hprobe⟩ | ⟨hk, _, -, -, hprobe, -⟩
  · rw [get?, token_found hk0 hprobe, value?, entryAt?, hq]
    exact ((valueIn_eq_some_iff h.laid.nodup).mpr (h.laid.mem hq)).symm
  · rw [get?, token_vacant hk0 hprobe, value?]
    exact (valueIn_eq_none_iff.mpr hk).symm

/-- A key is present exactly when the map holds it. -/
theorem contains_eq (h : t.LaidBy σ) (k : UInt64) :
    t.contains k = t.toMap.contains (some k) := by
  rw [Std.ExtTreeMap.contains_eq_isSome_getElem?]
  by_cases hk0 : k = 0
  · subst hk0
    rw [h.getElem?_toMap_zero]
    cases hz : t.zero <;> simp [contains, token, hz]
  rw [h.getElem?_toMap_some hk0]
  rcases h.probe_cases k with ⟨q, w, hq, hprobe⟩ | ⟨hk, _, -, -, hprobe, -⟩
  · rw [(valueIn_eq_some_iff h.laid.nodup).mpr (h.laid.mem hq)]
    simp [contains, token_found hk0 hprobe]
  · rw [valueIn_eq_none_iff.mpr hk]
    simp [contains, token_vacant hk0 hprobe]

/-- The length counts the keys of the map. -/
theorem len_eq (h : t.LaidBy σ) : t.len = t.toMap.size := by
  rw [toMap, Std.ExtTreeMap.size_ofList (pairwise_of_nodup h.nodup_mapEntries), len,
    h.wellFormed.assigned_eq]
  cases hz : t.zero <;> cases hn : t.null <;>
    simp [mapEntries, entries, slotEntries, hz, hn, Std.ExtTreeMap.length_toList]

end LaidBy

/-! ### Failures -/

theorem rehash_error {t : Table V} {c : Nat} {e : CollectionError} (h : t.rehash c = .error e) :
    e = .capacityOverflow c ∧ maxCapacity < c := by
  unfold rehash at h
  split at h
  · cases h
    exact ⟨rfl, ‹_›⟩
  · cases h

theorem nextPowerOfTwo_error {n : Nat} {e : CollectionError}
    (h : Capacity.nextPowerOfTwo n = .error e) : ∃ m, e = .capacityOverflow m := by
  unfold Capacity.nextPowerOfTwo at h
  simp only at h
  split at h
  · cases h
  · cases h
    exact ⟨_, rfl⟩

theorem tableCapacity_error {lf : LoadFactor} {n : Nat} {e : CollectionError}
    (h : lf.tableCapacity n = .error e) : ∃ m, e = .capacityOverflow m := by
  unfold LoadFactor.tableCapacity at h
  simp only [bind, Except.bind] at h
  split at h
  · cases h
    exact ⟨_, rfl⟩
  · split at h
    · cases h
      exact nextPowerOfTwo_error ‹_›
    · split at h
      · exact nextPowerOfTwo_error h
      · cases h

/-- Making room fails only by a capacity overflow. -/
theorem reserve_error {t : Table V} {n : Nat} {e : CollectionError}
    (h : t.reserve n = .error e) : ∃ m, e = .capacityOverflow m := by
  unfold reserve at h
  simp only [bind, Except.bind, pure, Except.pure] at h
  split at h
  · cases h
    exact ⟨_, rfl⟩
  · split at h
    · cases h
    · split at h
      · cases h
        exact tableCapacity_error ‹_›
      · split at h
        · exact ⟨_, (rehash_error h).1⟩
        · cases h

/-- Storing fails only when the table has to double beyond `maxCapacity`. -/
theorem insert_error {t : Table V} {k : UInt64} {v : V} {e : CollectionError}
    (h : t.insert k v = .error e) :
    e = .capacityOverflow (2 * t.capacity) ∧ maxCapacity < 2 * t.capacity := by
  unfold insert at h
  split at h
  · cases h
  · split at h
    · cases h
    · dsimp only at h
      split at h
      · exact rehash_error (error_of_map_error h)
      · cases h
    · cases h

/-- Every failure of an operation is a capacity overflow. -/
theorem Op.run_error {t : Table V} {op : Op V} {e : CollectionError} (h : op.run t = .error e) :
    ∃ n, e = .capacityOverflow n := by
  cases op with
  | insert k v =>
    rcases k with _ | k
    · cases h
    · exact ⟨_, (insert_error h).1⟩
  | take k => cases h
  | modify k f =>
    simp only [Op.run] at h
    split at h <;> cases h
  | clear => cases h
  | reserve n => exact reserve_error (error_of_map_error h)

/-! ### Every reachable table is a finite map -/

/-- **A table that behaves as the finite map it stands for.** Its lookups read the map, its
length is the size of the map, an operation that succeeds answers and changes as on the map,
every failure is a capacity overflow, and storing fails only when the table would grow beyond
`maxCapacity`. -/
structure RefinesMap (t : Table V) : Prop where
  get?_eq : ∀ k : UInt64, t.get? k = t.toMap[some k]?
  contains_eq : ∀ k : UInt64, t.contains k = t.toMap.contains (some k)
  null_eq : t.null = t.toMap[(none : Option UInt64)]?
  len_eq : t.len = t.toMap.size
  run_ok : ∀ {op : Op V} {r : Option V} {t' : Table V}, op.run t = .ok (r, t') →
    (r, t'.toMap) = op.onMap t.toMap
  run_error : ∀ {op : Op V} {e : CollectionError}, op.run t = .error e →
    ∃ n, e = .capacityOverflow n
  insert_error : ∀ {k : Option UInt64} {v : V} {e : CollectionError},
    (Op.insert k v).run t = .error e → maxCapacity < 2 * t.capacity

theorem LaidBy.refines {t : Table V} {σ : List (UInt64 × V)} (h : t.LaidBy σ) :
    t.RefinesMap where
  get?_eq := h.get?_eq
  contains_eq := h.contains_eq
  null_eq := h.getElem?_toMap_none.symm
  len_eq := h.len_eq
  run_ok := h.run_refines
  run_error := Op.run_error
  insert_error {k v e} hrun := by
    rcases k with _ | k
    · cases hrun
    · exact (insert_error hrun).2

/-- **Every reachable table behaves as the finite map it stands for**, whatever its hash
function, load factor and history: lookups, the length and every operation agree with the same
on the map, and the only failure is a capacity overflow, for storing only a doubling beyond
`maxCapacity`. -/
theorem Reachable.refinesMap {t : Table V} (h : t.Reachable) : t.RefinesMap := by
  obtain ⟨σ, hσ⟩ := h.exists_placed
  exact hσ.laidBy.refines

/-- Keys that all share the last slot, run through a doubling and a backward shift across the
end of the slots, leave a table that behaves as its map: the removed key is gone, the rewritten
value is read back, and the zero and null keys are held beside the slots. -/
theorem colliding_refinesMap :
    ∃ t, Op.runAll collidingRun collidingStart = .ok t ∧ t.Reachable ∧ t.RefinesMap ∧
      t.capacity = 8 ∧ t.get? 1 = some 10 ∧ t.get? 2 = none ∧ t.get? 3 = some 31 ∧
      t.get? 0 = some 5 ∧ t.null = some 7 ∧ t.len = 5 := by
  obtain ⟨t, hrun, hfacts⟩ : ∃ t, Op.runAll collidingRun collidingStart = .ok t ∧
      t.capacity = 8 ∧ t.get? 1 = some 10 ∧ t.get? 2 = none ∧ t.get? 3 = some 31 ∧
        t.get? 0 = some 5 ∧ t.null = some 7 ∧ t.len = 5 :=
    ⟨_, rfl, by decide +kernel⟩
  have h := collidingStart_reachable.runAll collidingRun hrun
  exact ⟨t, hrun, h, Reachable.refinesMap h, hfacts⟩

end CompactCollections.Table
