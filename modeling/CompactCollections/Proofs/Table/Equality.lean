import CompactCollections.Proofs.Table.FiniteMap
import CompactCollections.Table.Digest
/-!
# Equality and the structural hash of tables

Equality of tables (`CompactCollections.Table.sameContents`) compares the lengths and the null
values, then walks the keyed entries of one table and looks each up in the other, with the other
table's own hash function. The structural hash (`CompactCollections.Table.digest`) is a wrapping
sum of one word per entry, finalized with the length. On every pair of reachable tables, with any
hash functions, sizes, load factors and histories:

* equality holds exactly when the two tables stand for the same finite map, so it is symmetric
  and transitive across hash functions;
* the hash is a function of the map alone (`CompactCollections.Table.mapDigest`), so equal tables
  hash equally.

Both rest on one fact: up to order, the entries of a laid-out table are the pairs of its map
(`CompactCollections.Table.LaidBy.toList_perm_mapEntries`). A walk of one side that finds each
pair in the other, with as many pairs on both sides, is then equality of the maps, and a sum
taken in slot order is the sum in the map's order, since wrapping addition commutes.
-/

namespace CompactCollections.Table

variable {V : Type}

/-! ### The hash of a finite map -/

/-- The word an entry of a map adds to the structural hash: the hash of its key, or the null seed
for the null key, mixed with the hash of its value. -/
def entryDigest (valueHash : V → UInt32) (x : Option UInt64) (v : V) : UInt32 :=
  Hashing.mix (match x with
    | some k => Hashing.hashWord k
    | none => nullSeed) (valueHash v)

/-- **The structural hash of a finite map**: the wrapping sum of its entries' words, finalized
with its size. -/
def mapDigest (M : Std.ExtTreeMap (Option UInt64) V) (valueHash : V → UInt32) : UInt32 :=
  Hashing.finalize (M.foldl (fun s x v => s + entryDigest valueHash x v) 0) M.size

/-- A sum of words met in any order. -/
theorem foldl_add_perm {α : Type} {f : α → UInt32} {l₁ l₂ : List α} (hperm : l₁.Perm l₂) :
    l₁.foldl (fun s e => s + f e) 0 = l₂.foldl (fun s e => s + f e) 0 :=
  hperm.foldl_eq' (fun x _ y _ z => by
    rw [UInt32.add_assoc, UInt32.add_comm (f x), ← UInt32.add_assoc]) 0

/-! ### The entries of a laid-out table are the pairs of its map -/

namespace LaidBy

variable {t : Table V} {σ : List (UInt64 × V)}

/-- **Up to order, the pairs of a laid-out table's map are its entries**: both lists are free of
repeats and hold the same pairs. -/
theorem toList_perm_mapEntries (h : t.LaidBy σ) : t.toMap.toList.Perm t.mapEntries := by
  have hkeys : (t.toMap.toList.map Prod.fst).Nodup := by
    rw [Std.ExtTreeMap.map_fst_toList_eq_keys]
    exact Std.ExtTreeMap.nodup_keys
  refine (List.perm_ext_iff_of_nodup (hkeys.of_map _) (h.nodup_mapEntries.of_map _)).mpr
    fun e => ?_
  obtain ⟨x, v⟩ := e
  rw [Std.ExtTreeMap.mem_toList_iff_getElem?_eq_some, h.getElem?_toMap_eq_some_iff]

theorem length_mapEntries (h : t.LaidBy σ) : t.mapEntries.length = t.len := by
  rw [← h.toList_perm_mapEntries.length_eq, Std.ExtTreeMap.length_toList, h.len_eq]

/-- **The structural hash of a laid-out table is the hash of its map**: the sum over its entries
in slot order, the zero key and the null key last, is the sum over the map. -/
theorem digest_eq (h : t.LaidBy σ) (valueHash : V → UInt32) :
    t.digest valueHash = mapDigest t.toMap valueHash := by
  have hsum : t.toMap.foldl (fun s x v => s + entryDigest valueHash x v) 0 =
      t.mapEntries.foldl (fun s e => s + entryDigest valueHash e.1 e.2) 0 := by
    rw [Std.ExtTreeMap.foldl_eq_foldl_toList]
    exact foldl_add_perm h.toList_perm_mapEntries
  rw [mapDigest, hsum, ← h.len_eq, digest, mapEntries, List.foldl_append, List.foldl_map]
  -- the keyed entries first, each under `some` its key, then the null key's word
  cases t.null <;> rfl

/-- **Equality of laid-out tables is equality of their maps**, whatever their hash functions: a
walk of one side that finds every pair in the other, on maps of equal size, meets them all. -/
theorem sameContents_iff [BEq V] [LawfulBEq V] {a b : Table V} {τ : List (UInt64 × V)}
    (ha : a.LaidBy σ) (hb : b.LaidBy τ) : a.sameContents b = true ↔ a.toMap = b.toMap := by
  simp only [sameContents, Bool.and_eq_true, beq_iff_eq, List.all_eq_true]
  constructor
  · rintro ⟨⟨hlen, hnull⟩, hall⟩
    -- every pair of `a`'s map is a pair of `b`'s
    have hsub : a.mapEntries ⊆ b.mapEntries := by
      rintro ⟨_ | k, v⟩ hx
      · rw [mem_mapEntries_none] at hx ⊢
        rw [← hnull, hx]
      · have hent : (k, v) ∈ a.entries := by simpa [mapEntries] using hx
        have hget : b.get? k = some v := by simpa using hall (k, v) hent
        rw [← hb.getElem?_toMap_eq_some_iff, ← hb.get?_eq k, hget]
    have hperm : a.mapEntries.Perm b.mapEntries :=
      ((ha.nodup_mapEntries.of_map _).subperm hsub).perm_of_length_le (by
        rw [ha.length_mapEntries, hb.length_mapEntries, hlen])
    exact Std.ExtTreeMap.ext_toList
      (ha.toList_perm_mapEntries.trans (hperm.trans hb.toList_perm_mapEntries.symm))
  · intro hmap
    refine ⟨⟨by rw [ha.len_eq, hb.len_eq, hmap], ?_⟩, fun e hent => ?_⟩
    · rw [← ha.getElem?_toMap_none, ← hb.getElem?_toMap_none, hmap]
    · -- a keyed entry of `a` is a pair of its map, hence of `b`'s
      obtain ⟨k, v⟩ := e
      have hx : (some k, v) ∈ a.mapEntries := by simp [mapEntries, hent]
      rw [← ha.getElem?_toMap_eq_some_iff, hmap] at hx
      simp [hb.get?_eq k, hx]

end LaidBy

/-! ### Every pair of reachable tables -/

theorem Reachable.exists_laidBy {t : Table V} (h : t.Reachable) : ∃ σ, t.LaidBy σ := by
  obtain ⟨σ, hσ⟩ := h.exists_placed
  exact ⟨σ, hσ.laidBy⟩

/-- **What equality and the structural hash promise of two tables** `a` and `b`, whatever their
hash functions: equality holds exactly when they stand for the same finite map, it is symmetric
and transitive through any reachable table, the hash of `a` under any hash of values is the hash
of its map, and equal tables hash equally. -/
structure ComparesByContents [BEq V] (a b : Table V) : Prop where
  sameContents_iff : a.sameContents b = true ↔ a.toMap = b.toMap
  sameContents_comm : a.sameContents b = b.sameContents a
  sameContents_trans : ∀ {c : Table V}, c.Reachable → a.sameContents b = true →
    b.sameContents c = true → a.sameContents c = true
  digest_eq : ∀ valueHash : V → UInt32, a.digest valueHash = mapDigest a.toMap valueHash
  digest_eq_of_sameContents : ∀ valueHash : V → UInt32, a.sameContents b = true →
    a.digest valueHash = b.digest valueHash

/-- **Equality and the structural hash of reachable tables depend on their maps alone**: for any
hash functions, sizes, load factors and histories, two reachable tables are equal exactly when
they stand for the same finite map, so equality is symmetric and transitive across hash
functions, and the structural hash is the hash of the map, the same for equal tables. A set is a
table of unit values, whose hash is that of the unit value. -/
theorem Reachable.comparesByContents [BEq V] [LawfulBEq V] {a b : Table V} (ha : a.Reachable)
    (hb : b.Reachable) : ComparesByContents a b := by
  obtain ⟨σ, hσ⟩ := ha.exists_laidBy
  obtain ⟨τ, hτ⟩ := hb.exists_laidBy
  have hab := hσ.sameContents_iff hτ
  refine ⟨hab, ?_, fun hc hab' hbc => ?_, hσ.digest_eq, fun valueHash hab' => ?_⟩
  · rw [Bool.eq_iff_iff, hab, hτ.sameContents_iff hσ, eq_comm]
  · obtain ⟨ρ, hρ⟩ := hc.exists_laidBy
    rw [hσ.sameContents_iff hρ, hab.mp hab', (hτ.sameContents_iff hρ).mp hbc]
  · rw [hσ.digest_eq, hτ.digest_eq, hab.mp hab']

/-- The keys of `CompactCollections.Table.collidingRun` stored in another order into a table that
hashes each key to itself, with room made for twenty more on the way, a key stored and taken
again, and a key taken that was never stored. -/
def scatteredRun : List (Op Nat) :=
  [.insert (some 0) 5, .insert (some 4) 40, .reserve 20, .insert (some 3) 31, .insert none 7,
    .insert (some 9) 90, .insert (some 1) 10, .take (some 9), .take (some 6)]

/-- A table of eight slots whose keys all collide and one of sixty-four slots that hashes each
key to itself, built by different histories, compare by their contents: they are equal, stand
for the same map and hash equally under every hash of values. -/
theorem comparesByContents_across_hashes :
    ∃ a b, Op.runAll collidingRun collidingStart = .ok a ∧
      Op.runAll scatteredRun (empty id (LoadFactor.clamp 0x3F000000) 4) = .ok b ∧
      a.Reachable ∧ b.Reachable ∧ ComparesByContents a b ∧ a.capacity = 8 ∧ b.capacity = 64 ∧
      a.sameContents b = true ∧ a.toMap = b.toMap ∧
      ∀ valueHash : Nat → UInt32, a.digest valueHash = b.digest valueHash := by
  have hbuild : withConfig id 0 (LoadFactor.clamp 0x3F000000) =
      .ok (empty id (LoadFactor.clamp 0x3F000000) 4 : Table Nat) := rfl
  obtain ⟨a, b, ha, hb, hcap, hsame⟩ : ∃ a b, Op.runAll collidingRun collidingStart = .ok a ∧
      Op.runAll scatteredRun (empty id (LoadFactor.clamp 0x3F000000) 4) = .ok b ∧
      (a.capacity = 8 ∧ b.capacity = 64) ∧ a.sameContents b = true :=
    ⟨_, _, rfl, rfl, by decide +kernel, by decide +kernel⟩
  have hreach_a := collidingStart_reachable.runAll collidingRun ha
  have hreach_b := (Reachable.fresh hbuild).runAll scatteredRun hb
  have hc := Reachable.comparesByContents hreach_a hreach_b
  exact ⟨a, b, ha, hb, hreach_a, hreach_b, hc, hcap.1, hcap.2, hsame, hc.sameContents_iff.mp hsame,
    fun valueHash => hc.digest_eq_of_sameContents valueHash hsame⟩

end CompactCollections.Table
