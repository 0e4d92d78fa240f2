import CompactCollections.Table.Basic
import CompactCollections.Proofs.Capacity
import Mathlib.Data.Nat.Find
import Mathlib.Data.List.Perm.Subperm
import Mathlib.Tactic.SplitIfs
/-!
# Walks round a table

The slots of a table of `n` slots sit on a circle: a walk that leaves slot `n - 1` goes on at
slot `0`. This file measures distances on that circle and says what the two walks of a table
find, the probe for a key (`CompactCollections.Table.seek`) and the search for an empty slot
(`CompactCollections.Table.vacancy`).

* `CompactCollections.Table.span` – the number of forward steps from one slot to another. The
  *displacement* by which `CompactCollections.Table.shiftBack` decides to move a key, the
  wrapping difference of two slots masked, is the span from the key's home slot
  (`CompactCollections.Table.home`) to its own (`CompactCollections.Table.wrap_sub_eq_span`).
* `CompactCollections.Table.seek_skip`, `CompactCollections.Table.vacancy_skip` – a walk passes
  the slots it has no reason to stop at, one unit of fuel each.
* `CompactCollections.Table.exists_first_vacant` – a walk that meets an empty slot within one
  round meets a first one; `CompactCollections.Table.exists_vacant_of_size_lt` – a table with
  fewer entries than slots has an empty slot.

The table masks every slot index by one less than its size, a power of two; the mask is the
remainder (`CompactCollections.Capacity.wrap_eq_mod`), and from there on slots are reduced modulo
the size. Spans are compared through their one-wrap formulas (`span_eq`, `add_mod_eq`), after
which every fact about them is linear arithmetic.
-/

namespace CompactCollections.Table

/-- The number of forward steps from slot `a` to slot `b` on a circle of `n` slots. -/
def span (n a b : Nat) : Nat :=
  (b + n - a) % n

/-- The slot where the walk for key `k` starts, in a table of `n` slots hashed by `hash`. -/
def home (hash : UInt64 → UInt64) (n : Nat) (k : UInt64) : Nat :=
  (hash k).toNat % n

/-- The masked hash is the home slot, in a table whose size is a power of two. -/
theorem ideal_eq_home {V : Type} {t : Table V} (h : t.capacity.isPowerOfTwo) (k : UInt64) :
    t.ideal k = home t.hash t.capacity k :=
  Capacity.wrap_eq_mod h _

theorem home_lt {hash : UInt64 → UInt64} {n : Nat} (hn : 0 < n) (k : UInt64) :
    home hash n k < n :=
  Nat.mod_lt _ hn

/-! ### Spans -/

section Span

variable {n a b c j : Nat}

/-- The one-wrap formula of a span. -/
theorem span_eq (ha : a < n) (hb : b < n) :
    span n a b = if a ≤ b then b - a else b + n - a := by
  unfold span
  split
  · rw [show b + n - a = b - a + n by omega, Nat.add_mod_right, Nat.mod_eq_of_lt (by omega)]
  · exact Nat.mod_eq_of_lt (by omega)

/-- The one-wrap formula of a step along the circle. -/
theorem add_mod_eq (ha : a < n) (hj : j < n) :
    (a + j) % n = if a + j < n then a + j else a + j - n := by
  split
  · exact Nat.mod_eq_of_lt ‹_›
  · rw [Nat.mod_eq_sub_mod (by omega), Nat.mod_eq_of_lt (by omega)]

theorem span_lt (hn : 0 < n) : span n a b < n :=
  Nat.mod_lt _ hn

@[simp] theorem span_self : span n a a = 0 := by
  simp [span]

/-- Walking the span from `a` arrives at `b`. -/
theorem add_span (ha : a < n) (hb : b < n) : (a + span n a b) % n = b := by
  have hs : span n a b < n := span_lt (by omega)
  rw [add_mod_eq ha hs, span_eq ha hb]
  split_ifs <;> omega

/-- The span to the slot `j` steps ahead is `j`. -/
theorem span_add (ha : a < n) (hj : j < n) : span n a ((a + j) % n) = j := by
  have hlt : (a + j) % n < n := Nat.mod_lt _ (by omega)
  rw [span_eq ha hlt, add_mod_eq ha hj]
  split_ifs <;> omega

/-- Two slots at the same span from `a` are the same slot. -/
theorem eq_of_span_eq (ha : a < n) (hb : b < n) (hc : c < n) (h : span n a b = span n a c) :
    b = c := by
  rw [span_eq ha hb, span_eq ha hc] at h
  split_ifs at h <;> omega

/-- Spans add along the circle while the first leg is no longer than the whole. -/
theorem span_add_span (ha : a < n) (hb : b < n) (hc : c < n) (h : span n a b ≤ span n a c) :
    span n a b + span n b c = span n a c := by
  simp only [span_eq ha hb, span_eq hb hc, span_eq ha hc] at h ⊢
  split_ifs at h ⊢ <;> omega

/-- Seen from `a`, the slot `j` steps past `b` lies `j` steps further, as long as it does not
come round to `a` again. -/
theorem span_add_of_lt (ha : a < n) (hb : b < n) (h : span n a b + j < n) :
    span n a ((b + j) % n) = span n a b + j := by
  have hj : j < n := by omega
  have hlt : (b + j) % n < n := Nat.mod_lt _ (by omega)
  rw [span_eq ha hlt, add_mod_eq hb hj]
  rw [span_eq ha hb] at h ⊢
  split_ifs at h ⊢ <;> omega

/-- **Whether a walk from `a` to `c` passes `b`.** For `b ≠ c`, the span from `b` to `c` is at
most the span from `a` to `c` exactly when `b` lies on the way from `a` to `c`. This is the
displacement test of backward shifting. -/
theorem span_le_span_iff (ha : a < n) (hb : b < n) (hc : c < n) (hbc : b ≠ c) :
    span n b c ≤ span n a c ↔ span n a b < span n a c := by
  rw [span_eq ha hb, span_eq hb hc, span_eq ha hc]
  split_ifs <;> omega

/-- **The displacement is the span**: in a table whose size is a power of two at most `2 ^ 64`,
the wrapping difference of two slots, masked, is the number of forward steps from the first to
the second. -/
theorem wrap_sub_eq_span (hn : n.isPowerOfTwo) (hle : n ≤ Capacity.wordLimit) (ha : a < n)
    (hb : b < n) : Capacity.wrap (b.toUInt64 - a.toUInt64).toNat n = span n a b := by
  have hword : Capacity.wordLimit = 2 ^ 64 := Nat.one_shiftLeft 64
  -- a power of two at most `2 ^ 64` divides it
  have hdvd : n ∣ 2 ^ 64 := by
    obtain ⟨k, rfl⟩ := hn
    exact Nat.pow_dvd_pow 2 ((Nat.pow_le_pow_iff_right (by decide)).mp (hword ▸ hle))
  obtain ⟨m, hm⟩ := hdvd
  have hm1 : 1 ≤ m := Nat.pos_of_ne_zero fun h0 => by simp [h0] at hm
  have hsplit : n * m = n + n * (m - 1) := by
    conv_lhs => rw [show m = m - 1 + 1 by omega, Nat.mul_succ]
    omega
  have hslot : ∀ x < n, x.toUInt64.toNat = x := fun x hx => by
    rw [Nat.toUInt64_eq, UInt64.toNat_ofNat', Nat.mod_eq_of_lt (by omega)]
  rw [Capacity.wrap_eq_mod hn, UInt64.toNat_sub, hslot a ha, hslot b hb,
    Nat.mod_mod_of_dvd _ ⟨m, hm⟩, span]
  -- the wrap past `2 ^ 64` adds whole rounds of the table
  calc (2 ^ 64 - a + b) % n = (b + n - a + n * (m - 1)) % n := by rw [hm, hsplit]; congr 1; omega
    _ = (b + n - a) % n := Nat.add_mul_mod_self_left _ _ _

end Span

/-! ### What a walk finds -/

section Walk

variable {V : Type} {S : Slots V} {n i m fuel : Nat} {k : UInt64}

theorem seek_of_found {v : V} (h : S[i]? = some (k, v)) :
    seek S n k i (fuel + 1) = .found i := by
  simp [seek, h]

theorem seek_of_vacant (h : S[i]? = none) : seek S n k i (fuel + 1) = .vacant i := by
  simp [seek, h]

/-- A probe walks past slots that hold other keys, one unit of fuel each. -/
theorem seek_skip (hn : n.isPowerOfTwo) (hpass : ∀ j < m, ∃ e, S[(i + j) % n]? = some e ∧ e.1 ≠ k)
    (hm : m ≤ fuel) : seek S n k (i % n) fuel = seek S n k ((i + m) % n) (fuel - m) := by
  induction m generalizing i fuel with
  | zero => rfl
  | succ m ih =>
    obtain ⟨fuel, rfl⟩ : ∃ f, fuel = f + 1 := ⟨fuel - 1, by omega⟩
    obtain ⟨⟨key, v⟩, he, hne⟩ := hpass 0 (by omega)
    have hstep : seek S n k (i % n) (fuel + 1) = seek S n k ((i + 1) % n) fuel := by
      simp only [Nat.add_zero] at he
      simp only [seek, he]
      rw [if_neg hne, Capacity.wrap_eq_mod hn, Nat.mod_add_mod]
    have hpass' : ∀ j < m, ∃ e, S[(i + 1 + j) % n]? = some e ∧ e.1 ≠ k := fun j hj => by
      simpa [Nat.add_assoc, Nat.add_comm 1 j] using hpass (j + 1) (by omega)
    rw [hstep, ih hpass' (by omega), show i + 1 + m = i + (m + 1) by omega,
      show fuel - m = fuel + 1 - (m + 1) by omega]

theorem vacancy_of_vacant (h : S[i]? = none) : vacancy S n i (fuel + 1) = some i := by
  simp [vacancy, h]

/-- The search for an empty slot walks past occupied slots, one unit of fuel each. -/
theorem vacancy_skip (hn : n.isPowerOfTwo) (hpass : ∀ j < m, S[(i + j) % n]? ≠ none)
    (hm : m ≤ fuel) :
    vacancy S n (i % n) fuel = vacancy S n ((i + m) % n) (fuel - m) := by
  induction m generalizing i fuel with
  | zero => rfl
  | succ m ih =>
    obtain ⟨fuel, rfl⟩ : ∃ f, fuel = f + 1 := ⟨fuel - 1, by omega⟩
    obtain ⟨e, he⟩ := Option.ne_none_iff_exists'.mp (hpass 0 (by omega))
    have hstep : vacancy S n (i % n) (fuel + 1) = vacancy S n ((i + 1) % n) fuel := by
      simp only [Nat.add_zero] at he
      simp only [vacancy, he]
      rw [Capacity.wrap_eq_mod hn, Nat.mod_add_mod]
    have hpass' : ∀ j < m, S[(i + 1 + j) % n]? ≠ none := fun j hj => by
      simpa [Nat.add_assoc, Nat.add_comm 1 j] using hpass (j + 1) (by omega)
    rw [hstep, ih hpass' (by omega), show i + 1 + m = i + (m + 1) by omega,
      show fuel - m = fuel + 1 - (m + 1) by omega]

/-- A walk that meets an empty slot within one round meets a first one. -/
theorem exists_first_vacant (h : ∃ m < n, S[(i + m) % n]? = none) :
    ∃ m < n, S[(i + m) % n]? = none ∧ ∀ j < m, S[(i + j) % n]? ≠ none := by
  classical
  obtain ⟨hlt, hnone⟩ := Nat.find_spec h
  refine ⟨Nat.find h, hlt, hnone, fun j hj hj' => ?_⟩
  exact Nat.find_min h hj ⟨by omega, hj'⟩

/-- Slots holding fewer than `n` entries leave one of the first `n` slots empty. -/
theorem exists_vacant_of_size_lt (hsize : S.size < n) :
    ∃ p < n, S[p]? = none := by
  refine Classical.byContradiction fun hfull => ?_
  have hsub : List.range n ⊆ S.keys := by
    intro p hp
    have hp : p < n := List.mem_range.mp hp
    have hocc : S[p]? ≠ none := fun h => hfull ⟨p, hp, h⟩
    rw [Std.ExtTreeMap.mem_keys, Std.ExtTreeMap.mem_iff_isSome_getElem?]
    exact Option.isSome_iff_ne_none.mpr hocc
  have hlen := (List.Nodup.subperm List.nodup_range hsub).length_le
  rw [List.length_range, Std.ExtTreeMap.length_keys] at hlen
  omega

end Walk

end CompactCollections.Table
