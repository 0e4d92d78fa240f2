import CompactCollections.Proofs.Table.Probe
import Mathlib.Data.List.Nodup
import Mathlib.Data.List.Induction
/-!
# Slots laid out by an insertion order

Linear probing puts each new key into the first empty slot from its home slot, so the slots of
a table are fixed by the order in which its keys arrived. This file names that relation and
proves it equal to the placement itself.

* `CompactCollections.Table.Laid` – the slots hold exactly the entries of an order `σ`, at most
  one slot per key, and every slot on the way from an entry's home slot to its own holds an
  entry that comes earlier in `σ`. The relation has a `hole`: a slot that may be passed
  although it is empty, which is what a slot being closed by a backward shift is.
* `CompactCollections.Table.placeAll` – the slots of an empty table of the same size after
  placing the entries of `σ` in order, as a rehash does.
* `CompactCollections.Table.laid_placeAll` and `CompactCollections.Table.Laid.placeAll_eq` –
  placing `σ` lays the slots out by `σ`, and slots laid out by `σ` are the placement of `σ`.
* `CompactCollections.Table.Laid.seek_found`, `CompactCollections.Table.Laid.exists_vacant` –
  in laid-out slots the probe for a key stops at the key, or at the first empty slot on its
  way when the key is absent.

The second equation is proved by taking off the last entry of `σ`: no walk of an earlier entry
passes it, so the slots without it are laid out by the rest of the order, and its own walk
ends where it sits.
-/

namespace CompactCollections.Table

open scoped List

variable {V : Type}

/-! ### Slots as a finite map -/

section Frame

variable {S : Slots V} {p i : Nat} {e : UInt64 × V}

theorem getElem?_insert_slots : (S.insert p e)[i]? = if p = i then some e else S[i]? := by
  rw [Std.ExtTreeMap.getElem?_insert]
  simp

theorem getElem?_erase_slots : (S.erase p)[i]? = if p = i then none else S[i]? := by
  rw [Std.ExtTreeMap.getElem?_erase]
  simp

end Frame

/-! ### Orders -/

/-- An entry that comes before another in an order with distinct keys has another key. -/
theorem fst_ne_of_sublist {σ : List (UInt64 × V)} {f e : UInt64 × V}
    (hnodup : (σ.map Prod.fst).Nodup) (h : [f, e] <+ σ) : f.1 ≠ e.1 := by
  have hpair : [f.1, e.1].Nodup := (h.map Prod.fst).nodup hnodup
  simpa using hpair

/-- What comes before an entry other than the last one comes before it among the others. -/
theorem sublist_pair_of_append {α : Type} {a b c : α} {l : List α} (h : [a, b] <+ l ++ [c])
    (hb : b ≠ c) : [a, b] <+ l := by
  have h' : [b, a] <+ c :: l.reverse := by simpa using h.reverse
  rcases List.sublist_cons_iff.mp h' with h'' | ⟨r, hr, -⟩
  · simpa using h''.reverse
  · exact absurd (List.cons.inj hr).1 hb

/-- **Slots laid out by an insertion order.** The slots `S` of a table of `n` slots hold
exactly the entries of `σ`, in slots below `n` and at most one slot per key; and every slot on
the way from an entry's home slot to its own, save the `hole`, holds an entry that comes
before it in `σ`. -/
structure Laid (hash : UInt64 → UInt64) (n : Nat) (σ : List (UInt64 × V)) (S : Slots V)
    (hole : Option Nat) : Prop where
  mem_iff : ∀ e, e ∈ σ ↔ ∃ i : Nat, S[i]? = some e
  nodup : (σ.map Prod.fst).Nodup
  lt : ∀ {i : Nat} {e : UInt64 × V}, S[i]? = some e → i < n
  keys_inj : ∀ {i j : Nat} {e f : UInt64 × V}, S[i]? = some e → S[j]? = some f → e.1 = f.1 →
    i = j
  chain : ∀ {i : Nat} {e : UInt64 × V}, S[i]? = some e → ∀ j < span n (home hash n e.1) i,
    some ((home hash n e.1 + j) % n) = hole ∨
      ∃ f, S[(home hash n e.1 + j) % n]? = some f ∧ [f, e] <+ σ

/-- The slots of an empty table of the size and hash of `t` after placing the entries of `σ`
one after another, each in the first empty slot from its home slot. -/
def placeAll (t : Table V) (σ : List (UInt64 × V)) : Slots V :=
  (σ.foldl place { t with slots := ∅ }).slots

namespace Laid

variable {hash : UInt64 → UInt64} {n : Nat} {σ : List (UInt64 × V)} {S : Slots V}
  {hole : Option Nat}

theorem pos (h : Laid hash n σ S hole) {i : Nat} {e : UInt64 × V} (he : S[i]? = some e) :
    0 < n := by
  have := h.lt he
  omega

/-- The walk condition at a slot: a slot on the way from an entry's home slot to its own is the
hole or holds an entry that came earlier. -/
theorem chain_at (h : Laid hash n σ S hole) {q r : Nat} {e : UInt64 × V} (hq : S[q]? = some e)
    (hr : r < n) (hrq : span n (home hash n e.1) r < span n (home hash n e.1) q) :
    some r = hole ∨ ∃ f, S[r]? = some f ∧ [f, e] <+ σ := by
  have hchain := h.chain hq _ hrq
  rwa [add_span (home_lt (h.pos hq) e.1) hr] at hchain

/-- Every entry of laid-out slots belongs to the order. -/
theorem mem (h : Laid hash n σ S hole) {i : Nat} {e : UInt64 × V} (he : S[i]? = some e) :
    e ∈ σ :=
  (h.mem_iff e).mpr ⟨i, he⟩

/-- The entries of laid-out slots, in slot order, are a rearrangement of the order. -/
theorem perm (h : Laid hash n σ S hole) : (S.toList.map Prod.snd).Perm σ := by
  have hkeys : (S.toList.map Prod.fst).Nodup := by
    rw [Std.ExtTreeMap.map_fst_toList_eq_keys]
    exact Std.ExtTreeMap.nodup_keys
  have hslots : (S.toList.map Prod.snd).Nodup := by
    refine List.Nodup.map_on ?_ (hkeys.of_map Prod.fst)
    rintro ⟨i, e⟩ hi ⟨j, f⟩ hj (hef : e = f)
    rw [Std.ExtTreeMap.mem_toList_iff_getElem?_eq_some] at hi hj
    subst hef
    rw [h.keys_inj hi hj rfl]
  refine (List.perm_ext_iff_of_nodup hslots (h.nodup.of_map Prod.fst)).mpr fun e => ?_
  rw [h.mem_iff e]
  simp [Std.ExtTreeMap.mem_toList_iff_getElem?_eq_some]

/-- Laid-out slots hold as many entries as the order. -/
theorem size_eq (h : Laid hash n σ S hole) : S.size = σ.length := by
  rw [← Std.ExtTreeMap.length_toList, ← h.perm.length_eq, List.length_map]

/-! ### The probe in laid-out slots -/

/-- **The probe finds a present key.** In laid-out slots without a hole, the walk from a key's
home slot passes only entries that came before it, which have other keys, and stops at the key. -/
theorem seek_found (h : Laid hash n σ S none) (hpow : n.isPowerOfTwo) {q : Nat} {k : UInt64}
    {v : V} (hq : S[q]? = some (k, v)) : seek S n k (home hash n k) n = .found q := by
  have hn := h.pos hq
  have hhome : home hash n k < n := home_lt hn k
  have hpass : ∀ j < span n (home hash n k) q,
      ∃ e, S[(home hash n k + j) % n]? = some e ∧ e.1 ≠ k := by
    intro j hj
    rcases h.chain hq j hj with hhole | ⟨f, hf, hbefore⟩
    · cases hhole
    · exact ⟨f, hf, fst_ne_of_sublist h.nodup hbefore⟩
  have hspan : span n (home hash n k) q < n := span_lt hn
  have hskip : seek S n k (home hash n k % n) n =
      seek S n k ((home hash n k + span n (home hash n k) q) % n) (n - span n (home hash n k) q) :=
    seek_skip hpow hpass (Nat.le_of_lt hspan)
  rw [Nat.mod_eq_of_lt hhome, add_span hhome (h.lt hq)] at hskip
  rw [hskip, show n - span n (home hash n k) q = n - span n (home hash n k) q - 1 + 1 by omega]
  exact seek_of_found hq

/-- **The probe for an absent key stops at the first empty slot on its way**, which is where the
search for an empty slot stops too. While the order is shorter than the table, there is one. -/
theorem exists_vacant (h : Laid hash n σ S none) (hpow : n.isPowerOfTwo) {k : UInt64}
    (hk : ∀ e ∈ σ, e.1 ≠ k) (hroom : σ.length < n) :
    ∃ p < n, S[p]? = none ∧ seek S n k (home hash n k) n = .vacant p ∧
      vacancy S n (home hash n k) n = some p ∧
      ∀ j < span n (home hash n k) p, S[(home hash n k + j) % n]? ≠ none := by
  have hn : 0 < n := by omega
  have hhome : home hash n k < n := home_lt hn k
  obtain ⟨p₀, hp₀, hempty⟩ := exists_vacant_of_size_lt (h.size_eq ▸ hroom)
  obtain ⟨m, hm, hfirst, hbefore⟩ := exists_first_vacant (i := home hash n k)
    ⟨span n (home hash n k) p₀, span_lt hn, by rw [add_span hhome hp₀]; exact hempty⟩
  have hpass : ∀ j < m, ∃ e, S[(home hash n k + j) % n]? = some e ∧ e.1 ≠ k := by
    intro j hj
    obtain ⟨e, he⟩ := Option.ne_none_iff_exists'.mp (hbefore j hj)
    exact ⟨e, he, hk e (h.mem he)⟩
  have hseek : seek S n k (home hash n k % n) n =
      seek S n k ((home hash n k + m) % n) (n - m) := seek_skip hpow hpass (Nat.le_of_lt hm)
  have hvac : vacancy S n (home hash n k % n) n =
      vacancy S n ((home hash n k + m) % n) (n - m) :=
    vacancy_skip hpow hbefore (Nat.le_of_lt hm)
  rw [Nat.mod_eq_of_lt hhome] at hseek hvac
  have hfuel : n - m = n - m - 1 + 1 := by omega
  refine ⟨(home hash n k + m) % n, Nat.mod_lt _ hn, hfirst, ?_, ?_, ?_⟩
  · rw [hseek, hfuel]
    exact seek_of_vacant hfirst
  · rw [hvac, hfuel]
    exact vacancy_of_vacant hfirst
  · rw [span_add hhome hm]
    exact hbefore

/-! ### Adding, changing and taking off entries -/

/-- **Placing one more entry.** An entry with a new key, put into the first empty slot from its
home slot, extends the order by itself. -/
theorem snoc (h : Laid hash n σ S none) {e : UInt64 × V} (he : e.1 ∉ σ.map Prod.fst) {p : Nat}
    (hp : p < n) (hempty : S[p]? = none)
    (hwalk : ∀ j < span n (home hash n e.1) p, S[(home hash n e.1 + j) % n]? ≠ none) :
    Laid hash n (σ ++ [e]) (S.insert p e) none where
  mem_iff e' := by
    simp only [List.mem_append, List.mem_singleton, getElem?_insert_slots]
    constructor
    · rintro (he' | rfl)
      · obtain ⟨i, hi⟩ := (h.mem_iff e').mp he'
        have hpi : p ≠ i := by
          rintro rfl
          rw [hempty] at hi
          cases hi
        exact ⟨i, by rw [if_neg hpi]; exact hi⟩
      · exact ⟨p, by simp⟩
    · rintro ⟨i, hi⟩
      split at hi
      · exact Or.inr (Option.some.inj hi).symm
      · exact Or.inl (h.mem hi)
  nodup := by
    rw [List.map_append, List.nodup_append]
    refine ⟨h.nodup, List.nodup_singleton _, fun a ha b hb hab => he ?_⟩
    rw [List.map_singleton, List.mem_singleton] at hb
    rw [← hb, ← hab]
    exact ha
  lt {i f} hi := by
    rw [getElem?_insert_slots] at hi
    split at hi
    · omega
    · exact h.lt hi
  keys_inj {i j f g} hi hj hfg := by
    rw [getElem?_insert_slots] at hi hj
    have hnew : ∀ {i : Nat} {f : UInt64 × V}, S[i]? = some f → f.1 ≠ e.1 := fun hi hfe =>
      he (hfe ▸ List.mem_map_of_mem (h.mem hi))
    split at hi <;> split at hj
    · omega
    · cases hi
      exact absurd hfg.symm (hnew hj)
    · cases hj
      exact absurd hfg (hnew hi)
    · exact h.keys_inj hi hj hfg
  chain {i f} hi j hj := by
    rw [getElem?_insert_slots] at hi
    split at hi
    · -- the new entry: its walk passes occupied slots, all of earlier entries
      rename_i hpi
      subst hpi
      cases hi
      obtain ⟨g, hg⟩ := Option.ne_none_iff_exists'.mp (hwalk j hj)
      have hne : p ≠ (home hash n e.1 + j) % n := fun hpe => by
        rw [← hpe, hempty] at hg
        cases hg
      refine Or.inr ⟨g, by rw [getElem?_insert_slots, if_neg hne]; exact hg, ?_⟩
      exact (List.singleton_sublist.mpr (h.mem hg)).append (List.Sublist.refl [e])
    · rcases h.chain hi j hj with hhole | ⟨g, hg, hbefore⟩
      · cases hhole
      · have hne : p ≠ (home hash n f.1 + j) % n := fun hpe => by
          rw [← hpe, hempty] at hg
          cases hg
        refine Or.inr ⟨g, by rw [getElem?_insert_slots, if_neg hne]; exact hg, ?_⟩
        exact hbefore.trans (List.sublist_append_left σ [e])

/-- **Changing values.** A change of the entries that keeps every key keeps the layout, with
the order changed alike. -/
theorem map (h : Laid hash n σ S hole) (g : UInt64 × V → UInt64 × V) (hg : ∀ e, (g e).1 = e.1)
    {S' : Slots V} (hS' : ∀ i : Nat, S'[i]? = (S[i]?).map g) :
    Laid hash n (σ.map g) S' hole where
  mem_iff e := by
    simp only [List.mem_map, hS', Option.map_eq_some_iff]
    constructor
    · rintro ⟨f, hf, rfl⟩
      obtain ⟨i, hi⟩ := (h.mem_iff f).mp hf
      exact ⟨i, f, hi, rfl⟩
    · rintro ⟨i, f, hi, rfl⟩
      exact ⟨f, h.mem hi, rfl⟩
  nodup := by
    rw [List.map_map, show Prod.fst ∘ g = Prod.fst from funext hg]
    exact h.nodup
  lt {i e} hi := by
    rw [hS', Option.map_eq_some_iff] at hi
    obtain ⟨f, hf, -⟩ := hi
    exact h.lt hf
  keys_inj {i j e f} hi hj hef := by
    rw [hS', Option.map_eq_some_iff] at hi hj
    obtain ⟨e', he', rfl⟩ := hi
    obtain ⟨f', hf', rfl⟩ := hj
    exact h.keys_inj he' hf' (by rwa [hg, hg] at hef)
  chain {i e} hi j hj := by
    rw [hS', Option.map_eq_some_iff] at hi
    obtain ⟨e', he', rfl⟩ := hi
    rw [hg] at hj ⊢
    rcases h.chain he' j hj with hhole | ⟨f, hf, hbefore⟩
    · exact Or.inl hhole
    · exact Or.inr ⟨g f, by rw [hS', hf]; rfl, hbefore.map g⟩

/-- **Taking off the last entry.** No walk of an earlier entry passes the last one, so the
slots without it are laid out by the rest of the order. -/
theorem dropLast (h : Laid hash n (σ ++ [e]) S none) {p : Nat} (hp : S[p]? = some e) :
    Laid hash n σ (S.erase p) none := by
  have hnodup : (σ.map Prod.fst).Nodup ∧ e.1 ∉ σ.map Prod.fst := by
    have := h.nodup
    rw [List.map_append, List.nodup_append] at this
    exact ⟨this.1, fun he => this.2.2 _ he _ (List.mem_singleton_self _) rfl⟩
  have hnot : ∀ {f}, f ∈ σ → f ≠ e := fun hf hfe => hnodup.2 (hfe ▸ List.mem_map_of_mem hf)
  have hne : ∀ {i f}, S[i]? = some f → f ≠ e → p ≠ i := fun hi hfe hpi => by
    rw [← hpi, hp] at hi
    exact hfe (Option.some.inj hi).symm
  refine ⟨fun f => ?_, hnodup.1, fun hi => ?_, fun hi hj hfg => ?_, fun {i f} hi j hj => ?_⟩
  · constructor
    · intro hf
      obtain ⟨i, hi⟩ := (h.mem_iff f).mp (List.mem_append_left _ hf)
      exact ⟨i, by rw [getElem?_erase_slots, if_neg (hne hi (hnot hf))]; exact hi⟩
    · rintro ⟨i, hi⟩
      rw [getElem?_erase_slots] at hi
      split at hi
      · cases hi
      · rcases List.mem_append.mp (h.mem hi) with hf | hf
        · exact hf
        · rw [List.mem_singleton] at hf
          subst hf
          exact absurd (h.keys_inj hp hi rfl) ‹_›
  · rw [getElem?_erase_slots] at hi
    split at hi
    · cases hi
    · exact h.lt hi
  · rw [getElem?_erase_slots] at hi hj
    split at hi
    · cases hi
    · split at hj
      · cases hj
      · exact h.keys_inj hi hj hfg
  · rw [getElem?_erase_slots] at hi
    split at hi
    · cases hi
    · have hfe : f ≠ e := fun hfe => by
        subst hfe
        exact ‹¬p = i› (h.keys_inj hp hi rfl)
      rcases h.chain hi j hj with hhole | ⟨g, hg, hbefore⟩
      · cases hhole
      · have hbefore' := sublist_pair_of_append hbefore hfe
        have hg' := List.mem_of_mem_head? (l := [g, f]) rfl
        refine Or.inr ⟨g, ?_, hbefore'⟩
        rw [getElem?_erase_slots, if_neg (hne hg (hnot (hbefore'.subset hg')))]
        exact hg

end Laid

/-! ### Placement -/

theorem place_slots (T : Table V) (e : UInt64 × V) :
    (place T e).slots =
      match vacancy T.slots T.capacity (T.ideal e.1) T.capacity with
      | some i => T.slots.insert i e
      | none => T.slots := by
  unfold place
  split <;> simp_all

@[simp] theorem foldl_place_hash (σ : List (UInt64 × V)) (T : Table V) :
    (σ.foldl place T).hash = T.hash := by
  induction σ generalizing T with
  | nil => rfl
  | cons e σ ih =>
    rw [List.foldl_cons, ih]
    unfold place
    split <;> rfl

@[simp] theorem foldl_place_capacity (σ : List (UInt64 × V)) (T : Table V) :
    (σ.foldl place T).capacity = T.capacity := by
  induction σ generalizing T with
  | nil => rfl
  | cons e σ ih =>
    rw [List.foldl_cons, ih]
    unfold place
    split <;> rfl

/-- Where placing puts entries depends on the hash, the size and the slots alone. -/
theorem foldl_place_slots_congr (σ : List (UInt64 × V)) {T T' : Table V} (hh : T.hash = T'.hash)
    (hc : T.capacity = T'.capacity) (hs : T.slots = T'.slots) :
    (σ.foldl place T).slots = (σ.foldl place T').slots := by
  induction σ generalizing T T' with
  | nil => exact hs
  | cons e σ ih =>
    rw [List.foldl_cons, List.foldl_cons]
    refine ih ?_ ?_ ?_
    · unfold place; split <;> split <;> exact hh
    · unfold place; split <;> split <;> exact hc
    · rw [place_slots, place_slots, ideal, ideal, hh, hc, hs]

/-- Placement depends on the hash and the size of a table alone. -/
theorem placeAll_congr {t t' : Table V} (hh : t.hash = t'.hash) (hc : t.capacity = t'.capacity)
    (σ : List (UInt64 × V)) : t.placeAll σ = t'.placeAll σ :=
  foldl_place_slots_congr σ hh hc rfl

/-- Placing one more entry into the placement of an order. -/
theorem placeAll_append_singleton (t : Table V) (σ : List (UInt64 × V)) (e : UInt64 × V) :
    t.placeAll (σ ++ [e]) =
      match vacancy (t.placeAll σ) t.capacity (t.ideal e.1) t.capacity with
      | some i => (t.placeAll σ).insert i e
      | none => t.placeAll σ := by
  simp only [placeAll, List.foldl_append, List.foldl_cons, List.foldl_nil, place_slots, ideal,
    foldl_place_hash, foldl_place_capacity]

theorem laid_nil (hash : UInt64 → UInt64) (n : Nat) :
    Laid hash n ([] : List (UInt64 × V)) ∅ none where
  mem_iff e := by simp
  nodup := List.nodup_nil
  lt hi := by simp at hi
  keys_inj hi := by simp at hi
  chain hi := by simp at hi

/-- **Placing an order lays the slots out by it**, while the table has room for all of it. -/
theorem laid_placeAll (t : Table V) (hpow : t.capacity.isPowerOfTwo) {σ : List (UInt64 × V)}
    (hnodup : (σ.map Prod.fst).Nodup) (hroom : σ.length < t.capacity) :
    Laid t.hash t.capacity σ (t.placeAll σ) none := by
  induction σ using List.reverseRecOn with
  | nil => exact laid_nil t.hash t.capacity
  | append_singleton σ e ih =>
    rw [List.map_append, List.nodup_append] at hnodup
    have hnew : e.1 ∉ σ.map Prod.fst := fun he => hnodup.2.2 _ he _ (List.mem_singleton_self _) rfl
    rw [List.length_append, List.length_singleton] at hroom
    have h := ih hnodup.1 (by omega)
    obtain ⟨p, hp, hempty, -, hvac, hwalk⟩ :=
      h.exists_vacant hpow (k := e.1) (fun f hf hfe => hnew (hfe ▸ List.mem_map_of_mem hf))
        (by omega)
    rw [placeAll_append_singleton, ideal_eq_home hpow, hvac]
    exact h.snoc hnew hp hempty hwalk

/-- **Laid-out slots are the placement of their order.** -/
theorem Laid.placeAll_eq {t : Table V} (hpow : t.capacity.isPowerOfTwo) {σ : List (UInt64 × V)}
    {S : Slots V} (h : Laid t.hash t.capacity σ S none) : t.placeAll σ = S := by
  induction σ using List.reverseRecOn generalizing S with
  | nil =>
    refine Std.ExtTreeMap.ext_getElem? fun i => ?_
    cases hi : S[i]? with
    | none => rfl
    | some e => exact absurd (h.mem hi) (List.not_mem_nil)
  | append_singleton σ e ih =>
    obtain ⟨p, hp⟩ := (h.mem_iff e).mp (List.mem_append_right _ (List.mem_singleton_self e))
    have hS₀ := ih (h.dropLast hp)
    have hn : 0 < t.capacity := h.pos hp
    have hhome : home t.hash t.capacity e.1 < t.capacity := home_lt hn _
    have hspan : span t.capacity (home t.hash t.capacity e.1) p < t.capacity := span_lt hn
    -- the walk of the last entry passes only earlier entries, none of them in its slot
    have hwalk : ∀ j < span t.capacity (home t.hash t.capacity e.1) p,
        (S.erase p)[(home t.hash t.capacity e.1 + j) % t.capacity]? ≠ none := by
      intro j hj
      rcases h.chain hp j hj with hhole | ⟨f, hf, hbefore⟩
      · cases hhole
      · have hfe : f.1 ≠ e.1 := fst_ne_of_sublist h.nodup hbefore
        have hne : p ≠ (home t.hash t.capacity e.1 + j) % t.capacity := fun hpe => by
          rw [← hpe, hp] at hf
          exact hfe (by rw [Option.some.inj hf])
        rw [getElem?_erase_slots, if_neg hne, hf]
        exact Option.some_ne_none f
    have hvac : vacancy (S.erase p) t.capacity (home t.hash t.capacity e.1 % t.capacity)
        t.capacity = _ := vacancy_skip hpow hwalk (Nat.le_of_lt hspan)
    rw [Nat.mod_eq_of_lt hhome, add_span hhome (h.lt hp),
      show t.capacity - span t.capacity (home t.hash t.capacity e.1) p =
        t.capacity - span t.capacity (home t.hash t.capacity e.1) p - 1 + 1 by omega,
      vacancy_of_vacant (by rw [getElem?_erase_slots, if_pos rfl])] at hvac
    rw [placeAll_append_singleton, ideal_eq_home hpow, hS₀, hvac]
    refine Std.ExtTreeMap.ext_getElem? fun i => ?_
    rw [getElem?_insert_slots, getElem?_erase_slots]
    split
    · subst_vars
      exact hp.symm
    · rfl

end CompactCollections.Table
