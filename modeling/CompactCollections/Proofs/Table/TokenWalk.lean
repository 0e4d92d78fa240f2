import CompactCollections.Proofs.Table.Invariant
import Mathlib.Logic.Function.Iterate
import Mathlib.Data.List.Sort
/-!
# The walk by tokens meets every entry once, in slot order

A walk starts at `CompactCollections.Table.firstToken` and steps with
`CompactCollections.Table.nextToken`. Its order is fixed by the tokens alone
(`CompactCollections.Token.precedes`): slots by index, then the zero key, then the null key, and
`none`, the end, after everything. The tokens that name an entry of a table, its *live* tokens
(`CompactCollections.Table.liveTokens`), are its occupied slots within its size in increasing
index, then the zero key's and the null key's tokens when those keys are present.

Every reachable table walks in that order (`CompactCollections.Table.WalksInOrder`): from the first
token the walk meets the live tokens one after another and then `none` for good, as many tokens
as the table's length; a step from *any* token – a stale slot, a slot past the size, the zero or
null key's token, `none` – goes to the first live token after it; each row of the walk is a slot's
key and value, the zero key with its value, or the null key's value without a key, and the keyed
rows are the entries that `CompactCollections.Table.entries` lists; and a write through a live
token changes that row's value and nothing else.

Everything rests on one fact of the layout: the slot map's keys are the occupied slots within the
size in increasing order (`CompactCollections.Table.keys_eq_occupiedSlots`), which holds as soon as
no occupied slot lies past the size.
-/

namespace CompactCollections

namespace Token

/-- **The walk order on tokens.** `a.precedes b` when `b` comes strictly after `a`: slots by
index, then the zero key's token, then the null key's, and `none` after all of them. -/
def precedes : Token → Token → Bool
  | .slot i, .slot j => decide (i < j)
  | .slot _, _ => true
  | .zero, .null | .zero, .none | .null, .none => true
  | _, _ => false

@[simp] theorem precedes_self (a : Token) : a.precedes a = false := by
  cases a <;> simp [precedes]

theorem precedes_asymm {a b : Token} (h : a.precedes b = true) : b.precedes a = false := by
  cases a <;> cases b <;> simp_all [precedes]
  omega

@[simp] theorem none_precedes (a : Token) : Token.none.precedes a = false := by
  cases a <;> rfl

end Token

namespace Table

variable {V : Type}

/-! ### The live tokens -/

/-- The occupied slots within the size, in increasing order. -/
def occupiedSlots (t : Table V) : List Nat :=
  (List.range t.capacity).filter fun i => (t.slots[i]?).isSome

/-- The tokens of the zero key and then of the null key, each when its key is present. -/
def tailTokens (t : Table V) : List Token :=
  (if t.zero.isSome then [.zero] else []) ++ (if t.null.isSome then [.null] else [])

/-- **The tokens of a table's entries, in walk order**: its occupied slots in increasing index,
then the zero key's and the null key's tokens when those keys are present. -/
def liveTokens (t : Table V) : List Token :=
  t.occupiedSlots.map .slot ++ t.tailTokens

/-- No occupied slot lies past the size. -/
def SlotsInRange (t : Table V) : Prop :=
  ∀ {i : Nat} {e : UInt64 × V}, t.slots[i]? = some e → i < t.capacity

theorem WellFormed.slotsInRange {t : Table V} (h : t.WellFormed) : t.SlotsInRange :=
  fun he => h.slot_lt he

section Live

variable {t : Table V}

theorem mem_occupiedSlots {i : Nat} :
    i ∈ t.occupiedSlots ↔ i < t.capacity ∧ (t.slots[i]?).isSome := by
  simp [occupiedSlots]

theorem none_not_mem_liveTokens : Token.none ∉ t.liveTokens := by
  simp only [liveTokens, tailTokens, List.mem_append, List.mem_map]
  split <;> split <;> simp

/-- **The slot map lists the occupied slots in increasing order.** Both lists are strictly
increasing with the same members, once no occupied slot lies past the size. -/
theorem keys_eq_occupiedSlots (h : t.SlotsInRange) : t.slots.keys = t.occupiedSlots := by
  have hkeys : t.slots.keys.Pairwise (· < ·) :=
    Std.ExtTreeMap.ordered_keys.imp fun hab => Nat.compare_eq_lt.mp hab
  have hocc : t.occupiedSlots.Pairwise (· < ·) := List.pairwise_lt_range.filter _
  have hmem : ∀ i, i ∈ t.slots.keys ↔ i ∈ t.occupiedSlots := by
    intro i
    rw [Std.ExtTreeMap.mem_keys, Std.ExtTreeMap.mem_iff_contains,
      Std.ExtTreeMap.contains_eq_isSome_getElem?, mem_occupiedSlots]
    constructor
    · intro hi
      obtain ⟨e, he⟩ := Option.isSome_iff_exists.mp hi
      exact ⟨h he, hi⟩
    · exact And.right
  exact List.Perm.eq_of_pairwise (fun a b _ _ hab hba => absurd (hab.trans hba) (Nat.lt_irrefl a))
    hkeys hocc ((List.perm_ext_iff_of_nodup hkeys.nodup hocc.nodup).mpr hmem)

theorem length_occupiedSlots (h : t.SlotsInRange) : t.occupiedSlots.length = t.slots.size := by
  rw [← keys_eq_occupiedSlots h, Std.ExtTreeMap.length_keys]

/-- The live tokens are in walk order. -/
theorem pairwise_liveTokens : t.liveTokens.Pairwise fun a b => a.precedes b := by
  have hocc : t.occupiedSlots.Pairwise (· < ·) := List.pairwise_lt_range.filter _
  rw [liveTokens, List.pairwise_append, List.pairwise_map]
  refine ⟨hocc.imp fun hab => decide_eq_true hab, ?_, ?_⟩
  · unfold tailTokens
    split <;> split <;> simp [Token.precedes]
  · intro a ha b hb
    obtain ⟨i, -, rfl⟩ := List.mem_map.mp ha
    have hb' : b = .zero ∨ b = .null := by
      unfold tailTokens at hb
      split at hb <;> split at hb <;> simp_all
    rcases hb' with rfl | rfl <;> rfl

theorem mem_liveTokens_iff (h : t.SlotsInRange) (tok : Token) :
    tok ∈ t.liveTokens ↔ (t.value? tok).isSome := by
  cases tok with
  | slot i =>
    simp only [liveTokens, tailTokens, List.mem_append, List.mem_map, Token.slot.injEq,
      exists_eq_right, value?, entryAt?, Option.isSome_map, mem_occupiedSlots]
    constructor
    · rintro (⟨-, hi⟩ | hi)
      · exact hi
      · split at hi <;> split at hi <;> simp_all
    · intro hi
      obtain ⟨e, he⟩ := Option.isSome_iff_exists.mp hi
      exact .inl ⟨h he, hi⟩
  | zero =>
    simp only [liveTokens, tailTokens, List.mem_append, List.mem_map, value?]
    cases t.zero <;> cases t.null <;> simp
  | null =>
    simp only [liveTokens, tailTokens, List.mem_append, List.mem_map, value?]
    cases t.zero <;> cases t.null <;> simp
  | none =>
    simp only [value?, Option.isSome_none, Bool.false_eq_true, iff_false]
    exact none_not_mem_liveTokens

theorem length_liveTokens (h : t.SlotsInRange) :
    t.liveTokens.length =
      t.slots.size + (if t.zero.isSome then 1 else 0) + (if t.null.isSome then 1 else 0) := by
  rw [liveTokens, List.length_append, List.length_map, length_occupiedSlots h, tailTokens]
  split <;> split <;> simp

end Live

/-! ### One step of the walk -/

section Step

variable {t : Table V}

theorem tailToken_eq : t.tailToken = t.tailTokens.headD .none := by
  unfold tailToken nullToken tailTokens
  split <;> split <;> rfl

/-- From a slot, every tail token lies ahead. -/
theorem find?_tailTokens_slot (i : Nat) :
    t.tailTokens.find? (Token.slot i).precedes = t.tailTokens.head? := by
  unfold tailTokens
  split <;> split <;> rfl

/-- **A step from any token goes to the first live token after it**, `none` when there is none. -/
theorem nextToken_eq (h : t.SlotsInRange) (tok : Token) :
    t.nextToken tok = (t.liveTokens.find? tok.precedes).getD .none := by
  cases tok with
  | slot i =>
    -- the first occupied slot past `i`, else the first tail token
    have hpred : (Token.slot i).precedes ∘ Token.slot = fun j => decide (i + 1 ≤ j) := rfl
    simp only [nextToken, scanFrom, keys_eq_occupiedSlots h, liveTokens, List.find?_append,
      List.find?_map, hpred, find?_tailTokens_slot, tailToken_eq]
    cases t.occupiedSlots.find? (fun j => decide (i + 1 ≤ j)) <;>
      cases t.tailTokens <;> rfl
  | zero =>
    simp only [nextToken, nullToken, liveTokens, tailTokens, List.find?_append, List.find?_map]
    have hslot : (t.occupiedSlots.find? (Token.zero.precedes ∘ Token.slot)) = none :=
      List.find?_eq_none.mpr fun _ _ => by simp [Token.precedes]
    rw [hslot]
    cases t.zero <;> cases t.null <;> rfl
  | null =>
    -- nothing but the end comes after the null key
    rw [List.find?_eq_none.mpr fun u hu => ?_]
    · rfl
    cases u with
    | none => exact absurd hu none_not_mem_liveTokens
    | _ => exact Bool.false_ne_true
  | none =>
    rw [List.find?_eq_none.mpr fun u _ => Token.none_precedes u ▸ Bool.false_ne_true]
    rfl

theorem firstToken_eq (h : t.SlotsInRange) : t.firstToken = t.liveTokens.getD 0 .none := by
  have hall : (fun j => decide (0 ≤ j)) = fun _ : Nat => true := by
    funext j
    simp
  simp only [firstToken, scanFrom, keys_eq_occupiedSlots h, hall, liveTokens, tailToken_eq]
  cases t.occupiedSlots <;> cases t.tailTokens <;> rfl

/-- In a list of tokens in walk order, the first token after the `j`-th is the next one. -/
theorem find?_precedes_getD {l : List Token} (hl : l.Pairwise fun a b => a.precedes b)
    (j : Nat) : (l.find? (l.getD j .none).precedes).getD .none = l.getD (j + 1) .none := by
  induction l generalizing j with
  | nil => simp
  | cons a l ih =>
    cases j with
    | zero =>
      -- every later token lies after the head
      have hafter : ∀ b ∈ l, a.precedes b = true := fun b hb => List.rel_of_pairwise_cons hl hb
      cases l with
      | nil => simp
      | cons b l => simp [hafter b List.mem_cons_self]
    | succ j =>
      -- the `j + 1`-th token is later than the head, or past the end
      have hhead : (l.getD j .none).precedes a = false := by
        rw [List.getD_eq_getElem?_getD]
        cases hb : l[j]? with
        | none => rfl
        | some b => exact Token.precedes_asymm (List.rel_of_pairwise_cons hl (List.mem_of_getElem? hb))
      simp only [List.getD_cons_succ, List.find?_cons, hhead]
      exact ih hl.of_cons j

/-- **The walk from the first token meets the live tokens in order**, and then `none` for good. -/
theorem iterate_nextToken (h : t.SlotsInRange) (j : Nat) :
    (t.nextToken)^[j] t.firstToken = t.liveTokens.getD j .none := by
  induction j with
  | zero => rw [Function.iterate_zero_apply, firstToken_eq h]
  | succ j ih =>
    rw [Function.iterate_succ_apply', ih, nextToken_eq h, find?_precedes_getD pairwise_liveTokens]

end Step

/-! ### The whole walk -/

section Walk

variable {t : Table V}

theorem getD_liveTokens_eq_none {j : Nat} :
    t.liveTokens.getD j .none = .none ↔ t.liveTokens.length ≤ j := by
  rw [List.getD_eq_getElem?_getD]
  constructor
  · intro hj
    by_contra hlt
    rw [List.getElem?_eq_getElem (Nat.lt_of_not_le hlt), Option.getD_some] at hj
    exact none_not_mem_liveTokens (hj ▸ List.getElem_mem _)
  · intro hj
    rw [List.getElem?_eq_none hj]
    rfl

/-- A walk with enough steps from the `j`-th live token lists the live tokens from there on. -/
theorem tokensFrom_getD (h : t.SlotsInRange) {j fuel : Nat} (hfuel : t.liveTokens.length ≤ j + fuel) :
    t.tokensFrom (t.liveTokens.getD j .none) fuel = t.liveTokens.drop j := by
  induction fuel generalizing j with
  | zero => rw [tokensFrom, List.drop_eq_nil_of_le (by omega)]
  | succ fuel ih =>
    rw [tokensFrom]
    split
    · rename_i hnone
      rw [List.drop_eq_nil_of_le (getD_liveTokens_eq_none.mp hnone)]
    · rename_i hsome
      have hj : j < t.liveTokens.length := Nat.lt_of_not_le (mt getD_liveTokens_eq_none.mpr hsome)
      rw [nextToken_eq h, find?_precedes_getD pairwise_liveTokens, ih (by omega),
        List.getD_eq_getElem?_getD, List.getElem?_eq_getElem hj, Option.getD_some,
        List.drop_eq_getElem_cons hj]

theorem tokens_eq (h : t.SlotsInRange) : t.tokens = t.liveTokens := by
  have hlen := length_liveTokens h
  rw [tokens, firstToken_eq h, tokensFrom_getD h (by rw [hlen]; split <;> split <;> omega),
    List.drop_zero]

/-- Each row of the walk is a live token with what it names. -/
theorem walk_eq_map (h : t.SlotsInRange) :
    t.walk = t.liveTokens.map fun u => (u, t.key? u, t.value? u) := by
  rw [walk, tokens_eq h]

/-- **The rows of the walk**: each occupied slot with its key and value, in increasing index,
then the zero key with its value, then the null key's value without a key. -/
theorem walk_eq (h : t.SlotsInRange) :
    t.walk = t.occupiedSlots.filterMap (fun i => (t.slots[i]?).map fun e => (.slot i, some e.1, some e.2)) ++
      (t.zero.map fun v => (.zero, some 0, some v)).toList ++
      (t.null.map fun v => (.null, none, some v)).toList := by
  rw [walk_eq_map h, liveTokens, List.map_append, List.map_map, List.append_assoc]
  congr 1
  · rw [List.filterMap_eq_map_iff_forall_eq_some.mpr]
    intro i hi
    obtain ⟨e, he⟩ := Option.isSome_iff_exists.mp (mem_occupiedSlots.mp hi).2
    simp [key?, value?, entryAt?, he]
  · unfold tailTokens
    cases hz : t.zero <;> cases hn : t.null <;> simp [key?, value?, hz, hn]

/-- The in-slot entries are the occupied slots' entries in increasing index. -/
theorem slotEntries_eq (h : t.SlotsInRange) :
    t.slotEntries = t.occupiedSlots.filterMap fun i => t.slots[i]? := by
  have hkeys := keys_eq_occupiedSlots h
  rw [← Std.ExtTreeMap.map_fst_toList_eq_keys] at hkeys
  rw [slotEntries, ← hkeys, List.filterMap_map]
  symm
  rw [List.filterMap_eq_map_iff_forall_eq_some]
  intro p hp
  exact Std.ExtTreeMap.mem_toList_iff_getElem?_eq_some.mp hp

/-- **The keyed entries are the walk without the null key's row**, and then the null key's
value closes the walk. -/
theorem walk_pairs (h : t.SlotsInRange) :
    t.walk.map (fun r => (r.2.1, r.2.2)) =
      t.entries.map (fun e => (some e.1, some e.2)) ++
        (t.null.map fun v => ((none : Option UInt64), some v)).toList := by
  rw [walk_eq h, entries, slotEntries_eq h]
  simp only [List.map_append, List.map_filterMap, Option.map_map]
  cases t.zero <;> cases t.null <;> rfl

end Walk

/-! ### Writing through a token -/

section Write

variable {t : Table V}

/-- A write through a token that names nothing changes nothing. -/
theorem setValue_of_not_live (h : t.SlotsInRange) {tok : Token} (htok : tok ∉ t.liveTokens)
    (v : V) : t.setValue tok v = t := by
  rw [mem_liveTokens_iff h] at htok
  cases tok with
  | slot i =>
    cases hi : t.slots[i]? with
    | none => simp [setValue, entryAt?, hi]
    | some e => simp [value?, entryAt?, hi] at htok
  | zero => simp_all [setValue, value?]
  | null => simp_all [setValue, value?]
  | none => rfl

/-- **A write through a live token** keeps the live tokens and the keys, and changes the value
it names and no other. -/
theorem setValue_of_live (h : t.SlotsInRange) {tok : Token} (htok : tok ∈ t.liveTokens) (v : V) :
    (t.setValue tok v).SlotsInRange ∧ (t.setValue tok v).liveTokens = t.liveTokens ∧
      (∀ u, (t.setValue tok v).key? u = t.key? u) ∧
      ∀ u, (t.setValue tok v).value? u = if u = tok then some v else t.value? u := by
  rw [mem_liveTokens_iff h] at htok
  cases tok with
  | slot i =>
    simp only [value?, entryAt?, Option.isSome_map] at htok
    obtain ⟨⟨k, w⟩, hi⟩ := Option.isSome_iff_exists.mp htok
    rw [setValue_slot hi]
    have hslots : ∀ j, (t.slots.insert i (k, v))[j]? = if i = j then some (k, v) else t.slots[j]? :=
      fun j => getElem?_insert_slots
    refine ⟨fun {j e} hj => ?_, ?_, fun u => ?_, fun u => ?_⟩
    · rw [hslots] at hj
      split at hj
      · subst_vars
        exact h hi
      · exact h hj
    · simp only [liveTokens, tailTokens, occupiedSlots, hslots]
      congr 2
      refine List.filter_congr fun j _ => ?_
      split <;> simp_all
    · cases u with
      | slot j =>
        simp only [key?, entryAt?, hslots]
        by_cases hij : i = j
        · subst hij
          simp [hi]
        · simp [hij]
      | _ => rfl
    · cases u with
      | slot j =>
        simp only [value?, entryAt?, hslots, Token.slot.injEq]
        by_cases hij : i = j
        · subst hij
          simp
        · simp [hij, Ne.symm hij]
      | _ => rfl
  | zero =>
    have hz : t.zero.isSome := htok
    simp only [setValue, hz, if_true]
    refine ⟨h, ?_, fun u => ?_, fun u => ?_⟩
    · simp only [liveTokens, tailTokens, hz, Option.isSome_some]
      rfl
    · cases u <;> simp [key?, entryAt?, hz]
    · cases u <;> simp [value?, entryAt?]
  | null =>
    have hn : t.null.isSome := htok
    simp only [setValue, hn, if_true]
    refine ⟨h, ?_, fun u => ?_, fun u => ?_⟩
    · simp only [liveTokens, tailTokens, hn, Option.isSome_some]
      rfl
    · cases u <;> rfl
    · cases u <;> simp [value?, entryAt?]
  | none => simp [value?] at htok

/-- **A write through a live token changes that row of the walk**, its value only. -/
theorem walk_setValue (h : t.SlotsInRange) {tok : Token} (htok : tok ∈ t.liveTokens) (v : V) :
    (t.setValue tok v).walk =
      t.walk.map fun r => if r.1 = tok then (r.1, r.2.1, some v) else r := by
  obtain ⟨h', hlive, hkey, hvalue⟩ := setValue_of_live h htok v
  rw [walk_eq_map h', walk_eq_map h, hlive, List.map_map]
  refine List.map_congr_left fun u _ => ?_
  by_cases hu : u = tok
  · subst hu
    simp [hkey, hvalue]
  · simp [hkey, hvalue, hu]

/-- A slot token names nothing unless its slot is within the size and occupied: its value and
key are absent and a write through it changes nothing. -/
theorem slot_not_live (h : t.SlotsInRange) {i : Nat} (hi : ¬(i < t.capacity ∧ (t.slots[i]?).isSome)) :
    t.value? (.slot i) = none ∧ t.key? (.slot i) = none ∧ ∀ v, t.setValue (.slot i) v = t := by
  have hempty : t.slots[i]? = none := by
    cases he : t.slots[i]? with
    | none => rfl
    | some e => exact absurd ⟨h he, by simp [he]⟩ hi
  refine ⟨by simp [value?, entryAt?, hempty], by simp [key?, entryAt?, hempty], fun v => ?_⟩
  exact setValue_of_not_live h (by simp [mem_liveTokens_iff h, value?, entryAt?, hempty]) v

end Write

/-! ### Every reachable table walks in order -/

/-- **A table whose walk meets every entry once, in slot order.** From the first token the walk
meets the live tokens in order and then `none` for good, as many as the length; a live token is
one that names a value; a step from any token goes to the first live token after it; the rows are
the occupied slots' keys and values in increasing index, then the zero key with its value, then
the null key's value; the keyed entries are the rows but the null key's; a write through a live
token changes its row's value and nothing else; and a slot token whose slot is empty or past the
size names nothing. -/
structure WalksInOrder (t : Table V) : Prop where
  iterate_eq : ∀ j, (t.nextToken)^[j] t.firstToken = t.liveTokens.getD j .none
  length_eq : t.liveTokens.length = t.len
  mem_liveTokens_iff : ∀ tok, tok ∈ t.liveTokens ↔ (t.value? tok).isSome
  nextToken_eq : ∀ tok, t.nextToken tok = (t.liveTokens.find? tok.precedes).getD .none
  walk_eq : t.walk =
    t.occupiedSlots.filterMap (fun i => (t.slots[i]?).map fun e => (.slot i, some e.1, some e.2)) ++
      (t.zero.map fun v => (.zero, some 0, some v)).toList ++
      (t.null.map fun v => (.null, none, some v)).toList
  walk_pairs : t.walk.map (fun r => (r.2.1, r.2.2)) =
    t.entries.map (fun e => (some e.1, some e.2)) ++
      (t.null.map fun v => ((none : Option UInt64), some v)).toList
  walk_setValue : ∀ tok ∈ t.liveTokens, ∀ v, (t.setValue tok v).walk =
    t.walk.map fun r => if r.1 = tok then (r.1, r.2.1, some v) else r
  slot_not_live : ∀ i, ¬(i < t.capacity ∧ (t.slots[i]?).isSome) →
    t.value? (.slot i) = none ∧ t.key? (.slot i) = none ∧ ∀ v, t.setValue (.slot i) v = t

/-- **Every reachable table walks its entries in order**, whatever its hash function, load factor
and history: one slot token per occupied slot in increasing index, then the zero key's token when
that key is present, then the null key's, then `none`, as many tokens as its length, each row the
entry its token names; every step, from any token, goes to the first live token after it; and a
write through a live token reaches exactly that entry. -/
theorem Reachable.walksInOrder {t : Table V} (ht : t.Reachable) : t.WalksInOrder := by
  obtain ⟨hwf, -, hlen⟩ := ht.wellFormed_and_walks_end
  have h : t.SlotsInRange := hwf.slotsInRange
  exact {
    iterate_eq := iterate_nextToken h
    length_eq := by rw [length_liveTokens h, hlen]
    mem_liveTokens_iff := mem_liveTokens_iff h
    nextToken_eq := nextToken_eq h
    walk_eq := walk_eq h
    walk_pairs := walk_pairs h
    walk_setValue := fun _ htok v => walk_setValue h htok v
    slot_not_live := fun _ hi => slot_not_live h hi }

/-- A table holding key `5` in slot `1`, the zero key and the null key, reached by three stores,
walks in order. -/
theorem slot_zero_null_walksInOrder :
    ({ (empty id (LoadFactor.clamp 0x3F000000) 4 : Table Nat) with
        slots := (∅ : Slots Nat).insert 1 (5, 1), assigned := 1, zero := some 2,
        null := some 3 } : Table Nat).Reachable ∧
      ({ (empty id (LoadFactor.clamp 0x3F000000) 4 : Table Nat) with
        slots := (∅ : Slots Nat).insert 1 (5, 1), assigned := 1, zero := some 2,
        null := some 3 } : Table Nat).WalksInOrder :=
  have h₀ : withConfig id 0 (LoadFactor.clamp 0x3F000000) =
      .ok (empty id (LoadFactor.clamp 0x3F000000) 4 : Table Nat) := rfl
  have h₁ : (Op.insert (some 5) 1).run (empty id (LoadFactor.clamp 0x3F000000) 4 : Table Nat) =
      .ok (none, { (empty id (LoadFactor.clamp 0x3F000000) 4 : Table Nat) with
        slots := (∅ : Slots Nat).insert 1 (5, 1), assigned := 1 }) := rfl
  have h₂ : (Op.insert (some 0) 2).run { (empty id (LoadFactor.clamp 0x3F000000) 4 : Table Nat) with
        slots := (∅ : Slots Nat).insert 1 (5, 1), assigned := 1 } =
      .ok (none, { (empty id (LoadFactor.clamp 0x3F000000) 4 : Table Nat) with
        slots := (∅ : Slots Nat).insert 1 (5, 1), assigned := 1, zero := some 2 }) := rfl
  have h₃ : (Op.insert none 3).run { (empty id (LoadFactor.clamp 0x3F000000) 4 : Table Nat) with
        slots := (∅ : Slots Nat).insert 1 (5, 1), assigned := 1, zero := some 2 } =
      .ok (none, { (empty id (LoadFactor.clamp 0x3F000000) 4 : Table Nat) with
        slots := (∅ : Slots Nat).insert 1 (5, 1), assigned := 1, zero := some 2,
        null := some 3 }) := rfl
  have ht := Reachable.step _ (.step _ (.step _ (.fresh h₀) h₁) h₂) h₃
  ⟨ht, Reachable.walksInOrder ht⟩

end Table

end CompactCollections
