import CompactCollections.Proofs.Table.Placement
/-!
# Backward shifting leaves no trace

Removing a key empties its slot, and `CompactCollections.Table.shiftBack` then closes the gap:
it scans the slots after it, and the first entry whose walk passes the gap moves into it, its
own slot becoming the gap. This file proves that the slots it leaves are laid out by the
insertion order without the removed entry – every remaining entry sits exactly where it would
had the removed one never been inserted.

The loop carries `CompactCollections.Table.Shifting`: without the gap the slots are laid out,
with the gap as a hole, and every entry whose walk passes the gap lies beyond the slots
scanned so far. A scanned entry that does not move has a walk that stays clear of the gap; the
entry that moves is the first whose walk passes the gap, and every later such entry came
after it in the order, since its walk passed the slot it left. When the scan reaches an empty
slot no walk can pass the gap any more, and the hole is gone.

* `CompactCollections.Table.Shifting.shiftBack_laid` – the run of the loop, and that more fuel
  than the table has slots changes nothing;
* `CompactCollections.Table.Laid.shiftBack_erase` – the whole removal.
-/

namespace CompactCollections.Table

open scoped List

variable {V : Type} {hash : UInt64 → UInt64} {n : Nat} {σ : List (UInt64 × V)} {S : Slots V}
  {g d : Nat}

/-- **One step of the backward shift**, in a table whose size is a power of two at most `2 ^ 64`:
it looks at the slot `d + 1` past the gap, and moves the entry there into the gap when the span
from the entry's home slot reaches back to the gap. -/
theorem shiftBack_succ (hn : n.isPowerOfTwo) (hle : n ≤ Capacity.wordLimit) (S : Slots V)
    (g d fuel : Nat) :
    shiftBack hash n S g d (fuel + 1) =
      match S[(g + (d + 1)) % n]? with
      | some (key, value) =>
        if d + 1 ≤ span n (home hash n key) ((g + (d + 1)) % n) then
          shiftBack hash n (S.insert g (key, value)) ((g + (d + 1)) % n) 0 fuel
        else shiftBack hash n S g (d + 1) fuel
      | none => S.erase g := by
  have hpos := Nat.pos_of_isPowerOfTwo hn
  simp only [shiftBack, Capacity.wrap_eq_mod hn (g + (d + 1))]
  cases hS : S[(g + (d + 1)) % n]? with
  | none => rfl
  | some e =>
    obtain ⟨key, value⟩ := e
    dsimp only
    -- the masked difference of the two slots is the span between them
    rw [show Capacity.wrap (hash key).toNat n = home hash n key from Capacity.wrap_eq_mod hn _,
      wrap_sub_eq_span hn hle (home_lt hpos key) (Nat.mod_lt _ hpos)]

/-- **A backward shift part way.** The gap being closed is slot `g`, which still holds a stale
entry, and the `d` slots after it have been scanned. Without the gap the slots are laid out by
`σ`, with the gap as their hole, and every entry whose walk passes the gap lies beyond the
scanned slots. -/
structure Shifting (hash : UInt64 → UInt64) (n : Nat) (σ : List (UInt64 × V)) (S : Slots V)
    (g d : Nat) : Prop where
  gap_lt : g < n
  gap_occupied : S[g]? ≠ none
  laid : Laid hash n σ (S.erase g) (some g)
  far : ∀ {q : Nat} {e : UInt64 × V}, (S.erase g)[q]? = some e →
    span n (home hash n e.1) g < span n (home hash n e.1) q → d < span n g q

namespace Shifting

/-- The slot that the next step of the scan looks at is `d + 1` past the gap, and not the gap. -/
theorem span_next (h : Shifting hash n σ S g d) (hd : d + 1 < n) :
    span n g ((g + (d + 1)) % n) = d + 1 :=
  span_add h.gap_lt hd

theorem next_ne (h : Shifting hash n σ S g d) (hd : d + 1 < n) : (g + (d + 1)) % n ≠ g := by
  intro hsg
  have hspan := h.span_next hd
  rw [hsg, span_self] at hspan
  omega

/-- An entry whose walk passes the gap, and which is not in the slot the scan looks at next, has
that slot on its walk too: it lies beyond the scanned slots. -/
theorem next_on_walk (h : Shifting hash n σ S g d) (hd : d + 1 < n) {q : Nat} {e : UInt64 × V}
    (hq : (S.erase g)[q]? = some e)
    (hpass : span n (home hash n e.1) g < span n (home hash n e.1) q)
    (hqs : q ≠ (g + (d + 1)) % n) :
    span n (home hash n e.1) ((g + (d + 1)) % n) < span n (home hash n e.1) q := by
  have hg := h.gap_lt
  have hn : 0 < n := by omega
  have hhome : home hash n e.1 < n := home_lt hn e.1
  have hqn := h.laid.lt hq
  have hsn : (g + (d + 1)) % n < n := Nat.mod_lt _ hn
  have hfar : d + 1 < span n g q := by
    rcases Nat.lt_or_ge (d + 1) (span n g q) with hlt | hge
    · exact hlt
    · have hd' := h.far hq hpass
      exact absurd (eq_of_span_eq hg hsn hqn (by rw [h.span_next hd]; omega)).symm hqs
  have hsum := span_add_span hhome hg hqn (Nat.le_of_lt hpass)
  have hq_lt : span n (home hash n e.1) q < n := span_lt hn
  rw [span_add_of_lt hhome hg (by omega)]
  omega

/-- **The scan meets an empty slot.** No walk can pass the gap any more, so the slots without it
are laid out with no hole. -/
theorem close (h : Shifting hash n σ S g d) (hd : d + 1 < n)
    (hs : S[(g + (d + 1)) % n]? = none) : Laid hash n σ (S.erase g) none := by
  have hg := h.gap_lt
  have hsn : (g + (d + 1)) % n < n := Nat.mod_lt _ (by omega)
  have hgs := h.span_next hd
  have hsE : (S.erase g)[(g + (d + 1)) % n]? = none := by
    rw [getElem?_erase_slots]
    split
    · rfl
    · exact hs
  refine { h.laid with chain := fun {q e} hq j hj => ?_ }
  rcases h.laid.chain hq j hj with hhole | hf
  · -- the walk of `e` would pass the gap, hence the empty slot after it
    exfalso
    have hhome : home hash n e.1 < n := home_lt (h.laid.pos hq) e.1
    have hgj : (home hash n e.1 + j) % n = g := (Option.some.inj hhole)
    have hjn : j < n := lt_of_lt_of_le hj (Nat.le_of_lt (span_lt (by omega)))
    have hspan_g : span n (home hash n e.1) g = j := by rw [← hgj, span_add hhome hjn]
    have hqs : q ≠ (g + (d + 1)) % n := fun hqs => by
      rw [hqs, hsE] at hq
      cases hq
    have hpast := h.next_on_walk hd hq (by omega) hqs
    rcases h.laid.chain_at hq hsn hpast with hhole' | ⟨f, hf, -⟩
    · exact h.next_ne hd (Option.some.inj hhole')
    · rw [hsE] at hf
      cases hf
  · exact Or.inr hf

/-- **The scanned entry stays.** Its walk does not pass the gap, so the scan goes on. -/
theorem skip (h : Shifting hash n σ S g d) (hd : d + 1 < n) {x : UInt64} {w : V}
    (hs : S[(g + (d + 1)) % n]? = some (x, w))
    (hstay : ¬ d + 1 ≤ span n (home hash n x) ((g + (d + 1)) % n)) :
    Shifting hash n σ S g (d + 1) := by
  refine { h with far := fun {q e} hq hpass => ?_ }
  have hfar := h.far hq hpass
  rcases Nat.lt_or_ge (d + 1) (span n g q) with hlt | hge
  · exact hlt
  · -- the entry at `d + 1` would pass the gap, and then it would have moved
    exfalso
    have hg := h.gap_lt
    have hqn := h.laid.lt hq
    have hsn : (g + (d + 1)) % n < n := Nat.mod_lt _ (by omega)
    have hqs : q = (g + (d + 1)) % n :=
      eq_of_span_eq hg hqn hsn (by rw [h.span_next hd]; omega)
    subst hqs
    rw [getElem?_erase_slots, if_neg (Ne.symm (h.next_ne hd)), hs] at hq
    cases hq
    have hhome : home hash n x < n := home_lt (by omega) x
    have hle := (span_le_span_iff hhome hg hsn (Ne.symm (h.next_ne hd))).mpr hpass
    rw [h.span_next hd] at hle
    exact hstay hle

/-- **The scanned entry moves into the gap.** Its walk passes the gap and it is the first such
entry met, so every entry whose walk passes the slot it leaves came after it. -/
theorem move (h : Shifting hash n σ S g d) (hd : d + 1 < n) {x : UInt64} {w : V}
    (hs : S[(g + (d + 1)) % n]? = some (x, w))
    (hmove : d + 1 ≤ span n (home hash n x) ((g + (d + 1)) % n)) :
    Shifting hash n σ (S.insert g (x, w)) ((g + (d + 1)) % n) 0 := by
  have hg := h.gap_lt
  have hn : 0 < n := by omega
  have hsn : (g + (d + 1)) % n < n := Nat.mod_lt _ hn
  have hsg := h.next_ne hd
  have hxs : (S.erase g)[(g + (d + 1)) % n]? = some (x, w) := by
    rw [getElem?_erase_slots, if_neg (Ne.symm hsg), hs]
  have hhx : home hash n x < n := home_lt hn x
  -- the moved entry's walk passes the gap
  have hxg : span n (home hash n x) g < span n (home hash n x) ((g + (d + 1)) % n) :=
    (span_le_span_iff hhx hg hsn (Ne.symm hsg)).mp (by rw [h.span_next hd]; exact hmove)
  -- the slots after the move, read through the slots before it
  have hnew : ∀ i : Nat, ((S.insert g (x, w)).erase ((g + (d + 1)) % n))[i]? =
      if (g + (d + 1)) % n = i then none
      else if g = i then some (x, w) else (S.erase g)[i]? := by
    intro i
    rw [getElem?_erase_slots, getElem?_insert_slots, getElem?_erase_slots]
    split_ifs <;> rfl
  refine ⟨hsn, ?_, ⟨fun e => ?_, h.laid.nodup, fun {i e} hi => ?_, fun {i j e f} hi hj hef => ?_,
    fun {q e} hq j hj => ?_⟩, fun {q e} hq _ => ?_⟩
  · rw [getElem?_insert_slots, if_neg hsg.symm, hs]
    exact Option.some_ne_none _
  · -- the same entries, the moved one in the gap
    rw [h.laid.mem_iff e]
    constructor
    · rintro ⟨i, hi⟩
      by_cases his : (g + (d + 1)) % n = i
      · subst his
        rw [hxs] at hi
        exact ⟨g, by rw [hnew, if_neg hsg, if_pos rfl, hi]⟩
      · have hgi : g ≠ i := fun hgi => by
          rw [← hgi, getElem?_erase_slots, if_pos rfl] at hi
          cases hi
        exact ⟨i, by rw [hnew, if_neg his, if_neg hgi, hi]⟩
    · rintro ⟨i, hi⟩
      rw [hnew] at hi
      split_ifs at hi with his hgi
      · exact ⟨_, hxs.trans hi⟩
      · exact ⟨i, hi⟩
  · rw [hnew] at hi
    split_ifs at hi with his hgi
    · omega
    · exact h.laid.lt hi
  · -- the moved key was only in the slot it left
    rw [hnew] at hi hj
    have hkey : ∀ {i : Nat} {f : UInt64 × V}, (g + (d + 1)) % n ≠ i → (S.erase g)[i]? = some f →
        f.1 ≠ x := fun his hi hfx => his (h.laid.keys_inj hxs hi hfx.symm)
    split_ifs at hi hj with his hgi hjs hgj hgj
    · omega
    · cases hi
      exact absurd hef.symm (hkey hjs hj)
    · cases hj
      exact absurd hef (hkey his hi)
    · exact h.laid.keys_inj hi hj hef
  · rw [hnew] at hq
    split_ifs at hq with hqs hgq
    · -- the moved entry: its walk up to the gap is part of its walk up to its old slot
      cases hq
      subst hgq
      dsimp only at hj ⊢
      have hr : (home hash n x + j) % n < n := Nat.mod_lt _ hn
      have hjr : span n (home hash n x) ((home hash n x + j) % n) = j :=
        span_add hhx (by have := span_lt (a := home hash n x) (b := g) hn; omega)
      have hrg : (home hash n x + j) % n ≠ g := fun hrg => by rw [hrg] at hjr; omega
      have hrs_walk : span n (home hash n x) ((home hash n x + j) % n) <
          span n (home hash n x) ((g + (d + 1)) % n) := by omega
      rcases h.laid.chain_at hxs hr hrs_walk with hhole | ⟨f, hf, hbefore⟩
      · exact absurd (Option.some.inj hhole) hrg
      · have hrs : (g + (d + 1)) % n ≠ (home hash n x + j) % n := fun hrs => by
          rw [← hrs] at hjr
          omega
        exact Or.inr ⟨f, by rw [hnew, if_neg hrs, if_neg (Ne.symm hrg), hf], hbefore⟩
    · -- any other entry: the new hole is allowed, the filled gap holds an earlier entry
      have hhome : home hash n e.1 < n := home_lt hn e.1
      have hqn := h.laid.lt hq
      rcases h.laid.chain hq j hj with hhole | ⟨f, hf, hbefore⟩
      · have hgr : (home hash n e.1 + j) % n = g := Option.some.inj hhole
        have hjn : j < n := lt_of_lt_of_le hj (Nat.le_of_lt (span_lt hn))
        have hpass : span n (home hash n e.1) g < span n (home hash n e.1) q := by
          rw [← hgr, span_add hhome hjn]
          exact hj
        have hnext := h.next_on_walk hd hq hpass (Ne.symm hqs)
        rcases h.laid.chain_at hq hsn hnext with hhole' | ⟨f, hf, hbefore⟩
        · exact absurd (Option.some.inj hhole') hsg
        · rw [hxs] at hf
          cases hf
          exact Or.inr ⟨(x, w), by rw [hgr, hnew, if_neg hsg, if_pos rfl], hbefore⟩
      · by_cases hrs : (home hash n e.1 + j) % n = (g + (d + 1)) % n
        · exact Or.inl (by rw [hrs])
        · have hrg : g ≠ (home hash n e.1 + j) % n := fun hrg => by
            rw [← hrg, getElem?_erase_slots, if_pos rfl] at hf
            cases hf
          exact Or.inr ⟨f, by rw [hnew, if_neg (Ne.symm hrs), if_neg hrg, hf], hbefore⟩
  · -- the new gap has not been scanned past, and every entry lies past it
    have hqs : q ≠ (g + (d + 1)) % n := fun hqs => by
      rw [hqs, getElem?_erase_slots, if_pos rfl] at hq
      cases hq
    have hqn : q < n := by
      rw [hnew] at hq
      split_ifs at hq with h₁ h₂
      · omega
      · exact h.laid.lt hq
    rcases Nat.eq_zero_or_pos (span n ((g + (d + 1)) % n) q) with h0 | hpos
    · exact absurd (eq_of_span_eq hsn hqn hsn (by rw [h0, span_self])) hqs
    · exact hpos

/-- **The run of the loop.** From a state part way, with an empty slot `p` not yet reached and
fuel for the slots up to it, the shift ends with the slots laid out, and more fuel would not
change the result. -/
theorem shiftBack_laid (hn : n.isPowerOfTwo) (hle : n ≤ Capacity.wordLimit)
    (h : Shifting hash n σ S g d) {p fuel : Nat} (hp : p < n)
    (hpe : S[p]? = none) (hd : d < span n g p) (hfuel : span n g p - d ≤ fuel) :
    Laid hash n σ (shiftBack hash n S g d fuel) none ∧
      ∀ m, shiftBack hash n S g d (fuel + m) = shiftBack hash n S g d fuel := by
  -- induction on the fuel, the scan carrying `Shifting` and the same empty slot `p`
  induction fuel generalizing S g d with
  | zero => omega
  | succ fuel ih =>
    have hg := h.gap_lt
    have hpn : span n g p < n := span_lt (by omega)
    have hdn : d + 1 < n := by omega
    have hsn : (g + (d + 1)) % n < n := Nat.mod_lt _ (by omega)
    have hgs := h.span_next hdn
    have hsum : span n g ((g + (d + 1)) % n) + span n ((g + (d + 1)) % n) p = span n g p :=
      span_add_span hg hsn hp (by omega)
    cases hs : S[(g + (d + 1)) % n]? with
    | none =>
      have hstep : ∀ f, shiftBack hash n S g d (f + 1) = S.erase g := by
        intro f
        rw [shiftBack_succ hn hle, hs]
      refine ⟨by rw [hstep]; exact h.close hdn hs, fun m => ?_⟩
      rw [show fuel + 1 + m = fuel + m + 1 by omega, hstep, hstep]
    | some e =>
      obtain ⟨x, w⟩ := e
      have hsp : (g + (d + 1)) % n ≠ p := fun hsp => by
        rw [hsp, hpe] at hs
        cases hs
      have hnext : d + 1 < span n g p := by
        rcases Nat.lt_or_ge (d + 1) (span n g p) with hlt | hge
        · exact hlt
        · exact absurd (eq_of_span_eq hg hsn hp (by omega)) hsp
      by_cases hmove : d + 1 ≤ span n (home hash n x) ((g + (d + 1)) % n)
      · have hstep : ∀ f, shiftBack hash n S g d (f + 1) =
            shiftBack hash n (S.insert g (x, w)) ((g + (d + 1)) % n) 0 f := by
          intro f
          rw [shiftBack_succ hn hle, hs]
          exact if_pos hmove
        have hpe' : (S.insert g (x, w))[p]? = none := by
          have hgp : g ≠ p := fun hgp => h.gap_occupied (hgp ▸ hpe)
          rw [getElem?_insert_slots, if_neg hgp, hpe]
        obtain ⟨hlaid, hmore⟩ := ih (h.move hdn hs hmove) hpe' (by omega) (by omega)
        refine ⟨by rw [hstep]; exact hlaid, fun m => ?_⟩
        rw [show fuel + 1 + m = fuel + m + 1 by omega, hstep, hstep, hmore]
      · have hstep : ∀ f, shiftBack hash n S g d (f + 1) = shiftBack hash n S g (d + 1) f := by
          intro f
          rw [shiftBack_succ hn hle, hs]
          exact if_neg hmove
        obtain ⟨hlaid, hmore⟩ := ih (h.skip hdn hs hmove) hpe hnext (by omega)
        refine ⟨by rw [hstep]; exact hlaid, fun m => ?_⟩
        rw [show fuel + 1 + m = fuel + m + 1 by omega, hstep, hstep, hmore]

end Shifting

/-- **The start of a removal.** Without the entry in slot `g` the slots are laid out by the
order without its key, with `g` as their hole. -/
theorem Laid.erase_gap (h : Laid hash n σ S none) {k : UInt64} {v : V}
    (hg : S[g]? = some (k, v)) :
    Laid hash n (σ.filter fun e => e.1 != k) (S.erase g) (some g) := by
  have hkey : ∀ {i : Nat} {e : UInt64 × V}, S[i]? = some e → (e.1 = k ↔ g = i) := by
    intro i e hi
    constructor
    · intro hek
      exact h.keys_inj hg hi hek.symm
    · rintro rfl
      rw [hg] at hi
      cases hi
      rfl
  refine ⟨fun e => ?_, ?_, fun {i e} hi => ?_, fun {i j e f} hi hj hef => ?_,
    fun {q e} hq j hj => ?_⟩
  · rw [List.mem_filter, h.mem_iff e, bne_iff_ne, ne_eq]
    constructor
    · rintro ⟨⟨i, hi⟩, hek⟩
      exact ⟨i, by rw [getElem?_erase_slots, if_neg (fun hgi => hek ((hkey hi).mpr hgi)), hi]⟩
    · rintro ⟨i, hi⟩
      rw [getElem?_erase_slots] at hi
      split at hi
      · cases hi
      · exact ⟨⟨i, hi⟩, fun hek => ‹¬g = i› ((hkey hi).mp hek)⟩
  · exact ((List.filter_sublist (l := σ)).map Prod.fst).nodup h.nodup
  · rw [getElem?_erase_slots] at hi
    split at hi
    · cases hi
    · exact h.lt hi
  · rw [getElem?_erase_slots] at hi hj
    split at hi
    · cases hi
    · split at hj
      · cases hj
      · exact h.keys_inj hi hj hef
  · rw [getElem?_erase_slots] at hq
    split at hq
    · cases hq
    · rename_i hgq
      rcases h.chain hq j hj with hhole | ⟨f, hf, hbefore⟩
      · cases hhole
      · by_cases hgr : g = (home hash n e.1 + j) % n
        · exact Or.inl (by rw [hgr])
        · refine Or.inr ⟨f, by rw [getElem?_erase_slots, if_neg hgr, hf], ?_⟩
          have hf' : (f.1 != k) = true := by
            rw [bne_iff_ne, ne_eq, hkey hf]
            exact hgr
          have he' : (e.1 != k) = true := by
            rw [bne_iff_ne, ne_eq, hkey hq]
            exact hgq
          have hpair : [f, e].filter (fun e => e.1 != k) = [f, e] := by
            simp [hf', he']
          exact hpair ▸ hbefore.filter _

/-- **Removing an entry leaves no trace.** From laid-out slots with fewer entries than slots,
the backward shift that closes slot `g` leaves the slots laid out by the order without the
removed key, and it ends before the fuel of one round of the table runs out. -/
theorem Laid.shiftBack_erase (hn : n.isPowerOfTwo) (hle : n ≤ Capacity.wordLimit)
    (h : Laid hash n σ S none) {k : UInt64} {v : V} (hg : S[g]? = some (k, v))
    (hroom : σ.length < n) :
    Laid hash n (σ.filter fun e => e.1 != k) (shiftBack hash n S g 0 n) none ∧
      ∀ m, shiftBack hash n S g 0 (n + m) = shiftBack hash n S g 0 n := by
  have hgn := h.lt hg
  obtain ⟨p, hp, hpe⟩ := exists_vacant_of_size_lt (h.size_eq ▸ hroom)
  have hgp : g ≠ p := fun hgp => by
    rw [hgp, hpe] at hg
    cases hg
  have hspan : 0 < span n g p := by
    rcases Nat.eq_zero_or_pos (span n g p) with h0 | hpos
    · exact absurd (eq_of_span_eq hgn hgn hp (by rw [h0, span_self])) hgp
    · exact hpos
  have hstart : Shifting hash n (σ.filter fun e => e.1 != k) S g 0 := by
    refine ⟨hgn, by rw [hg]; exact Option.some_ne_none _, h.erase_gap hg, fun {q e} hq _ => ?_⟩
    have hgq : g ≠ q := fun hgq => by
      rw [← hgq, getElem?_erase_slots, if_pos rfl] at hq
      cases hq
    have hqn : q < n := by
      rw [getElem?_erase_slots, if_neg hgq] at hq
      exact h.lt hq
    rcases Nat.eq_zero_or_pos (span n g q) with h0 | hpos
    · exact absurd (eq_of_span_eq hgn hgn hqn (by rw [h0, span_self])) hgq
    · exact hpos
  exact hstart.shiftBack_laid hn hle hp hpe hspan
    (by have := span_lt (a := g) (b := p) (by omega : 0 < n); omega)

end CompactCollections.Table
