import CompactCollections.Proofs.Capacity
import CompactCollections.Proofs.Bits.Storage
import CompactCollections.Proofs.Bits.BitRefinement
import CompactCollections.Proofs.Null.Refinement
/-!
# Growth near the largest machine word

A list sizes its storage from the number of bits it must hold: a packed list needs
`⌈m · width / 64⌉` words for `m` items and a list of bits `⌈n / 64⌉` words for `n` bits, and the
sizing rule refuses more than `CompactCollections.maxCapacity` words. The counts are machine
words, and the sums on the way are guarded in two ways. A total of items or a bit count past the
largest word is refused as a capacity overflow; but the `+ 63` that rounds a bit count up to
words, and the `+ 1` that turns a position into a length, abort when they pass it
(`CompactCollections.Abort.wordOverflow`).

So every growth ends in one of three ways, decided by its arithmetic alone
(`CompactCollections.EndsBy`): it succeeds exactly when the words fit under `maxCapacity`, aborts
exactly when one of the unguarded sums wraps, and is refused as a capacity overflow otherwise.
For a reservation of `n` more items the sum wraps when the bit count of `len + n` items lies in
the last 63 below `2 ^ 64` (`CompactCollections.RoundsPastWord`); for a write past the end at
`i`, when `i + 1` wraps or the bit count of `i + 1` items does
(`CompactCollections.growth_endsBy`). Those requests need far more than `maxCapacity` words, and
a request that large is refused everywhere else: within the last 63 it aborts instead
(`CompactCollections.growth_aborts_near_wordLimit`).

The sizing rule never gives more than `maxCapacity` words, so a reachable list never holds more
(`CompactCollections.PackedList.Reachable.reserved_le`,
`CompactCollections.BitList.Reachable.reserved_le`); that is what makes a request that fits
succeed whatever the list reserved before.
-/

namespace CompactCollections

open Capacity (wordLimit)

/-! ### Three ways to end -/

/-- **How a growth ends**: it succeeds exactly when the words it needs `fits`, it aborts on a
machine-word sum exactly when one `wraps`, and it is refused as a capacity overflow in every
other case. -/
structure EndsBy {α : Type} (x : Except Stop α) (fits wraps : Prop) : Prop where
  ok_iff : (∃ a, x = .ok a) ↔ fits
  aborted_iff : x = .error (.aborted .wordOverflow) ↔ wraps
  refused_iff : (∃ r, x = .error (.refused (.capacityOverflow r))) ↔ ¬fits ∧ ¬wraps

/-- **The bit counts whose rounding up to words wraps**: the last 63 below `2 ^ 64`. -/
def RoundsPastWord (bits : Nat) : Prop :=
  bits < wordLimit ∧ wordLimit ≤ bits + 63

instance : DecidablePred RoundsPastWord :=
  fun _ => inferInstanceAs (Decidable (_ ∧ _))

namespace EndsBy

variable {α β : Type} {x : Except Stop α} {fits wraps : Prop}

/-- The three ends, from the three cases that lead to them. -/
theorem of_cases (hfits : fits → ∃ a, x = .ok a)
    (hwraps : wraps → x = .error (.aborted .wordOverflow))
    (hrest : ¬fits → ¬wraps → ∃ r, x = .error (.refused (.capacityOverflow r))) :
    EndsBy x fits wraps where
  ok_iff := by
    refine ⟨fun ⟨a, ha⟩ => ?_, hfits⟩
    by_cases hf : fits
    · exact hf
    · by_cases hw : wraps
      · rw [hwraps hw] at ha
        cases ha
      · obtain ⟨r, hr⟩ := hrest hf hw
        rw [hr] at ha
        cases ha
  aborted_iff := by
    refine ⟨fun hx => ?_, hwraps⟩
    by_cases hw : wraps
    · exact hw
    · by_cases hf : fits
      · obtain ⟨a, ha⟩ := hfits hf
        rw [ha] at hx
        cases hx
      · obtain ⟨r, hr⟩ := hrest hf hw
        rw [hr] at hx
        cases hx
  refused_iff := by
    refine ⟨fun ⟨r, hr⟩ => ⟨fun hf => ?_, fun hw => ?_⟩, fun ⟨hf, hw⟩ => hrest hf hw⟩
    · obtain ⟨a, ha⟩ := hfits hf
      rw [ha] at hr
      cases hr
    · rw [hwraps hw] at hr
      cases hr

theorem of_iff {fits' wraps' : Prop} (h : EndsBy x fits wraps) (hf : fits ↔ fits')
    (hw : wraps ↔ wraps') : EndsBy x fits' wraps' :=
  ⟨h.ok_iff.trans hf, h.aborted_iff.trans hw, h.refused_iff.trans (by rw [hf, hw])⟩

/-- A step after the growth that always succeeds ends the whole the same way. -/
theorem bind_ok (h : EndsBy x fits wraps) {f : α → Except Stop β} (hf : ∀ a, ∃ b, f a = .ok b) :
    EndsBy (x >>= f) fits wraps := by
  apply of_cases
  · intro hfit
    obtain ⟨a, ha⟩ := h.ok_iff.mpr hfit
    obtain ⟨b, hb⟩ := hf a
    exact ⟨b, by rw [ha]; exact hb⟩
  · intro hwrap
    rw [h.aborted_iff.mpr hwrap]
    rfl
  · intro hfit hwrap
    obtain ⟨r, hr⟩ := h.refused_iff.mpr ⟨hfit, hwrap⟩
    exact ⟨r, by rw [hr]; rfl⟩

/-- **A machine-word sum before the growth**: the whole also aborts when the sum wraps. The
growth must need the sum below the limit to fit. -/
theorem wordSum_bind {n k : Nat} {f : Nat → Except Stop α}
    (h : n + k < wordLimit → EndsBy (f (n + k)) fits wraps) (hfits : fits → n + k < wordLimit) :
    EndsBy (Capacity.wordSum n k >>= f) fits (wordLimit ≤ n + k ∨ wraps) := by
  by_cases hlt : n + k < wordLimit
  · rw [Capacity.wordSum_of_lt hlt]
    exact (h hlt).of_iff Iff.rfl ⟨.inr, fun hw => hw.resolve_left (Nat.not_le.mpr hlt)⟩
  · rw [Capacity.wordSum_of_le (Nat.le_of_not_lt hlt)]
    apply of_cases
    · intro hfit
      exact absurd (hfits hfit) hlt
    · intro _
      rfl
    · intro _ hwrap
      exact absurd (.inl (Nat.le_of_not_lt hlt)) hwrap

end EndsBy

/-! ### Packed lists -/

namespace PackedList

variable {l l' : PackedList} {m : Nat}

/-- A word count that fits under `maxCapacity` comes from a bit count well below `2 ^ 64`. -/
theorem bits_lt_of_wordsFor_le (h : l.wordsFor m ≤ maxCapacity) :
    m * l.width + 63 < wordLimit := by
  unfold wordsFor at h
  rw [Capacity.maxCapacity_eq] at h
  rw [Capacity.wordLimit_eq]
  omega

/-- **Reserving storage for `m` items** succeeds exactly when their words fit under
`maxCapacity`, and aborts exactly when their bit count rounds past the largest word. -/
theorem reserveFor_endsBy (hl : l.reserved ≤ maxCapacity) :
    EndsBy (l.reserveFor m) (l.wordsFor m ≤ maxCapacity) (RoundsPastWord (m * l.width)) := by
  apply EndsBy.of_cases
  · intro hfit
    have hsum := bits_lt_of_wordsFor_le hfit
    unfold reserveFor
    rw [if_neg (by omega), Capacity.wordSum_of_lt hsum]
    simp only [bind, Except.bind, pure, Except.pure]
    split
    · exact ⟨_, rfl⟩
    · obtain ⟨g, hg, -⟩ := Capacity.grow_of_le (c := l.reserved) hfit
      unfold wordsFor at hg
      rw [hg]
      exact ⟨_, rfl⟩
  · rintro ⟨hlt, hle⟩
    unfold reserveFor
    rw [if_neg (Nat.not_le.mpr hlt), Capacity.wordSum_of_le hle]
    rfl
  · intro hfit hwrap
    unfold reserveFor
    -- a bit count past the largest word is refused before it is rounded; any other one rounds
    -- safely, and the sizing rule refuses its word count, which is past what the list reserved
    by_cases hbits : wordLimit ≤ m * l.width
    · exact ⟨m, if_pos hbits⟩
    · have hsum : m * l.width + 63 < wordLimit := by
        unfold RoundsPastWord at hwrap
        omega
      rw [if_neg hbits, Capacity.wordSum_of_lt hsum]
      simp only [bind, Except.bind, pure, Except.pure]
      unfold wordsFor at hfit
      rw [if_neg (by omega), Capacity.grow_of_lt (Nat.lt_of_not_le hfit)]
      exact ⟨_, rfl⟩

/-- **Reserving room for `n` more items** ends as reserving storage for `len + n` items: a
total past the largest word needs far more words than fit, and its bit count does not round
past the word. -/
theorem reserve_endsBy (hw : 0 < l.width) (hl : l.reserved ≤ maxCapacity) (n : Nat) :
    EndsBy (l.reserve n) (l.wordsFor (l.len + n) ≤ maxCapacity)
      (RoundsPastWord ((l.len + n) * l.width)) := by
  unfold reserve
  split
  · rename_i hover
    have hscale : l.len + n ≤ (l.len + n) * l.width := Nat.le_mul_of_pos_right _ hw
    apply EndsBy.of_cases
    · intro hfit
      exact absurd (bits_lt_of_wordsFor_le hfit) (by omega)
    · rintro ⟨hlt, -⟩
      exact absurd hlt (by omega)
    · intro _ _
      exact ⟨_, rfl⟩
  · exact reserveFor_endsBy hl

/-- Growing to `n` items ends as reserving storage for them. -/
theorem growTo_endsBy (hl : l.reserved ≤ maxCapacity) (n : Nat) :
    EndsBy (l.growTo n) (l.wordsFor n ≤ maxCapacity) (RoundsPastWord (n * l.width)) :=
  (reserveFor_endsBy hl).bind_ok fun _ => ⟨_, rfl⟩

/-- **Writing past the end** at `i` ends as growing to `i + 1` items, and also aborts when
`i + 1` wraps. -/
theorem set_endsBy (hw : 0 < l.width) (hl : l.reserved ≤ maxCapacity) {i : Nat} (hi : l.len ≤ i)
    (v : UInt64) :
    EndsBy (l.set i v) (l.wordsFor (i + 1) ≤ maxCapacity)
      (wordLimit ≤ i + 1 ∨ RoundsPastWord ((i + 1) * l.width)) := by
  unfold PackedList.set
  rw [if_pos hi]
  have hfits : l.wordsFor (i + 1) ≤ maxCapacity → i + 1 < wordLimit := by
    intro hfit
    have hscale : i + 1 ≤ (i + 1) * l.width := Nat.le_mul_of_pos_right _ hw
    have := bits_lt_of_wordsFor_le hfit
    omega
  exact EndsBy.wordSum_bind (fun _ => (growTo_endsBy hl (i + 1)).bind_ok fun _ => ⟨_, rfl⟩)
    hfits

/-- Inserting past the end is writing there. -/
theorem insert_of_le {i : Nat} (hi : l.len ≤ i) (v : UInt64) : l.insert i v = l.set i v :=
  if_pos hi

/-! #### The storage bound -/

theorem reserveFor_reserved_le (hl : l.reserved ≤ maxCapacity) (hr : l.reserveFor m = .ok l') :
    l'.reserved ≤ maxCapacity := by
  rcases reserveFor_ok_cases hr with ⟨-, rfl⟩ | ⟨-, g, hg, rfl⟩
  · exact hl
  · exact Capacity.le_maxCapacity_of_grow hg

theorem growTo_reserved_le (hl : l.reserved ≤ maxCapacity) (hg : l.growTo m = .ok l') :
    l'.reserved ≤ maxCapacity := by
  obtain ⟨l₁, hr, hg⟩ := ok_of_bind_ok hg
  cases hg
  split <;> simpa using reserveFor_reserved_le hl hr

theorem set_reserved_le (hl : l.reserved ≤ maxCapacity) {i : Nat} {v : UInt64}
    (hs : l.set i v = .ok l') : l'.reserved ≤ maxCapacity := by
  unfold PackedList.set at hs
  split at hs
  · obtain ⟨n, -, hs₁⟩ := ok_of_bind_ok hs
    obtain ⟨l₁, hg, hs₂⟩ := ok_of_bind_ok hs₁
    cases hs₂
    show l₁.reserved ≤ maxCapacity
    exact growTo_reserved_le hl hg
  · cases hs
    exact hl

theorem insert_reserved_le (hl : l.reserved ≤ maxCapacity) {i : Nat} {v : UInt64}
    (hs : l.insert i v = .ok l') : l'.reserved ≤ maxCapacity := by
  unfold PackedList.insert at hs
  split at hs
  · exact set_reserved_le hl hs
  · obtain ⟨l₁, hr, hs⟩ := ok_of_bind_ok hs
    cases hs
    show l₁.reserved ≤ maxCapacity
    exact reserveFor_reserved_le hl hr

theorem reserve_reserved_le (hl : l.reserved ≤ maxCapacity) {n : Nat}
    (hr : l.reserve n = .ok l') : l'.reserved ≤ maxCapacity := by
  unfold reserve at hr
  split at hr
  · cases hr
  · exact reserveFor_reserved_le hl hr

theorem foldlM_add_reserved_le (hl : l.reserved ≤ maxCapacity) {vs : List UInt64}
    (he : vs.foldlM (fun l v => l.add v) l = .ok l') : l'.reserved ≤ maxCapacity := by
  induction vs generalizing l with
  | nil =>
    cases he
    exact hl
  | cons v vs ih =>
    rw [List.foldlM_cons] at he
    obtain ⟨l₁, hadd, hrest⟩ := ok_of_bind_ok he
    exact ih (set_reserved_le hl hadd) hrest

@[simp] theorem reserved_erase (l : PackedList) (i : Nat) : (l.erase i).reserved = l.reserved := by
  unfold PackedList.erase
  split <;> rfl

/-- A removal keeps the storage. -/
theorem removeAt_reserved {i : Nat} {v : UInt64} (hr : l.removeAt i = .ok (v, l')) :
    l'.reserved = l.reserved := by
  obtain ⟨w, -, hr⟩ := ok_of_bind_ok hr
  cases hr
  exact reserved_erase l i

theorem removeValue_reserved {v : UInt64} {b : Bool} (hr : l.removeValue v = .ok (b, l')) :
    l'.reserved = l.reserved := by
  unfold PackedList.removeValue at hr
  split at hr
  · obtain ⟨⟨w, l₁⟩, hra, hr⟩ := ok_of_bind_ok hr
    cases hr
    exact removeAt_reserved hra
  · cases hr
    rfl

/-- **Every operation keeps the storage within `maxCapacity` words**: a growth takes what the
sizing rule gives, and fitting shrinks the storage to the words the items need. -/
theorem Op.run_reserved_le (h : l.Stored) (hl : l.reserved ≤ maxCapacity) {op : Op}
    {a : Answer} (hr : op.run l = .ok (a, l')) : l'.reserved ≤ maxCapacity := by
  cases op with
  | set i v => exact set_reserved_le hl (done_of_map_ok hr).2
  | add v => exact set_reserved_le hl (done_of_map_ok hr).2
  | insert i v => exact insert_reserved_le hl (done_of_map_ok hr).2
  | removeAt i =>
    obtain ⟨⟨v, l₁⟩, hs, he⟩ := ok_of_map_ok hr
    cases he
    rw [removeAt_reserved (ok_of_mapError_ok hs)]
    exact hl
  | removeValue v =>
    obtain ⟨⟨b, l₁⟩, hs, he⟩ := ok_of_map_ok hr
    cases he
    rw [removeValue_reserved (ok_of_mapError_ok hs)]
    exact hl
  | pop =>
    cases hr
    unfold PackedList.pop
    split <;> exact hl
  | setLen n =>
    have hs := (done_of_map_ok hr).2
    unfold PackedList.setLen at hs
    split at hs
    · exact growTo_reserved_le hl hs
    · cases hs
      exact hl
  | clear =>
    cases hr
    exact hl
  | fit =>
    cases hr
    exact Nat.le_trans h.room hl
  | reserve n => exact reserve_reserved_le hl (done_of_map_ok hr).2
  | extend vs =>
    obtain ⟨l₁, hres, hadd⟩ := ok_of_bind_ok (done_of_map_ok hr).2
    exact foldlM_add_reserved_le (reserve_reserved_le hl hres) hadd

/-- Every reachable list reserves at most `maxCapacity` words. -/
theorem Reachable.reserved_le (h : l.Reachable) : l.reserved ≤ maxCapacity := by
  induction h with
  | new hnew =>
    unfold new? at hnew
    split at hnew
    · cases hnew
      exact Nat.zero_le _
    · cases hnew
  | withDefault d hnew =>
    unfold new? at hnew
    split at hnew
    · cases hnew
      exact Nat.zero_le _
    · cases hnew
  | step op hreach hrun ih => exact Op.run_reserved_le hreach.stored ih hrun

/-- A reservation that succeeds keeps the items and leaves room for `n` more. -/
theorem reserve_ok (hw : 0 < l.width) {n : Nat} (hr : l.reserve n = .ok l') :
    l'.toList = l.toList ∧ l.len + n ≤ l'.capacity := by
  unfold reserve at hr
  split at hr
  · cases hr
  · have hroom := (reserveFor_room hr).2
    obtain ⟨r, rfl⟩ := reserveFor_ok hr
    exact ⟨rfl, le_capacity_of_wordsFor_le hw hroom⟩

/-- A write past the end pads with the default up to the position. -/
theorem set_ok_of_le (h : l.Valid) {i : Nat} (hi : l.len ≤ i) {v : UInt64}
    (hs : l.set i v = .ok l') :
    l'.toList = l.toList ++ List.replicate (i - l.len) l.default ++ [v &&& l.mask] := by
  rw [(becomes_set h hs).toList_eq, setItem, if_neg (by simpa using hi), length_toList]

end PackedList

/-! ### Lists of bits -/

namespace BitList

variable {l l' : BitList} {n : Nat}

theorem setLen_of_wraps (h : wordLimit ≤ n + 63) :
    l.setLen n = .error (.aborted .wordOverflow) := by
  unfold setLen
  rw [Capacity.wordSum_of_le h]
  rfl

/-- **Setting the length to `n` bits** succeeds exactly when their words fit under
`maxCapacity`, and aborts exactly when rounding `n` up to words wraps. -/
theorem setLen_endsBy (hl : l.reserved ≤ maxCapacity) (n : Nat) :
    EndsBy (l.setLen n) (wordsFor n ≤ maxCapacity) (wordLimit ≤ n + 63) := by
  apply EndsBy.of_cases
  · intro hfit
    have hsum : n + 63 < wordLimit := by
      unfold wordsFor at hfit
      rw [Capacity.maxCapacity_eq] at hfit
      rw [Capacity.wordLimit_eq]
      omega
    unfold setLen
    rw [Capacity.wordSum_of_lt hsum]
    simp only [bind, Except.bind, pure, Except.pure]
    split
    · obtain ⟨g, hg, -⟩ := Capacity.grow_of_le (c := l.reserved) hfit
      unfold wordsFor at hg
      rw [hg]
      simp only [Except.mapError]
      split <;> exact ⟨_, rfl⟩
    · split <;> exact ⟨_, rfl⟩
  · exact setLen_of_wraps
  · intro hfit hwrap
    unfold setLen
    rw [Capacity.wordSum_of_lt (Nat.lt_of_not_le hwrap)]
    simp only [bind, Except.bind, pure, Except.pure]
    unfold wordsFor at hfit
    rw [if_pos (by omega), Capacity.grow_of_lt (Nat.lt_of_not_le hfit)]
    exact ⟨_, rfl⟩

/-- **Setting bit `i` past the end** ends as setting the length to `i + 1` bits. -/
theorem set_endsBy (hl : l.reserved ≤ maxCapacity) {i : Nat} (hi : l.len ≤ i) (b : Bool) :
    EndsBy (l.set i b) (wordsFor (i + 1) ≤ maxCapacity) (wordLimit ≤ i + 1 + 63) := by
  unfold BitList.set
  rw [if_pos hi]
  have hfits : wordsFor (i + 1) ≤ maxCapacity → i + 1 < wordLimit := by
    intro hfit
    unfold wordsFor at hfit
    rw [Capacity.maxCapacity_eq] at hfit
    rw [Capacity.wordLimit_eq]
    omega
  exact (EndsBy.wordSum_bind (fun _ => (setLen_endsBy hl (i + 1)).bind_ok fun _ => ⟨_, rfl⟩)
    hfits).of_iff Iff.rfl ⟨fun h => h.elim (by omega) id, .inr⟩

/-- Inserting past the end is setting there. -/
theorem insert_of_le {i : Nat} (hi : l.len ≤ i) (b : Bool) : l.insert i b = l.set i b :=
  if_pos hi

/-! #### The storage bound -/

theorem setLen_reserved_le (hl : l.reserved ≤ maxCapacity) (hs : l.setLen n = .ok l') :
    l'.reserved ≤ maxCapacity := by
  simp only [setLen, bind, Except.bind, pure, Except.pure] at hs
  split at hs
  · cases hs
  · split at hs
    · split at hs
      · cases hs
      · rename_i g hg
        have hle := Capacity.le_maxCapacity_of_grow (ok_of_mapError_ok hg)
        split at hs <;> (cases hs; exact hle)
    · split at hs <;> (cases hs; exact hl)

theorem set_reserved_le (hl : l.reserved ≤ maxCapacity) {i : Nat} {b : Bool}
    (hs : l.set i b = .ok l') : l'.reserved ≤ maxCapacity := by
  obtain ⟨l₁, hgrow, rfl⟩ := set_shape hs
  show l₁.reserved ≤ maxCapacity
  split at hgrow
  · exact setLen_reserved_le hl hgrow
  · subst hgrow
    exact hl

theorem insert_reserved_le (hl : l.reserved ≤ maxCapacity) {i : Nat} {b : Bool}
    (hs : l.insert i b = .ok l') : l'.reserved ≤ maxCapacity := by
  unfold BitList.insert at hs
  split at hs
  · exact set_reserved_le hl hs
  · obtain ⟨l₁, hgrow, hs⟩ := ok_of_bind_ok hs
    dsimp only at hs
    refine set_reserved_le ?_ hs
    show l₁.reserved ≤ maxCapacity
    exact setLen_reserved_le hl hgrow

/-- Every operation keeps the storage within `maxCapacity` words. -/
theorem Op.run_reserved_le (hl : l.reserved ≤ maxCapacity) {op : Op} {a : Option Bool}
    (hr : op.run l = .ok (a, l')) : l'.reserved ≤ maxCapacity := by
  cases op with
  | set i b => exact set_reserved_le hl (none_of_map_ok hr).2
  | add b => exact set_reserved_le hl (none_of_map_ok hr).2
  | insert i b => exact insert_reserved_le hl (none_of_map_ok hr).2
  | removeAt i =>
    obtain ⟨⟨b, l₁⟩, hs, he⟩ := ok_of_map_ok hr
    cases he
    have hs := ok_of_mapError_ok hs
    unfold BitList.removeAt at hs
    split at hs
    · cases hs
    · cases hs
      exact hl
  | setLen n => exact setLen_reserved_le hl (none_of_map_ok hr).2
  | clear =>
    cases hr
    exact hl

/-- Every reachable list of bits reserves at most `maxCapacity` words. -/
theorem Reachable.reserved_le (h : l.Reachable) : l.reserved ≤ maxCapacity := by
  induction h with
  | empty => exact Nat.zero_le _
  | step op _ hrun ih => exact Op.run_reserved_le ih hrun

/-- A write past the end pads with clear bits up to the position. -/
theorem set_toList_of_le (h : l.Valid) {i : Nat} (hi : l.len ≤ i) {b : Bool}
    (hs : l.set i b = .ok l') : l'.toList = l.toList ++ List.replicate (i - l.len) false ++ [b] := by
  rw [(set_toList h hs).2, setPadded, if_neg (by simpa using hi), length_toList]

end BitList

/-! ### Lists with absent positions -/

namespace NullList

variable {S α : Type} [DenseStore S α] {l l' : NullList S} {i : Nat}

/-- **Writing past the end aborts** when `i + 1` presence bits round past the largest word: the
presence bits grow before anything else happens. -/
theorem set_of_wraps (hi : l.len ≤ i) (h : wordLimit ≤ i + 1 + 63) (v : Option α) :
    l.set i v = .error (.aborted .wordOverflow) := by
  unfold NullList.set
  rw [if_pos hi]
  by_cases hsum : wordLimit ≤ i + 1
  · rw [Capacity.wordSum_of_le hsum]
    rfl
  · rw [Capacity.wordSum_of_lt (Nat.lt_of_not_le hsum)]
    simp only [bind, Except.bind]
    rw [BitList.setLen_of_wraps h]

theorem insert_of_wraps (hi : l.len ≤ i) (h : wordLimit ≤ i + 1 + 63) (v : Option α) :
    l.insert i v = .error (.aborted .wordOverflow) := by
  unfold NullList.insert
  rw [if_pos hi, set_of_wraps hi h]
  rfl

/-- A write past the end extends the list to `i + 1` positions. -/
theorem len_of_set_of_le [LawfulDenseStore S α] {xs : List (Option α)}
    (h : l.cells.Represents xs) (hi : l.len ≤ i) {v prev : Option α}
    (hs : l.set i v = .ok (prev, l')) : l'.len = i + 1 := by
  obtain ⟨-, hr, -⟩ := set_ok h hs
  rw [len_eq hr, Dense.length_setPadded, ← len_eq h]
  omega

end NullList

/-! ### Every growth past the end -/

section Growth

variable {S α : Type} [DenseStore S α] [LawfulDenseStore S α]

/-- **How every growth of a reachable list ends.** Reserving room for `n` more items in a packed
list succeeds exactly when the words for `len + n` items fit under `maxCapacity`, and then keeps
the items and leaves room for all of them; it aborts exactly when their bit count rounds past the
largest word, and is refused as a capacity overflow otherwise. Writing past the end of a packed
list or of a list of bits, where inserting is writing, ends the same way for `i + 1` items and
also aborts when `i + 1` itself wraps; when it succeeds it pads up to the position. A list with
absent positions grows its presence bits first, so it aborts the same way, and otherwise reaches
`i + 1` positions. -/
theorem growth_endsBy :
    (∀ l : PackedList, l.Reachable → ∀ n : Nat,
      EndsBy (l.reserve n) (l.wordsFor (l.len + n) ≤ maxCapacity)
          (RoundsPastWord ((l.len + n) * l.width)) ∧
        ∀ l', l.reserve n = .ok l' → l'.toList = l.toList ∧ l.len + n ≤ l'.capacity) ∧
    (∀ l : PackedList, l.Reachable → ∀ i v, l.len ≤ i →
      EndsBy (l.set i v) (l.wordsFor (i + 1) ≤ maxCapacity)
          (wordLimit ≤ i + 1 ∨ RoundsPastWord ((i + 1) * l.width)) ∧
        l.insert i v = l.set i v ∧
        ∀ l', l.set i v = .ok l' →
          l'.toList = l.toList ++ List.replicate (i - l.len) l.default ++ [v &&& l.mask]) ∧
    (∀ l : BitList, l.Reachable → ∀ i b, l.len ≤ i →
      EndsBy (l.set i b) (BitList.wordsFor (i + 1) ≤ maxCapacity) (wordLimit ≤ i + 1 + 63) ∧
        l.insert i b = l.set i b ∧
        ∀ l', l.set i b = .ok l' →
          l'.toList = l.toList ++ List.replicate (i - l.len) false ++ [b]) ∧
    (∀ l : NullList S, l.Reachable → ∀ i (v : Option α), l.len ≤ i →
      (wordLimit ≤ i + 1 + 63 → l.set i v = .error (.aborted .wordOverflow) ∧
          l.insert i v = .error (.aborted .wordOverflow)) ∧
        ∀ prev l', l.set i v = .ok (prev, l') → l'.len = i + 1) := by
  refine ⟨fun l h n => ?_, fun l h i v hi => ?_, fun l h i b hi => ?_, fun l h i v hi => ?_⟩
  · have hw := h.valid.width_pos
    exact ⟨PackedList.reserve_endsBy hw h.reserved_le n, fun _ hr => PackedList.reserve_ok hw hr⟩
  · exact ⟨PackedList.set_endsBy h.valid.width_pos h.reserved_le hi v,
      PackedList.insert_of_le hi v, fun _ hs => PackedList.set_ok_of_le h.valid hi hs⟩
  · exact ⟨BitList.set_endsBy h.reserved_le hi b, BitList.insert_of_le hi b,
      fun _ hs => BitList.set_toList_of_le h.valid hi hs⟩
  · exact ⟨fun hw => ⟨NullList.set_of_wraps hi hw v, NullList.insert_of_wraps hi hw v⟩,
      fun _ _ hs => NullList.len_of_set_of_le h.represents hi hs⟩

/-- At the largest positions, the empty lists: a packed list of one-bit items finds room for a
thousand more, and a write at `2 ^ 64 - 64` aborts, since `2 ^ 64 - 63` bits round past the
word; so do setting the last position of a list of bits and of a list of absent positions over
an array. -/
theorem empty_growth_endsBy :
    (⟨#[], 0, 0, 1, 0⟩ : PackedList).Reachable ∧ BitList.empty.Reachable ∧
      (NullList.ofStore (#[] : Array Int)).Reachable ∧
      (∃ l', (⟨#[], 0, 0, 1, 0⟩ : PackedList).reserve 1000 = .ok l') ∧
      (⟨#[], 0, 0, 1, 0⟩ : PackedList).set (wordLimit - 64) 1 = .error (.aborted .wordOverflow) ∧
      BitList.empty.set (wordLimit - 1) true = .error (.aborted .wordOverflow) ∧
      (NullList.ofStore (#[] : Array Int)).set (wordLimit - 1) (some 5) =
        .error (.aborted .wordOverflow) :=
  have hp : (⟨#[], 0, 0, 1, 0⟩ : PackedList).Reachable :=
    .new (show PackedList.new? 1 = .ok ⟨#[], 0, 0, 1, 0⟩ from rfl)
  have hb : BitList.empty.Reachable := .empty
  have hn : (NullList.ofStore (#[] : Array Int)).Reachable := .ofStore trivial
  have hg := growth_endsBy (S := Array Int)
  ⟨hp, hb, hn, (hg.1 _ hp 1000).1.ok_iff.mpr (by decide),
    (hg.2.1 _ hp _ 1 (by decide)).1.aborted_iff.mpr (.inr (by decide)),
    (hg.2.2.1 _ hb _ true (by decide)).1.aborted_iff.mpr (by decide),
    ((hg.2.2.2 _ hn _ (some 5) (by decide)).1 (by decide)).1⟩

end Growth

/-- **A growth that aborts where it should be refused.** An empty packed list of one-bit items,
asked for room for `2 ^ 64 - 1` more, needs `2 ^ 58` words, far more than `maxCapacity`; yet
the request is not refused as a capacity overflow: its bit count lies in the last 63 below
`2 ^ 64`, and rounding it up to words aborts. Setting the last position of an empty list of bits
needs as many words and aborts the same way, on `i + 1`. -/
theorem growth_aborts_near_wordLimit :
    PackedList.new? 1 = .ok ⟨#[], 0, 0, 1, 0⟩ ∧
      maxCapacity < (⟨#[], 0, 0, 1, 0⟩ : PackedList).wordsFor (wordLimit - 1) ∧
      (⟨#[], 0, 0, 1, 0⟩ : PackedList).reserve (wordLimit - 1) = .error (.aborted .wordOverflow) ∧
      maxCapacity < BitList.wordsFor wordLimit ∧
      BitList.empty.set (wordLimit - 1) true = .error (.aborted .wordOverflow) ∧
      Abort.message .wordOverflow = "attempt to add with overflow" :=
  ⟨rfl, by decide, rfl, by decide, rfl, rfl⟩

end CompactCollections
