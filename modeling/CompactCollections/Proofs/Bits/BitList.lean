import CompactCollections.Proofs.Bits.Scan
import CompactCollections.Proofs.Except
import CompactCollections.Bits.BitList
/-!
# The bits of a bit list

A bit list is valid (`CompactCollections.BitList.Valid`) when every stream bit from its length
on is clear; its bit `q` (`CompactCollections.BitList.get`) is then the stream bit `q`. Every
writing operation keeps a valid list valid, and this file says what each does to every bit:

* a write sets its own bit, first growing the list to reach it; truncating clears the dropped
  bits, and growing reads the clear bits past the old length;
* an insertion moves the later bits up by one place, a removal moves them down;
* the rank of a position counts the set bits up to it, the cardinality all of them
  (`CompactCollections.BitList.Valid.rank_eq`, `CompactCollections.BitList.Valid.cardinality_eq`);
* the four scans find the nearest set or clear bit below the length.

Each bit is read through its stream bit, so every fact here comes from what the word operations
do to single stream bits.
-/

namespace CompactCollections.BitList

open CompactCollections.Stream

/-- **A valid bit list**: every stream bit from the length on is clear. -/
def Valid (l : BitList) : Prop :=
  ∀ p, l.len ≤ p → testBit l.words p = false

variable {l l' : BitList}

theorem get_of_le {q : Nat} (hq : l.len ≤ q) : l.get q = false := by
  simp [get, Nat.not_lt.mpr hq]

/-- In a valid list, bit `q` is the stream bit `q`. -/
theorem Valid.get_eq (h : l.Valid) (q : Nat) : l.get q = testBit l.words q := by
  by_cases hq : q < l.len
  · simp [get, hq]
  · rw [get_of_le (by omega), h q (by omega)]

/-! ### Counting -/

/-- **The cardinality of a valid list is the number of its set bits.** -/
theorem Valid.cardinality_eq (h : l.Valid) : l.cardinality = (List.range l.len).countP l.get := by
  rw [cardinality, foldl_popCount]
  -- past the length and past the words every stream bit is clear
  have hcount : (List.range (64 * l.words.size)).countP (testBit l.words) =
      (List.range l.len).countP (testBit l.words) := by
    rcases Nat.le_total l.len (64 * l.words.size) with hle | hle
    · exact countP_range_eq hle fun p hp _ => h p hp
    · exact (countP_range_eq hle fun p hp _ => testBit_of_size_le hp).symm
  rw [hcount]
  exact List.countP_congr fun q _ => by rw [h.get_eq]

/-- **The rank of a position in a valid list counts the set bits up to it**, also at or past the
end. -/
theorem Valid.rank_eq (h : l.Valid) (i : Nat) : l.rank i = (List.range (i + 1)).countP l.get := by
  unfold rank
  split
  · rename_i hi
    rw [h.cardinality_eq, countP_range_eq (show l.len ≤ i + 1 by omega) fun p hp _ => get_of_le hp]
  · rw [countP_testBit_succ]
    exact List.countP_congr fun q _ => by rw [h.get_eq]

/-! ### Writing -/

/-- What setting the length leaves, whenever it succeeds: the new length, and the words cleared
from it on when it truncates. -/
theorem setLen_shape {n : Nat} (hs : l.setLen n = .ok l') : l'.len = n ∧
    l'.words = if n < l.len then clearRange l.words n (64 * l.words.size) else l.words := by
  simp only [setLen, bind, Except.bind, pure, Except.pure] at hs
  -- the word count, then the room, each of which may fail
  split at hs
  · cases hs
  · split at hs
    · split at hs
      · cases hs
      · split at hs <;> cases hs <;> simp [*]
    · split at hs <;> cases hs <;> simp [*]

/-- **Setting the length** truncates, clearing the bits it drops, or grows with clear bits. -/
theorem setLen_ok (h : l.Valid) {n : Nat} (hs : l.setLen n = .ok l') :
    l'.Valid ∧ l'.len = n ∧ ∀ q, l'.get q = (decide (q < n) && l.get q) := by
  obtain ⟨hlen, hwords⟩ := setLen_shape hs
  have hget : ∀ q, l'.get q = (decide (q < n) && testBit l'.words q) := by
    intro q
    rw [get, hlen]
  split at hwords
  · -- truncating clears the stream from the new length to the end of the words
    have hbit : ∀ p, testBit l'.words p = (decide (p < n) && testBit l.words p) := by
      intro p
      rw [hwords, testBit_clearRange]
      by_cases hp : p < n
      · simp [hp]
      · by_cases hsize : p < 64 * l.words.size
        · simp [hp, hsize]
        · simp [hp, hsize, testBit_of_size_le (Nat.le_of_not_lt hsize)]
    refine ⟨fun p hp => ?_, hlen, fun q => ?_⟩
    · rw [hbit]
      simp [show ¬p < n by omega]
    · rw [hget, hbit, h.get_eq]
      cases decide (q < n) <;> rfl
  · -- growing keeps the words, whose bits past the old length are clear
    rename_i hn
    refine ⟨fun p hp => ?_, hlen, fun q => ?_⟩
    · rw [hwords]
      exact h p (by omega)
    · rw [hget, hwords, h.get_eq]

/-- What setting a bit leaves, whenever it succeeds: the list, grown to `i + 1` bits when `i` is
at or past the end, with the stream bit `i` written. -/
theorem set_shape {i : Nat} {b : Bool} (hs : l.set i b = .ok l') :
    ∃ l₁ : BitList, (if l.len ≤ i then l.setLen (i + 1) = .ok l₁ else l₁ = l) ∧
      l' = { l₁ with words := writeBit l₁.words i b } := by
  simp only [BitList.set, bind, Except.bind, pure, Except.pure] at hs
  split at hs
  · rename_i hi
    split at hs
    · cases hs
    · rename_i n hn
      cases Capacity.wordSum_ok hn
      split at hs
      · cases hs
      · rename_i l₁ hgrow
        cases hs
        exact ⟨l₁, by rw [if_pos hi]; exact hgrow, rfl⟩
  · rename_i hi
    cases hs
    exact ⟨l, by rw [if_neg hi], rfl⟩

/-- **Setting bit `i`** writes it, first growing the list to `i + 1` bits when `i` is at or past
the end. -/
theorem set_ok (h : l.Valid) {i : Nat} {b : Bool} (hs : l.set i b = .ok l') :
    l'.Valid ∧ l'.len = max l.len (i + 1) ∧ ∀ q, l'.get q = if q = i then b else l.get q := by
  obtain ⟨l₁, hgrow, rfl⟩ := set_shape hs
  -- the list before the write: `l`, or `l` grown to reach `i`
  have hl₁ : l₁.Valid ∧ l₁.len = max l.len (i + 1) ∧ i < l₁.len ∧ ∀ q, l₁.get q = l.get q := by
    split at hgrow
    · rename_i hi
      obtain ⟨hv, hlen, hget⟩ := setLen_ok h hgrow
      refine ⟨hv, by omega, by omega, fun q => ?_⟩
      rw [hget]
      by_cases hq : q < i + 1
      · simp [hq]
      · simp [hq, get_of_le (show l.len ≤ q by omega)]
    · subst hgrow
      exact ⟨h, by omega, by omega, fun _ => rfl⟩
  obtain ⟨hv, hlen, hi, hget⟩ := hl₁
  refine ⟨fun p hp => ?_, hlen, fun q => ?_⟩
  · show testBit (writeBit l₁.words i b) p = false
    rw [testBit_writeBit, if_neg (by simp at hp; omega)]
    exact hv p hp
  · show (decide (q < l₁.len) && testBit (writeBit l₁.words i b) q) = _
    rw [testBit_writeBit, ← hget]
    by_cases hq : q = i
    · subst hq
      simp [hi]
    · simp only [hq, if_false]
      rfl

/-- Clearing bit `i` clears it and keeps the others and the length. -/
theorem clearBit_spec (h : l.Valid) (i : Nat) :
    (l.clearBit i).Valid ∧ (l.clearBit i).len = l.len ∧
      ∀ q, (l.clearBit i).get q = (decide (q ≠ i) && l.get q) := by
  unfold clearBit
  split
  · refine ⟨fun p hp => ?_, rfl, fun q => ?_⟩
    · show testBit (writeBit l.words i false) p = false
      rw [testBit_writeBit]
      split
      · rfl
      · exact h p hp
    · show (decide (q < l.len) && testBit (writeBit l.words i false) q) = _
      rw [testBit_writeBit]
      by_cases hq : q = i
      · simp [hq]
      · simp only [hq, if_false]
        simp [get, hq]
  · rename_i hi
    refine ⟨h, rfl, fun q => ?_⟩
    by_cases hq : q = i
    · subst hq
      simp [get_of_le (show l.len ≤ q by omega)]
    · simp [hq]

/-! ### Carrying bits between words

The insertion and the removal walk up their words one at a time, each word passing a bit on to
its neighbour. Word by word, they leave what the shifts of the stream by one place leave
(`CompactCollections.Stream.word_shiftUp`, `CompactCollections.Stream.word_shiftDown`). -/

/-- **What the walk up has done after `k` steps**: each word it passed is shifted up one place,
the first keeping its bits under `keep` and the others taking the highest bit of the word below
as it was, and it carries the highest bit of the last word passed. -/
theorem foldl_carryUpStep (ws : Array UInt64) (first : Nat) (keep : UInt64) (k : Nat) :
    ((List.range' first k).foldl (carryUpStep first keep) (ws, 0)).2 =
        (if k = 0 then (0 : UInt64) else word ws (first + k - 1) >>> 63) ∧
      ∀ t, word ((List.range' first k).foldl (carryUpStep first keep) (ws, 0)).1 t =
        if first ≤ t ∧ t < first + k then
          if t = first then (word ws t &&& keep) ||| ((word ws t <<< 1) &&& ~~~keep)
          else (word ws t <<< 1) ||| (word ws (t - 1) >>> 63)
        else word ws t := by
  induction k with
  | zero => exact ⟨rfl, fun t => by rw [if_neg (by omega)]; rfl⟩
  | succ k ih =>
    obtain ⟨hcarry, hword⟩ := ih
    rw [List.range'_1_concat, List.foldl_append, List.foldl_cons, List.foldl_nil]
    -- the step at word `first + k` finds that word as it was
    have hold : word ((List.range' first k).foldl (carryUpStep first keep) (ws, 0)).1 (first + k) =
        word ws (first + k) := by
      rw [hword, if_neg (by omega)]
    refine ⟨?_, fun t => ?_⟩
    · simp only [carryUpStep]
      rw [hold, if_neg (Nat.succ_ne_zero k), show first + (k + 1) - 1 = first + k by omega]
    · simp only [carryUpStep, word_setWord, hold]
      by_cases ht : first + k = t
      · -- the word just rewritten: the first one, or one taking the carry from below
        subst ht
        have hin : first ≤ first + k ∧ first + k < first + (k + 1) := by omega
        by_cases hk : k = 0
        · subst hk
          simp
        · simp [hin, hk, hcarry]
      · rw [if_neg ht, hword]
        by_cases hin : first ≤ t ∧ t < first + k
        · rw [if_pos hin, if_pos (show first ≤ t ∧ t < first + (k + 1) by omega)]
        · rw [if_neg hin, if_neg (show ¬(first ≤ t ∧ t < first + (k + 1)) by omega)]

/-- **The walk up opens a one-bit gap**: word by word it leaves what the shift of the stream up
by one place from `i` leaves. -/
theorem word_carryUp (ws : Array UInt64) {i stop : Nat} (hi : i < stop) (t : Nat) :
    word (carryUp ws i ((stop - 1) / 64)) t = word (shiftUp ws i 1 stop) t := by
  rw [carryUp, (foldl_carryUpStep ws _ _ _).2, word_shiftUp]
  by_cases ht : t = i / 64
  · rw [if_pos ⟨by omega, by omega⟩, if_pos ht, if_pos ht, if_pos (by decide)]
    rfl
  · rw [if_neg ht, if_neg ht]
    by_cases hin : i / 64 < t ∧ t ≤ (stop - 1) / 64
    · rw [if_pos ⟨by omega, by omega⟩, if_pos hin, wordUp, if_neg (by decide), UInt64.or_comm]
      rfl
    · rw [if_neg (by omega), if_neg hin]

/-- **The walk down closes a one-bit gap**: word by word it leaves what the shift of the stream
down by one place onto `i` leaves. The bit carried into the word holding `i` is its highest, never
one of the bits below `i` that it keeps. -/
theorem word_carryDown (ws : Array UInt64) {i stop : Nat} (hi : i < stop) (t : Nat) :
    word (carryDown ws i ((stop - 1) / 64)) t = word (shiftDown ws i 1 stop) t := by
  unfold carryDown
  dsimp only
  rw [word_foldl_ahead (R := fun acc t => if t = i / 64 then
      (word acc t &&& lowBits (i % 64)) ||| ((word acc t >>> 1) &&& ~~~lowBits (i % 64)) |||
        (word acc (t + 1) <<< 63)
      else (word acc t >>> 1) ||| (word acc (t + 1) <<< 63))
    (fun _ _ t h => by rw [h t (Nat.le_refl t), h (t + 1) (Nat.le_succ t)]),
    word_shiftDown]
  -- the window one bit up is the word shifted down, topped with the lowest bit of the next
  have hwindow : window ws (64 * t + 1) = (word ws t >>> 1) ||| (word ws (t + 1) <<< 63) := by
    unfold window
    simp only [show (64 * t + 1) % 64 = 1 by omega, show (64 * t + 1) / 64 = t by omega]
    rfl
  by_cases ht : t = i / 64
  · rw [if_pos ⟨by omega, by omega⟩, if_pos ht, if_pos ht, hwindow]
    apply eq_of_bit_eq fun j hj => ?_
    have h63 : (63 : UInt64) = (63 : Nat).toUInt64 := rfl
    have h1 : (1 : UInt64) = (1 : Nat).toUInt64 := rfl
    rw [h63, h1]
    simp only [bit_or, bit_and, bit_not, bit_shiftLeft (show 63 < 64 by decide),
      bit_shiftRight (show 1 < 64 by decide), bit_lowBits (show i % 64 ≤ 64 by omega)]
    by_cases hj63 : 63 ≤ j
    · simp [hj, hj63, show ¬j < i % 64 by omega]
    · simp [hj63]
  · rw [if_neg ht, if_neg ht]
    by_cases hin : i / 64 < t ∧ t ≤ (stop - 1) / 64
    · rw [if_pos ⟨by omega, by omega⟩, if_pos hin, hwindow]
    · rw [if_neg (by omega), if_neg hin]

/-- **Inserting bit `b` at `i` within the length** moves the bits from `i` on up one place. -/
theorem insert_ok (h : l.Valid) {i : Nat} {b : Bool} (hi : i < l.len)
    (hs : l.insert i b = .ok l') :
    l'.Valid ∧ l'.len = l.len + 1 ∧
      ∀ q, l'.get q = if q < i then l.get q else if q = i then b else l.get (q - 1) := by
  unfold BitList.insert at hs
  rw [if_neg (by omega)] at hs
  obtain ⟨l₁, hgrow, hs⟩ := ok_of_bind_ok hs
  obtain ⟨-, hlen₁, -⟩ := setLen_ok h hgrow
  -- growing by one keeps the words
  have hwords : l₁.words = l.words := by
    rw [(setLen_shape hgrow).2, if_neg (by omega)]
  -- the gap opened: stale at `i`, moved up above it, clear past the new length
  have hbits : ∀ q, q ≠ i → testBit (carryUp l₁.words i ((l₁.len - 1) / 64)) q =
      if q < i then testBit l.words q else testBit l.words (q - 1) := by
    intro q hq
    rw [testBit_eq, word_carryUp _ (show i < l₁.len by omega), ← testBit_eq, hwords]
    by_cases hlt : q < i
    · rw [if_pos hlt, testBit_shiftUp_of_lt hlt]
    · rw [if_neg hlt]
      by_cases hin : q < 64 * ((l₁.len - 1) / 64 + 1)
      · exact testBit_shiftUp_of_le (Nat.le_refl 1) (by decide) (by omega) hin
      · -- above the words the shift rewrites, both bits lie past the length
        rw [testBit_shiftUp_of_ge (Nat.le_refl 1) (by omega) (by omega), h q (by omega),
          h (q - 1) (by omega)]
  have hv₂ : Valid { l₁ with words := carryUp l₁.words i ((l₁.len - 1) / 64) } := fun p hp => by
    change l₁.len ≤ p at hp
    rw [hbits p (by omega), if_neg (by omega)]
    exact h (p - 1) (by omega)
  obtain ⟨hv, hlen, hget⟩ := set_ok hv₂ hs
  refine ⟨hv, by rw [hlen]; change max l₁.len (i + 1) = _; omega, fun q => ?_⟩
  rw [hget]
  by_cases hq : q = i
  · simp [hq]
  · rw [if_neg hq, hv₂.get_eq, hbits q hq, h.get_eq, h.get_eq]
    by_cases hlt : q < i
    · simp [hlt]
    · simp [hlt, hq]

/-- **Removing bit `i`** returns it and moves the later bits down one place; it fails exactly at
or past the end. -/
theorem removeAt_ok (h : l.Valid) {i : Nat} {b : Bool} (hr : l.removeAt i = .ok (b, l')) :
    i < l.len ∧ b = l.get i ∧ l'.Valid ∧ l'.len = l.len - 1 ∧
      ∀ q, l'.get q = if q < i then l.get q else l.get (q + 1) := by
  unfold removeAt at hr
  split at hr
  · cases hr
  · rename_i hi
    simp only [Except.ok.injEq, Prod.mk.injEq] at hr
    obtain ⟨rfl, rfl⟩ := hr
    -- the stream after closing the bit: moved down from `i` on, within the words it rewrites
    have hmoved : ∀ q, q < l.len - 1 →
        testBit (carryDown l.words i ((l.len - 1) / 64)) q =
          if q < i then l.get q else l.get (q + 1) := by
      intro q hq
      rw [testBit_eq, word_carryDown _ (show i < l.len by omega), ← testBit_eq]
      by_cases hlt : q < i
      · rw [if_pos hlt, testBit_shiftDown_of_lt hlt, h.get_eq]
      · rw [if_neg hlt, testBit_shiftDown_of_le (by omega) (by omega), h.get_eq]
    refine ⟨by omega, rfl, fun p hp => ?_, rfl, fun q => ?_⟩
    · change l.len - 1 ≤ p at hp
      show testBit (clearRange _ _ _) p = false
      rw [testBit_clearRange]
      split
      · rfl
      · exact testBit_of_size_le (by omega)
    · show (decide (q < l.len - 1) && testBit (clearRange _ (l.len - 1) _) q) = _
      by_cases hq : q < l.len - 1
      · rw [testBit_clearRange, if_neg (by omega), hmoved q hq]
        simp [hq]
      · -- past the new length both sides are clear
        rw [if_neg (show ¬q < i by omega), get_of_le (show l.len ≤ q + 1 by omega)]
        simp [hq]

/-- Clearing empties the list. -/
theorem clear_spec (l : BitList) : l.clear.Valid ∧ l.clear.len = 0 ∧ ∀ q, l.clear.get q = false :=
  ⟨fun p _ => testBit_empty p, rfl, fun _ => get_of_le (Nat.zero_le _)⟩

/-! ### Nearest bits

The four scans search the bits for the nearest one equal to a given value. The view of the words
they scan turns on exactly the bits equal to it (`CompactCollections.BitList.Shows`): the words
as they are for set bits, their complement for clear ones. Read through the view, each word of a
scan is a step of a search of the stream (`CompactCollections.Stream.firstFrom_of_ne_zero`), and
the position found is answered only below the length. -/

/-- The least position from `i` on, below the length, holding `b`. -/
def nextWith (l : BitList) (b : Bool) (i : Nat) : Option Nat :=
  Search.firstFrom (fun q => l.get q == b) i (l.len - i)

/-- The greatest position at or below `i`, below the length, holding `b`. -/
def prevWith (l : BitList) (b : Bool) (i : Nat) : Option Nat :=
  if l.len = 0 then none else Search.lastUpTo (fun q => l.get q == b) (min i (l.len - 1))

/-- A view of the words that turns on exactly the bits equal to `b`. -/
def Shows (view : UInt64 → UInt64) (b : Bool) : Prop :=
  ∀ w, ∀ j < 64, bit (view w) j = (bit w j == b)

theorem shows_id : Shows id true := fun w j _ => by simp

theorem shows_complement : Shows (~~~ ·) false := fun w j hj => by simp [hj]

section Scan

variable {view : UInt64 → UInt64} {b : Bool}

/-- **The forward word scan finds the first stream bit `b` from bit `j` of word `t`**, through the
end of word `t + left`, when `bits` shows the bits of word `t` from `j` on; what it finds it
answers only below the length. -/
theorem scanUpWords_eq (hv : Shows view b) {t j : Nat} {bits : UInt64} (left : Nat) (hj : j < 64)
    (hbits : ∀ k < 64, bit bits k = (decide (j ≤ k) && (testBit l.words (64 * t + k) == b))) :
    l.scanUpWords view t bits left =
      (Search.firstFrom (fun q => testBit l.words q == b) (64 * t + j)
        (64 * (left + 1) - j)).filter (· < l.len) := by
  induction left generalizing t j bits with
  | zero =>
    unfold scanUpWords
    by_cases hne : bits = 0
    · -- no bit left in the last word
      rw [if_neg (by simp [hne]), show 64 * (0 + 1) - j = (64 - j) + 0 by omega,
        Search.firstFrom_skip fun r hr hr' =>
          eq_false_of_masked_eq_zero (p := fun q => testBit l.words q == b) hbits hne (by omega)
            (by omega) (decide_eq_true (by omega))]
      rfl
    · rw [if_pos (by simp [hne]), firstFrom_of_ne_zero hbits hne (by omega), Option.filter_some]
      simp
  | succ left ih =>
    unfold scanUpWords
    by_cases hne : bits = 0
    · -- no bit left in word `t`: go on from the next word, all of whose bits are left
      rw [if_neg (by simp [hne])]
      show l.scanUpWords view (t + 1) (view (word l.words (t + 1))) left = _
      rw [ih (j := 0) (by decide) fun k hk => by simp [hv _ k hk, bit_word _ _ hk],
        show 64 * (left + 1 + 1) - j = (64 - j) + 64 * (left + 1) by omega,
        Search.firstFrom_skip fun r hr hr' =>
          eq_false_of_masked_eq_zero (p := fun q => testBit l.words q == b) hbits hne (by omega)
            (by omega) (decide_eq_true (by omega)),
        show 64 * t + j + (64 - j) = 64 * (t + 1) + 0 by omega, Nat.sub_zero]
    · rw [if_pos (by simp [hne]), firstFrom_of_ne_zero hbits hne (by omega), Option.filter_some]
      simp

/-- **The forward scan through a view showing the bits `b` finds the first bit `b` from `i`**:
its own word masked from `i`, then whole words up to the one holding the last bit. -/
theorem scanForward_eq (hv : Shows view b) (i : Nat) : l.scanForward i view = l.nextWith b i := by
  unfold scanForward nextWith
  split
  · rename_i hi
    rw [show l.len - i = 0 by omega]
    rfl
  · rename_i hi
    have hmask : ∀ k < 64, bit (view (word l.words (i / 64)) &&& ~~~lowBits (i % 64)) k =
        (decide (i % 64 ≤ k) && (testBit l.words (64 * (i / 64) + k) == b)) := fun k hk => by
      rw [bit_and, bit_not, bit_lowBits (by omega), hv _ k hk, bit_word _ _ hk]
      by_cases hle : i % 64 ≤ k
      · simp [hle, hk, show ¬k < i % 64 by omega]
      · simp [hle, show k < i % 64 by omega]
    -- the words scanned reach past the length, where whatever is found is not answered
    have hcut := Search.filter_firstFrom_add (p := fun q => testBit l.words q == b) (i := i)
      (l.len - i) (64 * ((l.len - 1) / 64 - i / 64 + 1) - i % 64 - (l.len - i))
    rw [show i + (l.len - i) = l.len by omega,
      show l.len - i + (64 * ((l.len - 1) / 64 - i / 64 + 1) - i % 64 - (l.len - i)) =
        64 * ((l.len - 1) / 64 - i / 64 + 1) - i % 64 by omega] at hcut
    rw [scanUpWords_eq hv _ (Nat.mod_lt _ (by decide)) hmask,
      show 64 * (i / 64) + i % 64 = i by omega, hcut]
    -- below the length a bit is its stream bit
    exact Search.firstFrom_congr fun r _ hr => by simp [get, show r < l.len by omega]

/-- **The backward word scan finds the last stream bit `b` up to bit `j` of word `t`**, when
`bits` shows the bits of word `t` up to `j`. -/
theorem scanDownWords_eq (hv : Shows view b) {j : Nat} {bits : UInt64} (t : Nat) (hj : j < 64)
    (hbits : ∀ k < 64, bit bits k = (decide (k ≤ j) && (testBit l.words (64 * t + k) == b))) :
    l.scanDownWords view t bits =
      Search.lastUpTo (fun q => testBit l.words q == b) (64 * t + j) := by
  induction t generalizing j bits with
  | zero =>
    unfold scanDownWords
    by_cases hne : bits = 0
    · -- no bit left in word 0
      rw [if_neg (by simp [hne])]
      symm
      rw [Search.lastUpTo_eq_none_iff]
      exact fun r hr =>
        eq_false_of_masked_eq_zero (p := fun q => testBit l.words q == b) hbits hne (by omega)
            (by omega) (decide_eq_true (by omega))
    · have hlz := leadingZeros_lt hne
      rw [if_pos (by simp [hne]), lastUpTo_of_ne_zero hj hbits hne]
      congr 1
      omega
  | succ t ih =>
    unfold scanDownWords
    by_cases hne : bits = 0
    · -- no bit left in word `t + 1`: go on from the top of word `t`
      rw [if_neg (by simp [hne])]
      have hskip : Search.lastUpTo (fun q => testBit l.words q == b) (64 * t + 63 + (j + 1)) =
          Search.lastUpTo (fun q => testBit l.words q == b) (64 * t + 63) :=
        Search.lastUpTo_skip fun r hr hr' =>
          eq_false_of_masked_eq_zero (p := fun q => testBit l.words q == b) hbits hne (by omega)
            (by omega) (decide_eq_true (by omega))
      show l.scanDownWords view t (view (word l.words t)) = _
      rw [ih (j := 63) (by decide) fun k hk => by
          simp [hv _ k hk, bit_word _ _ hk, show k ≤ 63 by omega],
        show 64 * (t + 1) + j = 64 * t + 63 + (j + 1) by omega, hskip]
    · have hlz := leadingZeros_lt hne
      rw [if_pos (by simp [hne]), lastUpTo_of_ne_zero hj hbits hne]
      congr 1
      omega

/-- **The backward scan through a view showing the bits `b` finds the last bit `b` up to `i`**,
or up to the last bit when `i` is past it: its own word masked up to there, then whole words
down to the first. -/
theorem scanBackward_eq (hv : Shows view b) (i : Nat) :
    l.scanBackward i view = l.prevWith b i := by
  unfold scanBackward prevWith
  split
  · rfl
  · rename_i hlen
    dsimp only
    have hm : min i (l.len - 1) < l.len := by omega
    have hmask : ∀ k < 64, bit (view (word l.words (min i (l.len - 1) / 64)) &&&
        lowBits (min i (l.len - 1) % 64 + 1)) k = (decide (k ≤ min i (l.len - 1) % 64) &&
          (testBit l.words (64 * (min i (l.len - 1) / 64) + k) == b)) := fun k hk => by
      rw [bit_and, hv _ k hk, bit_lowBits (by omega), bit_word _ _ hk, Bool.and_comm]
      simp only [Nat.lt_succ_iff]
    rw [scanDownWords_eq hv _ (Nat.mod_lt _ (by decide)) hmask,
      show 64 * (min i (l.len - 1) / 64) + min i (l.len - 1) % 64 = min i (l.len - 1) by omega]
    -- at or below the last bit a bit is its stream bit
    exact Search.lastUpTo_congr fun r hr => by simp [get, show r < l.len by omega]

end Scan

theorem nextSetBit_eq (i : Nat) : l.nextSetBit i = l.nextWith true i := scanForward_eq shows_id i

theorem nextClearBit_eq (i : Nat) : l.nextClearBit i = l.nextWith false i :=
  scanForward_eq shows_complement i

theorem prevSetBit_eq (i : Nat) : l.prevSetBit i = l.prevWith true i := scanBackward_eq shows_id i

theorem prevClearBit_eq (i : Nat) : l.prevClearBit i = l.prevWith false i :=
  scanBackward_eq shows_complement i

/-- **The forward scan finds the first bit `b` at or after `i`**, below the length. -/
theorem nextWith_eq_some_iff {b : Bool} {i q : Nat} :
    l.nextWith b i = some q ↔
      i ≤ q ∧ q < l.len ∧ l.get q = b ∧ ∀ r, i ≤ r → r < q → l.get r ≠ b := by
  rw [nextWith, Search.firstFrom_eq_some_iff]
  simp only [beq_iff_eq, beq_eq_false_iff_ne, ne_eq]
  constructor
  · rintro ⟨hiq, hq, hb, hmin⟩
    exact ⟨hiq, by omega, hb, hmin⟩
  · rintro ⟨hiq, hq, hb, hmin⟩
    exact ⟨hiq, by omega, hb, hmin⟩

/-- **The backward scan finds the last bit `b` at or before `i`**, below the length. -/
theorem prevWith_eq_some_iff {b : Bool} {i q : Nat} :
    l.prevWith b i = some q ↔
      q ≤ i ∧ q < l.len ∧ l.get q = b ∧ ∀ r, q < r → r ≤ i → r < l.len → l.get r ≠ b := by
  unfold prevWith
  split
  · rename_i hn
    simp only [reduceCtorEq, false_iff]
    omega
  · rw [Search.lastUpTo_eq_some_iff]
    simp only [beq_iff_eq, beq_eq_false_iff_ne, ne_eq]
    constructor
    · rintro ⟨hq, hb, hmax⟩
      exact ⟨by omega, by omega, hb, fun r h₁ h₂ h₃ => hmax r h₁ (by omega)⟩
    · rintro ⟨hq, hlen, hb, hmax⟩
      exact ⟨by omega, hb, fun r h₁ h₂ => hmax r h₁ (by omega) (by omega)⟩

/-! ### Listing the set bits -/

theorem onesFrom_none (count : Nat) : l.onesFrom count none = [] := by
  cases count <;> rfl

/-- **The walk from set bit to set bit, started at the first set bit from `i`**, lists the set
bits from `i` on, ascending, given a step for each bit left. -/
theorem onesFrom_nextWith {i count : Nat} (hcount : l.len - i ≤ count) :
    l.onesFrom count (l.nextWith true i) = (List.range' i (l.len - i)).filter l.get := by
  induction count generalizing i with
  | zero =>
    rw [show l.len - i = 0 by omega, onesFrom]
    rfl
  | succ count ih =>
    cases hfirst : l.nextWith true i with
    | none =>
      -- no set bit from `i` on
      rw [nextWith, Search.firstFrom_eq_none_iff] at hfirst
      rw [onesFrom_none, List.filter_eq_nil_iff.mpr fun r hr => by
        have hr' := List.mem_range'_1.mp hr
        simpa using hfirst r hr'.1 hr'.2]
    | some q =>
      obtain ⟨hiq, hq, hset, hbefore⟩ := nextWith_eq_some_iff.mp hfirst
      rw [Search.filter_range'_of_first hiq (by omega) hset
        fun r h₁ h₂ => Bool.eq_false_iff.mpr (hbefore r h₁ h₂), onesFrom, nextSetBit_eq,
        ih (by omega), show i + (l.len - i) - (q + 1) = l.len - (q + 1) by omega]

/-- **The set bits are listed ascending.** -/
theorem ones_eq : l.ones = (List.range l.len).filter l.get := by
  rw [ones, nextSetBit_eq, onesFrom_nextWith (by omega), Nat.sub_zero, List.range_eq_range']

end CompactCollections.BitList
