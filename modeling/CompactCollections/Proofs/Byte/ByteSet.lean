import CompactCollections.Proofs.Bits.Scan
import CompactCollections.Byte.ByteSet
/-!
# The members of a byte set

A byte set keeps byte `k` as stream bit `k` of its four words: the top two bits of the byte
pick the word (`CompactCollections.ByteSet.wordOf_eq`) and the low six the bit. Every query
works a word at a time; read through the stream bits (`CompactCollections.Stream.testBit`) each
is a count or a search over the bytes:

* a byte is a member exactly when its bit is set
  (`CompactCollections.ByteSet.contains_eq_testBit`);
* adding or removing a byte sets or clears its bit alone, and the count kept beside the words
  stays the number of set bits (`CompactCollections.ByteSet.WellFormed`);
* the rank of a byte, the counts of the words below its own plus that of its own word up to its
  bit, is the number of set bits up to it (`CompactCollections.ByteSet.rank_eq`);
* the scans stop at the first word with a bit left and take its lowest or highest set bit: the
  nearest set bit (`CompactCollections.ByteSet.nextKey_eq_firstFrom`,
  `CompactCollections.ByteSet.prevKey_eq_lastUpTo`); the byte arithmetic cannot wrap, since the
  word and the bit of a byte fit in its eight bits;
* the iterator, stepping from each member to the least member above it, lists every byte whose
  bit is set, ascending (`CompactCollections.ByteSet.toList_eq_map_filter`);
* two well-formed sets have the same words exactly when they have the same members.
-/

namespace CompactCollections.ByteSet

open CompactCollections.Stream

/-- **A well-formed byte set** has its four words, the 256 presence bits, and counts their set
bits. -/
structure WellFormed (s : ByteSet) : Prop where
  size_words : s.words.size = 4
  len_eq : s.len = (List.range 256).countP (testBit s.words)

/-- Every byte, ascending. -/
def allBytes : List UInt8 := (List.range 256).map UInt8.ofNat

variable {s : ByteSet} {k j : UInt8} {p : Nat}

theorem toNat_lt (k : UInt8) : k.toNat < 256 := k.toNat_lt

theorem toNat_ofNat {i : Nat} (hi : i < 256) : (UInt8.ofNat i).toNat = i :=
  UInt8.toNat_ofNat_of_lt' hi

/-! ### The word and the bit of a byte -/

/-- The top two bits of a byte pick its word. -/
theorem wordOf_eq (k : UInt8) : wordOf k = k.toNat / 64 := by
  simp [wordOf, UInt8.toNat_shiftRight, Nat.shiftRight_eq_div_pow]

theorem toNat_and_63 (k : UInt8) : (k &&& 63).toNat = k.toNat % 64 := by
  rw [UInt8.toNat_and, show (63 : UInt8).toNat = 2 ^ 6 - 1 from rfl,
    Nat.and_two_pow_sub_one_eq_mod]

/-- The low six bits of a byte, as a shift of a word. -/
theorem toUInt64_and_63 (k : UInt8) : (k &&& 63).toUInt64 = (k.toNat % 64).toUInt64 := by
  apply UInt64.toNat_inj.mp
  rw [UInt8.toNat_toUInt64, Nat.toUInt64_eq, UInt64.toNat_ofNat', toNat_and_63]
  omega

/-- The bit of a byte within its word is the one its low six bits select. -/
theorem bit_bitOf (k : UInt8) (i : Nat) : bit (bitOf k) i = decide (i = k.toNat % 64) := by
  have hb : k.toNat % 64 < 64 := Nat.mod_lt _ (by decide)
  rw [bitOf, toUInt64_and_63, bit_shiftLeft hb, bit_one]
  by_cases hi : i = k.toNat % 64
  · simp [hi, hb]
  · simp only [hi, decide_false, Bool.and_eq_false_iff, decide_eq_false_iff_not]
    omega

/-- The mask of the bits from a byte's bit up. -/
theorem bit_maskFrom (k : UInt8) (i : Nat) :
    bit (~~~0 <<< (k &&& 63).toUInt64) i = (decide (i < 64) && decide (k.toNat % 64 ≤ i)) := by
  rw [toUInt64_and_63, bit_shiftLeft (Nat.mod_lt _ (by decide)), bit_not]
  by_cases hi : i < 64
  · simp [hi, show i - k.toNat % 64 < 64 by omega]
  · simp [hi]

/-- The mask of the bits up to a byte's bit. -/
theorem maskUpTo_eq (k : UInt8) :
    ~~~(0 : UInt64) >>> (63 - (k &&& 63)).toUInt64 = lowBits (k.toNat % 64 + 1) := by
  have hle : (k &&& 63) ≤ 63 := by
    rw [UInt8.le_iff_toNat_le, toNat_and_63]
    exact Nat.le_of_lt_succ (Nat.mod_lt _ (by decide))
  have hsub : (63 - (k &&& 63)).toNat = 63 - k.toNat % 64 := by
    rw [UInt8.toNat_sub_of_le _ _ hle, toNat_and_63]
    rfl
  have hlt : 64 - (k.toNat % 64 + 1) < 2 ^ 64 :=
    Nat.lt_of_lt_of_le (show 64 - (k.toNat % 64 + 1) < 65 by omega) (by decide)
  rw [lowBits, if_neg (by omega)]
  congr 1
  apply UInt64.toNat_inj.mp
  rw [UInt8.toNat_toUInt64, hsub, Nat.toUInt64_eq, UInt64.toNat_ofNat', Nat.mod_eq_of_lt hlt]
  omega

/-- **A byte is a member exactly when its stream bit is set**: its word masked by its bit is
not zero. -/
theorem contains_eq_testBit (s : ByteSet) (k : UInt8) :
    s.contains k = testBit s.words k.toNat := by
  rw [contains, testBit_eq, wordOf_eq]
  cases hb : bit (word s.words (k.toNat / 64)) (k.toNat % 64)
  · -- every bit of the masked word is clear
    have hzero : word s.words (k.toNat / 64) &&& bitOf k = 0 := eq_of_bit_eq fun i _ => by
      rw [bit_and, bit_bitOf, bit_zero]
      by_cases hi : i = k.toNat % 64
      · rw [hi, hb, Bool.false_and]
      · simp [hi]
    simp [hzero]
  · -- the byte's own bit of the masked word is set
    have hne : word s.words (k.toNat / 64) &&& bitOf k ≠ 0 := fun h0 => by
      have h := congrArg (fun x => bit x (k.toNat % 64)) h0
      simp only [bit_and, bit_bitOf, hb, bit_zero, decide_true, Bool.and_true] at h
      cases h
    simp [hne]

theorem WellFormed.testBit_of_le (h : s.WellFormed) (hp : 256 ≤ p) : testBit s.words p = false :=
  testBit_of_size_le (by rw [h.size_words]; omega)

theorem testBit_empty_words (p : Nat) : testBit empty.words p = false := by
  rw [testBit_eq, word]
  by_cases hp : p / 64 < 4
  · simp [empty, hp]
  · simp [empty, hp]

theorem wellFormed_empty : empty.WellFormed where
  size_words := rfl
  len_eq := (List.countP_eq_zero.mpr fun p _ => by rw [testBit_empty_words]; simp).symm

/-! ### Adding and removing -/

/-- Rewriting word `i` within the words changes that word alone. -/
theorem word_modify {ws : Array UInt64} {i : Nat} (hi : i < ws.size) (f : UInt64 → UInt64)
    (t : Nat) : word (ws.modify i f) t = if i = t then f (word ws t) else word ws t := by
  rw [word, word, Array.getElem?_modify]
  split
  · subst_vars
    rw [Array.getElem?_eq_getElem hi]
    rfl
  · rfl

/-- Rewriting the word of a byte by a function of its bits: only bits of that word change. -/
theorem testBit_modify_wordOf {ws : Array UInt64} (hsize : ws.size = 4) {f : UInt64 → UInt64}
    (p : Nat) : testBit (ws.modify (wordOf k) f) p =
      if k.toNat / 64 = p / 64 then bit (f (word ws (p / 64))) (p % 64) else testBit ws p := by
  have hw : wordOf k < ws.size := by
    rw [hsize, wordOf_eq]
    have := toNat_lt k
    omega
  rw [testBit_eq, word_modify hw, wordOf_eq, testBit_eq ws p]
  by_cases hq : k.toNat / 64 = p / 64
  · rw [if_pos hq, if_pos hq]
  · rw [if_neg hq, if_neg hq]

/-- Setting the bit of a byte in its word sets its stream bit alone. -/
theorem testBit_setByte {ws : Array UInt64} (hsize : ws.size = 4) (p : Nat) :
    testBit (ws.modify (wordOf k) (· ||| bitOf k)) p = (decide (p = k.toNat) || testBit ws p) := by
  rw [testBit_modify_wordOf hsize]
  by_cases hq : k.toNat / 64 = p / 64
  · rw [if_pos hq, bit_or, bit_bitOf, testBit_eq ws p]
    by_cases hp : p = k.toNat
    · simp [hp]
    · have hmod : ¬p % 64 = k.toNat % 64 := by omega
      simp [hp, hmod]
  · rw [if_neg hq]
    have hp : ¬p = k.toNat := by omega
    simp [hp]

/-- Clearing the bit of a byte in its word clears its stream bit alone. -/
theorem testBit_clearByte {ws : Array UInt64} (hsize : ws.size = 4) (p : Nat) :
    testBit (ws.modify (wordOf k) (· &&& ~~~bitOf k)) p = (decide (p ≠ k.toNat) && testBit ws p) := by
  rw [testBit_modify_wordOf hsize]
  have hpm : p % 64 < 64 := Nat.mod_lt _ (by decide)
  by_cases hq : k.toNat / 64 = p / 64
  · rw [if_pos hq, bit_and, bit_not, bit_bitOf, testBit_eq ws p]
    by_cases hp : p = k.toNat
    · simp [hp]
    · have hmod : ¬p % 64 = k.toNat % 64 := by omega
      simp [hp, hmod, hpm]
  · rw [if_neg hq]
    have hp : ¬p = k.toNat := by omega
    simp [hp]

theorem insert_of_contains (hk : s.contains k = true) : s.insert k = (false, s) := by
  rw [ByteSet.insert, if_pos hk]

theorem insert_of_not_contains (hk : s.contains k = false) :
    s.insert k = (true,
      { s with words := s.words.modify (wordOf k) (· ||| bitOf k), len := s.len + 1 }) := by
  rw [ByteSet.insert, if_neg (by simp [hk])]

theorem remove_of_not_contains (hk : s.contains k = false) : s.remove k = (false, s) := by
  rw [remove, if_pos (by simp [hk])]

theorem remove_of_contains (hk : s.contains k = true) :
    s.remove k = (true,
      { s with words := s.words.modify (wordOf k) (· &&& ~~~bitOf k), len := s.len - 1 }) := by
  rw [remove, if_neg (by simp [hk])]

theorem insert_fst : (s.insert k).1 = !s.contains k := by
  cases hk : s.contains k
  · rw [insert_of_not_contains hk]
    rfl
  · rw [insert_of_contains hk]
    rfl

theorem remove_fst : (s.remove k).1 = s.contains k := by
  cases hk : s.contains k
  · rw [remove_of_not_contains hk]
  · rw [remove_of_contains hk]

/-- Adding a byte sets its bit alone. -/
theorem testBit_insert (h : s.WellFormed) (p : Nat) :
    testBit (s.insert k).2.words p = (decide (p = k.toNat) || testBit s.words p) := by
  cases hk : s.contains k
  · rw [insert_of_not_contains hk]
    exact testBit_setByte h.size_words p
  · rw [insert_of_contains hk]
    by_cases hp : p = k.toNat
    · subst hp
      rw [← contains_eq_testBit, hk]
      simp
    · simp [hp]

/-- Removing a byte clears its bit alone. -/
theorem testBit_remove (h : s.WellFormed) (p : Nat) :
    testBit (s.remove k).2.words p = (decide (p ≠ k.toNat) && testBit s.words p) := by
  cases hk : s.contains k
  · rw [remove_of_not_contains hk]
    by_cases hp : p = k.toNat
    · subst hp
      rw [← contains_eq_testBit, hk]
      simp
    · simp [hp]
  · rw [remove_of_contains hk]
    exact testBit_clearByte h.size_words p

/-- Adding a byte makes it a member and leaves every other byte as it was. -/
theorem contains_insert (h : s.WellFormed) (k j : UInt8) :
    (s.insert k).2.contains j = if j = k then true else s.contains j := by
  rw [contains_eq_testBit, testBit_insert h, contains_eq_testBit]
  by_cases hj : j = k
  · rw [if_pos hj, hj, decide_eq_true rfl, Bool.true_or]
  · rw [if_neg hj, decide_eq_false (mt UInt8.toNat_inj.mp hj), Bool.false_or]

/-- Removing a byte makes it no member and leaves every other byte as it was. -/
theorem contains_remove (h : s.WellFormed) (k j : UInt8) :
    (s.remove k).2.contains j = if j = k then false else s.contains j := by
  rw [contains_eq_testBit, testBit_remove h, contains_eq_testBit]
  by_cases hj : j = k
  · rw [if_pos hj, hj, decide_eq_false (fun hne => hne rfl), Bool.false_and]
  · rw [if_neg hj, decide_eq_true (mt UInt8.toNat_inj.mp hj), Bool.true_and]

@[simp] theorem hasNull_insert : (s.insert k).2.hasNull = s.hasNull := by
  unfold ByteSet.insert
  split <;> rfl

@[simp] theorem hasNull_remove : (s.remove k).2.hasNull = s.hasNull := by
  unfold remove
  split <;> rfl

/-! ### Counting -/

/-- A count of positions below `n` sets position `k < n` apart. -/
theorem countP_range_split {f : Nat → Bool} {k : Nat} :
    ∀ {n : Nat}, k < n → (List.range n).countP f =
      (List.range n).countP (fun q => decide (q ≠ k) && f q) + (if f k then 1 else 0)
  | 0, hk => absurd hk (Nat.not_lt_zero k)
  | n + 1, hk => by
    rw [List.range_succ, List.countP_append, List.countP_append]
    by_cases hkn : k = n
    · -- every position below `n` is apart from `k`
      subst hkn
      have hbelow : (List.range k).countP (fun q => decide (q ≠ k) && f q) =
          (List.range k).countP f :=
        List.countP_congr fun q hq => by simp [Nat.ne_of_lt (List.mem_range.mp hq)]
      rw [hbelow]
      cases hf : f k <;> simp [hf]
    · rw [countP_range_split (by omega : k < n)]
      cases hfn : f n <;> cases hfk : f k <;> simp [hfn, Ne.symm hkn]

/-- Setting a clear bit below `n` adds one to the count of set bits below `n`. -/
theorem countP_range_of_set {f g : Nat → Bool} {k n : Nat} (hk : k < n) (hfk : f k = false)
    (hg : ∀ q, g q = (decide (q = k) || f q)) :
    (List.range n).countP g = (List.range n).countP f + 1 := by
  have hapart : (List.range n).countP (fun q => decide (q ≠ k) && g q) =
      (List.range n).countP (fun q => decide (q ≠ k) && f q) :=
    List.countP_congr fun q _ => by by_cases hq : q = k <;> simp [hg, hq]
  rw [countP_range_split hk, countP_range_split (f := f) hk, hapart, hg k, hfk]
  simp

/-- Clearing a set bit below `n` takes one from the count of set bits below `n`. -/
theorem countP_range_of_clear {f g : Nat → Bool} {k n : Nat} (hk : k < n) (hfk : f k = true)
    (hg : ∀ q, g q = (decide (q ≠ k) && f q)) :
    (List.range n).countP g + 1 = (List.range n).countP f := by
  have hapart : (List.range n).countP (fun q => decide (q ≠ k) && g q) =
      (List.range n).countP (fun q => decide (q ≠ k) && f q) :=
    List.countP_congr fun q _ => by by_cases hq : q = k <;> simp [hg, hq]
  rw [countP_range_split hk, countP_range_split (f := f) hk, hapart, hg k, hfk]
  simp

theorem WellFormed.insert (h : s.WellFormed) (k : UInt8) : (s.insert k).2.WellFormed := by
  cases hk : s.contains k
  · rw [insert_of_not_contains hk]
    refine ⟨by rw [Array.size_modify, h.size_words], ?_⟩
    rw [h.len_eq]
    exact (countP_range_of_set (toNat_lt k) (by rw [← contains_eq_testBit, hk])
      (testBit_setByte h.size_words)).symm
  · rw [insert_of_contains hk]
    exact h

theorem WellFormed.remove (h : s.WellFormed) (k : UInt8) : (s.remove k).2.WellFormed := by
  cases hk : s.contains k
  · rw [remove_of_not_contains hk]
    exact h
  · rw [remove_of_contains hk]
    refine ⟨by rw [Array.size_modify, h.size_words], ?_⟩
    have hcount := countP_range_of_clear (toNat_lt k) (by rw [← contains_eq_testBit, hk])
      (testBit_clearByte h.size_words)
    have hlen := h.len_eq
    dsimp only
    omega

/-- **The rank of a byte is the number of set bits up to it**: the counts of the words below its
own, and of its own word masked up to its bit. -/
theorem rank_eq (s : ByteSet) (k : UInt8) :
    s.rank k = (List.range (k.toNat + 1)).countP (testBit s.words) := by
  simp only [rank, wordOf_eq, maskUpTo_eq]
  exact countP_testBit_succ s.words k.toNat

/-! ### Nearest members -/

/-- **The scan up finds the first set stream bit from bit `j` of word `w` on**, through the end
of word `w + left`, when `bits` holds the bits of word `w` from `j` on: it stops at the first
word with a bit left and takes its lowest set bit. The byte it names cannot wrap, since at most
four words are scanned. -/
theorem scanUp_eq (ws : Array UInt64) {w j : Nat} {bits : UInt64} (left : Nat) (hw : w + left ≤ 3)
    (hj : j < 64) (hbits : ∀ i < 64, bit bits i = (decide (j ≤ i) && testBit ws (64 * w + i))) :
    scanUp ws w bits left =
      (Search.firstFrom (testBit ws) (64 * w + j) (64 * (left + 1) - j)).map UInt8.ofNat := by
  induction left generalizing w j bits with
  | zero =>
    unfold scanUp
    by_cases hne : bits = 0
    · -- no bit left in the last word
      rw [if_neg (by simp [hne]), show 64 * (0 + 1) - j = (64 - j) + 0 by omega,
        Search.firstFrom_skip fun r hr hr' =>
          eq_false_of_masked_eq_zero hbits hne (by omega) (by omega) (decide_eq_true (by omega))]
      rfl
    · rw [if_pos (by simp [hne]), firstFrom_of_ne_zero hbits hne (by omega), Option.map_some,
        ← UInt8.ofNat_add, Nat.mul_comm]
  | succ left ih =>
    unfold scanUp
    by_cases hne : bits = 0
    · -- no bit left in word `w`: go on from the next word, all of whose bits are left
      rw [if_neg (by simp [hne])]
      show scanUp ws (w + 1) (word ws (w + 1)) left = _
      rw [ih (j := 0) (by omega) (by decide) fun i hi => by simp [bit_word ws _ hi],
        show 64 * (left + 1 + 1) - j = (64 - j) + 64 * (left + 1) by omega,
        Search.firstFrom_skip fun r hr hr' =>
          eq_false_of_masked_eq_zero hbits hne (by omega) (by omega) (decide_eq_true (by omega)),
        show 64 * w + j + (64 - j) = 64 * (w + 1) + 0 by omega, Nat.sub_zero]
    · rw [if_pos (by simp [hne]), firstFrom_of_ne_zero hbits hne (by omega), Option.map_some,
        ← UInt8.ofNat_add, Nat.mul_comm]

/-- **The least member at or above `k` is the first set bit from `k` on**: its own word masked
from its bit, then the whole words above it. -/
theorem nextKey_eq_firstFrom (s : ByteSet) (k : UInt8) :
    s.nextKey k =
      (Search.firstFrom (testBit s.words) k.toNat (256 - k.toNat)).map UInt8.ofNat := by
  have hk := toNat_lt k
  simp only [nextKey, wordOf_eq]
  rw [scanUp_eq s.words (j := k.toNat % 64) (3 - k.toNat / 64) (by omega) (Nat.mod_lt _ (by decide))
      fun i hi => by rw [bit_and, bit_maskFrom, Bool.and_comm, bit_word _ _ hi, decide_eq_true hi,
        Bool.true_and],
    show 64 * (k.toNat / 64) + k.toNat % 64 = k.toNat by omega,
    show 64 * (3 - k.toNat / 64 + 1) - k.toNat % 64 = 256 - k.toNat by omega]

/-- The nearest member at or above a byte is the first set bit from it on. -/
theorem nextKey_eq_head? (s : ByteSet) (k : UInt8) :
    s.nextKey k = (((List.range' k.toNat (256 - k.toNat)).filter (testBit s.words)).head?).map
      UInt8.ofNat := by
  rw [nextKey_eq_firstFrom, Search.firstFrom_eq_find?, List.head?_filter]

/-- The byte a scan down names, `64 * w + 63 - z` for a word `w ≤ 3` and `z < 64`, does not
wrap. -/
theorem ofNat_add_sub {w z : Nat} (hw : w ≤ 3) (hz : z < 64) :
    UInt8.ofNat (w * 64) + 63 - UInt8.ofNat z = UInt8.ofNat (64 * w + (63 - z)) := by
  have hsum : (UInt8.ofNat (w * 64) + 63).toNat = w * 64 + 63 := by
    rw [UInt8.toNat_add, toNat_ofNat (by omega)]
    exact Nat.mod_eq_of_lt (Nat.lt_of_lt_of_le (show w * 64 + 63 < 256 by omega) (by decide))
  have hle : UInt8.ofNat z ≤ UInt8.ofNat (w * 64) + 63 := by
    rw [UInt8.le_iff_toNat_le, hsum, toNat_ofNat (by omega)]
    omega
  apply UInt8.toNat_inj.mp
  rw [UInt8.toNat_sub_of_le _ _ hle, hsum, toNat_ofNat (by omega), toNat_ofNat (by omega)]
  omega

/-- **The scan down finds the last set stream bit up to bit `j` of word `w`**, when `bits` holds
the bits of word `w` up to `j`: it stops at the first word with a bit left and takes its
highest set bit. -/
theorem scanDown_eq (ws : Array UInt64) {j : Nat} {bits : UInt64} (w : Nat) (hw : w ≤ 3)
    (hj : j < 64) (hbits : ∀ i < 64, bit bits i = (decide (i ≤ j) && testBit ws (64 * w + i))) :
    scanDown ws w bits = (Search.lastUpTo (testBit ws) (64 * w + j)).map UInt8.ofNat := by
  induction w generalizing j bits with
  | zero =>
    unfold scanDown
    by_cases hne : bits = 0
    · -- no bit left in word 0
      rw [if_neg (by simp [hne])]
      symm
      rw [Option.map_eq_none_iff, Search.lastUpTo_eq_none_iff]
      exact fun r hr =>
        eq_false_of_masked_eq_zero hbits hne (by omega) (by omega) (decide_eq_true (by omega))
    · rw [if_pos (by simp [hne]), lastUpTo_of_ne_zero hj hbits hne, Option.map_some,
        ofNat_add_sub hw (leadingZeros_lt hne)]
  | succ w ih =>
    unfold scanDown
    by_cases hne : bits = 0
    · -- no bit left in word `w + 1`: go on from the top of word `w`
      rw [if_neg (by simp [hne])]
      dsimp only
      have hskip : Search.lastUpTo (testBit ws) (64 * w + 63 + (j + 1)) =
          Search.lastUpTo (testBit ws) (64 * w + 63) := Search.lastUpTo_skip fun r hr hr' =>
        eq_false_of_masked_eq_zero hbits hne (by omega) (by omega) (decide_eq_true (by omega))
      rw [ih (j := 63) (by omega) (by decide) fun i hi => by
          simp [show i ≤ 63 by omega, bit_word ws _ hi],
        show 64 * (w + 1) + j = 64 * w + 63 + (j + 1) by omega, hskip]
    · rw [if_pos (by simp [hne]), lastUpTo_of_ne_zero hj hbits hne, Option.map_some,
        ofNat_add_sub hw (leadingZeros_lt hne)]

/-- **The greatest member at or below `k` is the last set bit up to `k`**: its own word masked up
to its bit, then the whole words below it. -/
theorem prevKey_eq_lastUpTo (s : ByteSet) (k : UInt8) :
    s.prevKey k = (Search.lastUpTo (testBit s.words) k.toNat).map UInt8.ofNat := by
  have hk := toNat_lt k
  simp only [prevKey, wordOf_eq, maskUpTo_eq]
  rw [scanDown_eq s.words (j := k.toNat % 64) (k.toNat / 64) (by omega) (Nat.mod_lt _ (by decide))
      fun i hi => by
      rw [bit_and, bit_lowBits (by omega), Bool.and_comm, bit_word _ _ hi]
      by_cases hle : i ≤ k.toNat % 64
      · simp [hle, show i < k.toNat % 64 + 1 by omega]
      · simp [hle, show ¬i < k.toNat % 64 + 1 by omega],
    show 64 * (k.toNat / 64) + k.toNat % 64 = k.toNat by omega]

/-- **The least member at or above `k`** is what `nextKey` finds. -/
theorem nextKey_eq_some_iff {x : UInt8} : s.nextKey k = some x ↔
    s.contains x = true ∧ k ≤ x ∧ ∀ y, k ≤ y → y < x → s.contains y = false := by
  have hx := toNat_lt x
  rw [nextKey_eq_firstFrom, Option.map_eq_some_iff]
  constructor
  · rintro ⟨q, hq, rfl⟩
    obtain ⟨hkq, hq256, hset, hbefore⟩ := Search.firstFrom_eq_some_iff.mp hq
    have hq' : q < 256 := by omega
    refine ⟨by rwa [contains_eq_testBit, toNat_ofNat hq'],
      by rwa [UInt8.le_iff_toNat_le, toNat_ofNat hq'], fun y hky hyx => ?_⟩
    rw [UInt8.le_iff_toNat_le] at hky
    rw [UInt8.lt_iff_toNat_lt, toNat_ofNat hq'] at hyx
    rw [contains_eq_testBit]
    exact hbefore _ hky hyx
  · rintro ⟨hset, hkx, hbefore⟩
    rw [UInt8.le_iff_toNat_le] at hkx
    refine ⟨x.toNat, Search.firstFrom_eq_some_iff.mpr ⟨hkx, by omega,
      by rwa [← contains_eq_testBit], fun r hkr hrx => ?_⟩, UInt8.ofNat_toNat⟩
    -- a position between `k` and `x` is a byte that is not a member
    have hr : r < 256 := by omega
    have hclear := hbefore (UInt8.ofNat r) (by rwa [UInt8.le_iff_toNat_le, toNat_ofNat hr])
      (by rwa [UInt8.lt_iff_toNat_lt, toNat_ofNat hr])
    rwa [contains_eq_testBit, toNat_ofNat hr] at hclear

/-- `nextKey` finds nothing exactly when no byte at or above `k` is a member. -/
theorem nextKey_eq_none_iff : s.nextKey k = none ↔ ∀ y, k ≤ y → s.contains y = false := by
  rw [nextKey_eq_firstFrom, Option.map_eq_none_iff, Search.firstFrom_eq_none_iff]
  constructor
  · intro h y hky
    rw [contains_eq_testBit]
    exact h _ (UInt8.le_iff_toNat_le.mp hky) (by have := toNat_lt y; omega)
  · intro h r hkr hr
    have hr' : r < 256 := by omega
    have hclear := h (UInt8.ofNat r) (by rwa [UInt8.le_iff_toNat_le, toNat_ofNat hr'])
    rwa [contains_eq_testBit, toNat_ofNat hr'] at hclear

/-- **The greatest member at or below `k`** is what `prevKey` finds. -/
theorem prevKey_eq_some_iff {x : UInt8} : s.prevKey k = some x ↔
    s.contains x = true ∧ x ≤ k ∧ ∀ y, x < y → y ≤ k → s.contains y = false := by
  have hk := toNat_lt k
  rw [prevKey_eq_lastUpTo, Option.map_eq_some_iff]
  constructor
  · rintro ⟨q, hq, rfl⟩
    obtain ⟨hqk, hset, hafter⟩ := Search.lastUpTo_eq_some_iff.mp hq
    have hq' : q < 256 := by omega
    refine ⟨by rwa [contains_eq_testBit, toNat_ofNat hq'],
      by rwa [UInt8.le_iff_toNat_le, toNat_ofNat hq'], fun y hxy hyk => ?_⟩
    rw [UInt8.lt_iff_toNat_lt, toNat_ofNat hq'] at hxy
    rw [UInt8.le_iff_toNat_le] at hyk
    rw [contains_eq_testBit]
    exact hafter _ hxy hyk
  · rintro ⟨hset, hxk, hafter⟩
    rw [UInt8.le_iff_toNat_le] at hxk
    refine ⟨x.toNat, Search.lastUpTo_eq_some_iff.mpr ⟨hxk, by rwa [← contains_eq_testBit],
      fun r hxr hrk => ?_⟩, UInt8.ofNat_toNat⟩
    -- a position between `x` and `k` is a byte that is not a member
    have hr : r < 256 := by omega
    have hclear := hafter (UInt8.ofNat r) (by rwa [UInt8.lt_iff_toNat_lt, toNat_ofNat hr])
      (by rwa [UInt8.le_iff_toNat_le, toNat_ofNat hr])
    rwa [contains_eq_testBit, toNat_ofNat hr] at hclear

/-- `prevKey` finds nothing exactly when no byte at or below `k` is a member. -/
theorem prevKey_eq_none_iff : s.prevKey k = none ↔ ∀ y, y ≤ k → s.contains y = false := by
  have hk := toNat_lt k
  rw [prevKey_eq_lastUpTo, Option.map_eq_none_iff, Search.lastUpTo_eq_none_iff]
  constructor
  · intro h y hyk
    rw [contains_eq_testBit]
    exact h _ (UInt8.le_iff_toNat_le.mp hyk)
  · intro h r hrk
    have hr : r < 256 := by omega
    have hclear := h (UInt8.ofNat r) (by rwa [UInt8.le_iff_toNat_le, toNat_ofNat hr])
    rwa [contains_eq_testBit, toNat_ofNat hr] at hclear

/-! ### Listing -/

theorem iterFrom_none (s : ByteSet) (count : Nat) : s.iterFrom count none = [] := by
  cases count <;> rfl

/-- **The iterator from the least member at or above position `i`** lists every member from `i`
on, ascending, given room for one item per byte left. -/
theorem iterFrom_firstFrom (s : ByteSet) {i count : Nat} (hi : i ≤ 256) (hcount : 256 - i ≤ count) :
    s.iterFrom count ((Search.firstFrom (testBit s.words) i (256 - i)).map UInt8.ofNat) =
      ((List.range' i (256 - i)).filter (testBit s.words)).map UInt8.ofNat := by
  induction count generalizing i with
  | zero =>
    rw [show 256 - i = 0 by omega]
    rfl
  | succ count ih =>
    cases hfirst : Search.firstFrom (testBit s.words) i (256 - i) with
    | none =>
      rw [Search.firstFrom_eq_none_iff] at hfirst
      rw [Option.map_none, iterFrom_none, List.filter_eq_nil_iff.mpr fun r hr => by
        have hr' := List.mem_range'_1.mp hr
        simp [hfirst r hr'.1 hr'.2]]
      rfl
    | some q =>
      obtain ⟨hiq, hq, hfq, hbefore⟩ := Search.firstFrom_eq_some_iff.mp hfirst
      rw [Search.filter_range'_of_first hiq hq hfq hbefore, Option.map_some, List.map_cons]
      simp only [iterFrom]
      congr 1
      by_cases hlast : q = 255
      · -- the last byte ends the walk: nothing is left after it
        subst hlast
        rw [if_pos (show UInt8.ofNat 255 = 255 from rfl), iterFrom_none,
          show i + (256 - i) - (255 + 1) = 0 by omega]
        rfl
      · -- the walk goes on from the least member above `q`
        have hnext : UInt8.ofNat q + 1 = UInt8.ofNat (q + 1) := (UInt8.ofNat_add q 1).symm
        rw [if_neg fun h => hlast (by
            have := congrArg UInt8.toNat h
            rwa [toNat_ofNat (by omega)] at this),
          hnext, nextKey_eq_firstFrom, toNat_ofNat (by omega), ih (by omega) (by omega),
          show i + (256 - i) - (q + 1) = 256 - (q + 1) by omega]

/-- **The iterator lists every byte whose bit is set, ascending.** -/
theorem toList_eq_map_filter (s : ByteSet) :
    s.toList = ((List.range 256).filter (testBit s.words)).map UInt8.ofNat := by
  rw [toList, first, nextKey_eq_firstFrom, List.range_eq_range']
  exact iterFrom_firstFrom s (by decide) (by decide)

theorem mem_allBytes (k : UInt8) : k ∈ allBytes :=
  List.mem_map.mpr ⟨k.toNat, List.mem_range.mpr (toNat_lt k), UInt8.ofNat_toNat⟩

theorem pairwise_allBytes : allBytes.Pairwise (· < ·) := by
  rw [allBytes, List.pairwise_map]
  refine List.pairwise_lt_range.imp_of_mem fun ha hb hab => ?_
  rw [UInt8.lt_iff_toNat_lt, toNat_ofNat (List.mem_range.mp ha),
    toNat_ofNat (List.mem_range.mp hb)]
  exact hab

/-- **The listing holds every member, ascending.** -/
theorem toList_eq_filter (s : ByteSet) : s.toList = allBytes.filter s.contains := by
  have hbits : (List.range 256).filter (s.contains ∘ UInt8.ofNat) =
      (List.range 256).filter (testBit s.words) :=
    List.filter_congr fun i hi => by
      rw [Function.comp_apply, contains_eq_testBit, toNat_ofNat (List.mem_range.mp hi)]
  rw [toList_eq_map_filter, allBytes, List.filter_map, hbits]

theorem mem_toList : k ∈ s.toList ↔ s.contains k = true := by
  rw [toList_eq_filter, List.mem_filter, and_iff_right (mem_allBytes k)]

theorem pairwise_toList (s : ByteSet) : s.toList.Pairwise (· < ·) := by
  rw [toList_eq_filter]
  exact pairwise_allBytes.filter _

/-! ### Equality -/

theorem same_iff {a b : ByteSet} :
    a.same b = true ↔ a.words = b.words ∧ a.len = b.len ∧ a.hasNull = b.hasNull := by
  simp only [same, Bool.and_eq_true, beq_iff_eq, and_assoc]

/-- **Two well-formed sets with the same members have the same words.** -/
theorem WellFormed.words_eq {a b : ByteSet} (ha : a.WellFormed) (hb : b.WellFormed)
    (h : ∀ k, a.contains k = b.contains k) : a.words = b.words := by
  refine eq_of_testBit_eq (by rw [ha.size_words, hb.size_words]) fun p => ?_
  by_cases hp : p < 256
  · have hk := h (UInt8.ofNat p)
    rwa [contains_eq_testBit, contains_eq_testBit, toNat_ofNat hp] at hk
  · rw [ha.testBit_of_le (by omega), hb.testBit_of_le (by omega)]

end CompactCollections.ByteSet
