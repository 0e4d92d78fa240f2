import CompactCollections.Bits.PackedList
import Mathlib.Tactic.SplitIfs
/-!
# The bits of a word stream

What each operation on a word stream does to every stream bit
(`CompactCollections.Stream.testBit`). A bit of a word is read through its bit vector
(`CompactCollections.Stream.bit`), so that every mask, shift and combination of the code becomes
a statement about one bit at a time, and a stream bit is a bit of one word.

* `CompactCollections.Stream.testBit_write` – a write sets exactly the bits of its field.
* `CompactCollections.Stream.testBit_shiftUp_of_lt`, `testBit_shiftUp_of_le`,
  `testBit_shiftUp_of_ge` – opening a gap keeps the bits below it, moves the bits after it up
  by its width within the words it rewrites, and keeps the words above.
* `CompactCollections.Stream.testBit_shiftDown_of_lt`, `testBit_shiftDown_of_le`,
  `testBit_shiftDown_of_ge` – closing a field keeps the bits below it and moves the later bits
  down.
* `CompactCollections.Stream.testBit_clearRange` – clearing a range clears exactly its bits.

Positions split into a word and an offset by `/ 64` and `% 64`; with the widths bounded by 64,
every such fact is linear arithmetic.
-/

namespace CompactCollections.Stream

/-! ### Bits of a word -/

/-- Bit `j` of a word; every bit from 64 on is clear. -/
def bit (w : UInt64) (j : Nat) : Bool :=
  w.toBitVec.getLsbD j

section Word

variable {a b : UInt64} {j s n : Nat}

@[simp] theorem bit_and : bit (a &&& b) j = (bit a j && bit b j) := by
  simp [bit, BitVec.getLsbD_and]

@[simp] theorem bit_or : bit (a ||| b) j = (bit a j || bit b j) := by
  simp [bit, BitVec.getLsbD_or]

@[simp] theorem bit_not : bit (~~~a) j = (decide (j < 64) && !bit a j) := by
  simp [bit, BitVec.getLsbD_not]

@[simp] theorem bit_zero : bit 0 j = false := by
  simp [bit]

theorem bit_of_ge (hj : 64 ≤ j) : bit a j = false :=
  BitVec.getLsbD_of_ge _ _ hj

theorem toNat_shiftAmount (hs : s < 64) : ((s.toUInt64).toBitVec % 64).toNat = s := by
  simp [BitVec.toNat_umod, Nat.toUInt64_eq]
  omega

theorem bit_shiftLeft (hs : s < 64) :
    bit (a <<< s.toUInt64) j = (decide (j < 64) && decide (s ≤ j) && bit a (j - s)) := by
  rw [bit, UInt64.toBitVec_shiftLeft, BitVec.shiftLeft_eq', toNat_shiftAmount hs,
    BitVec.getLsbD_shiftLeft]
  by_cases hjs : s ≤ j
  · simp [bit, hjs, Nat.not_lt.mpr hjs]
  · simp [hjs, Nat.lt_of_not_le hjs]

theorem bit_shiftRight (hs : s < 64) : bit (a >>> s.toUInt64) j = bit a (s + j) := by
  rw [bit, UInt64.toBitVec_shiftRight, BitVec.ushiftRight_eq', toNat_shiftAmount hs,
    BitVec.getLsbD_ushiftRight]
  rfl

theorem bit_lowBits (hn : n ≤ 64) : bit (lowBits n) j = decide (j < n) := by
  unfold lowBits
  split
  · subst_vars
    simp
  · rw [bit_shiftRight (by omega), bit_not]
    by_cases hj : j < n
    · simp [show 64 - n + j < 64 by omega, hj]
    · simp [show ¬64 - n + j < 64 by omega, hj]

theorem bit_one : bit 1 j = decide (j = 0) := by
  simp [bit, BitVec.getLsbD_ofNat]
  rcases j with _ | j
  · rfl
  · simp [Nat.testBit_succ]

/-- Words with the same bits are equal. -/
theorem eq_of_bit_eq (h : ∀ j < 64, bit a j = bit b j) : a = b :=
  UInt64.toBitVec_inj.mp (BitVec.eq_of_getLsbD_eq h)

/-- The bits of a word are the bits of its number. -/
theorem testBit_toNat (a : UInt64) (j : Nat) : a.toNat.testBit j = bit a j :=
  BitVec.testBit_toNat a.toBitVec

/-- Keeping the low `n ≤ 64` bits of a word reduces its number mod `2 ^ n`. -/
theorem toNat_and_lowBits (hn : n ≤ 64) (a : UInt64) :
    (a &&& lowBits n).toNat = a.toNat % (1 <<< n) := by
  rw [Nat.one_shiftLeft]
  refine Nat.eq_of_testBit_eq fun j => ?_
  rw [Nat.testBit_mod_two_pow, testBit_toNat, testBit_toNat, bit_and, bit_lowBits hn,
    Bool.and_comm]

end Word

/-! ### Words and stream bits -/

section Stream

variable {ws : Array UInt64} {i j p pos width : Nat} {w v : UInt64}

/-- Bit `j` of a word, as a shift and a mask read it. -/
theorem shiftRight_and_one_ne_zero (w : UInt64) {j : Nat} (hj : j < 64) :
    ((w >>> j.toUInt64) &&& 1 != 0) = bit w j := by
  cases hb : bit w j
  · -- every bit of the masked word is clear
    have hzero : (w >>> j.toUInt64) &&& 1 = 0 := by
      refine eq_of_bit_eq fun i _ => ?_
      rw [bit_and, bit_one, bit_shiftRight hj, bit_zero]
      rcases i with _ | i
      · simpa using hb
      · simp
    simp [hzero]
  · -- bit zero of the masked word is set
    have hne : (w >>> j.toUInt64) &&& 1 ≠ 0 := fun h0 => by
      have h := congrArg (fun x => bit x 0) h0
      simp only [bit_and, bit_one, bit_shiftRight hj, bit_zero, Nat.add_zero, hb] at h
      cases h
    simp [hne]

/-- Stream bit `p` is bit `p % 64` of word `p / 64`. -/
theorem testBit_eq (ws : Array UInt64) (p : Nat) :
    testBit ws p = bit (word ws (p / 64)) (p % 64) :=
  shiftRight_and_one_ne_zero _ (Nat.mod_lt _ (by decide))

/-- Word `t` of a stream holds the stream bits `[64 * t, 64 * t + 64)`. -/
theorem bit_word (ws : Array UInt64) (t : Nat) {j : Nat} (hj : j < 64) :
    bit (word ws t) j = testBit ws (64 * t + j) := by
  have hdiv : (64 * t + j) / 64 = t := by omega
  have hmod : (64 * t + j) % 64 = j := by omega
  rw [testBit_eq, hdiv, hmod]

/-- Streams with the same bits have the same words. -/
theorem word_eq_of_testBit_eq {ws ws' : Array UInt64} (h : ∀ p, testBit ws p = testBit ws' p)
    (t : Nat) : word ws t = word ws' t :=
  eq_of_bit_eq fun j hj => by rw [bit_word ws t hj, bit_word ws' t hj, h]

/-- Two streams of as many words with the same bits are the same words. -/
theorem eq_of_testBit_eq {ws ws' : Array UInt64} (hsize : ws.size = ws'.size)
    (h : ∀ p, testBit ws p = testBit ws' p) : ws = ws' :=
  Array.ext hsize fun t h₁ h₂ => by
    have hword := word_eq_of_testBit_eq h t
    rwa [word, word, Array.getElem?_eq_getElem h₁, Array.getElem?_eq_getElem h₂] at hword

/-- Streams with the same bits have the same first words. -/
theorem firstWords_eq_of_testBit_eq {ws ws' : Array UInt64} (h : ∀ p, testBit ws p = testBit ws' p)
    (n : Nat) : firstWords ws n = firstWords ws' n := by
  unfold firstWords
  congr 1
  funext t
  exact word_eq_of_testBit_eq h t

/-- Equal first words are equal words below their count. -/
theorem word_eq_of_firstWords_eq {ws ws' : Array UInt64} {n n' t : Nat}
    (h : firstWords ws n = firstWords ws' n') (ht : t < n) : word ws t = word ws' t := by
  have hsize : n = n' := by simpa [firstWords] using congrArg Array.size h
  have hat := congrArg (·[t]?) h
  simp only [firstWords, Array.getElem?_map, Array.getElem?_range, ← hsize, ht, if_true,
    Option.map_some, Option.some.injEq] at hat
  exact hat

/-- Setting a word changes that word alone; the words it adds in between are zero. -/
theorem word_setWord (ws : Array UInt64) (i : Nat) (w : UInt64) (j : Nat) :
    word (setWord ws i w) j = if i = j then w else word ws j := by
  unfold setWord word
  split
  · rw [Array.set!_eq_setIfInBounds, Array.getElem?_setIfInBounds]
    split <;> simp_all
  · split
    · subst_vars
      split
      · subst_vars
        simp [Array.getElem?_eq_none (Nat.le_of_not_lt ‹_›)]
      · rfl
    · rw [Array.getElem?_push, Array.getElem?_append, Array.getElem?_replicate]
      simp only [Array.size_append, Array.size_replicate]
      by_cases hij : i = j
      · subst hij
        rw [if_pos (by omega), if_pos rfl]
        rfl
      · rw [if_neg (by omega), if_neg hij]
        by_cases hj : j < ws.size
        · rw [if_pos hj]
        · rw [if_neg hj, Array.getElem?_eq_none (by omega)]
          split <;> rfl

theorem testBit_setWord (ws : Array UInt64) (i : Nat) (w : UInt64) (p : Nat) :
    testBit (setWord ws i w) p = if i = p / 64 then bit w (p % 64) else testBit ws p := by
  rw [testBit_eq, testBit_eq, word_setWord]
  split <;> rfl

/-- The stream of no words is clear. -/
@[simp] theorem testBit_empty (p : Nat) : testBit #[] p = false := by
  rw [testBit_eq]
  simp [word]

/-- The first `m` words of a stream hold its first `64 * m` bits, and nothing after them. -/
theorem testBit_extract (ws : Array UInt64) (m p : Nat) :
    testBit (ws.extract 0 m) p = (decide (p < 64 * m) && testBit ws p) := by
  rw [testBit_eq, testBit_eq, word, word, Array.getElem?_extract]
  by_cases hin : p / 64 < min m ws.size - 0
  · rw [if_pos hin, Nat.zero_add]
    simp [show p < 64 * m by omega]
  · rw [if_neg hin]
    by_cases hp : p < 64 * m
    · rw [Array.getElem?_eq_none (by omega)]
      simp
    · simp [hp]

/-- The window from `start` reads the stream bits from `start` on. -/
theorem bit_window (ws : Array UInt64) (start j : Nat) :
    bit (window ws start) j = (decide (j < 64) && testBit ws (start + j)) := by
  rw [testBit_eq]
  unfold window
  dsimp only
  split
  · by_cases hj : j < 64
    · have h1 : (start + j) / 64 = start / 64 := by omega
      have h2 : (start + j) % 64 = j := by omega
      simp [hj, h1, h2]
    · simp [hj, bit_of_ge (Nat.le_of_not_lt hj)]
  · rw [bit_or, bit_shiftRight (by omega), bit_shiftLeft (by omega)]
    by_cases hj : j < 64
    · by_cases hlow : start % 64 + j < 64
      · have h1 : (start + j) / 64 = start / 64 := by omega
        have h2 : (start + j) % 64 = start % 64 + j := by omega
        simp [hj, h1, h2, show ¬64 - start % 64 ≤ j by omega]
      · have h1 : (start + j) / 64 = start / 64 + 1 := by omega
        have h2 : (start + j) % 64 = j - (64 - start % 64) := by omega
        simp [hj, h1, h2, show 64 - start % 64 ≤ j by omega,
          bit_of_ge (show 64 ≤ start % 64 + j by omega)]
    · simp [hj, bit_of_ge (show 64 ≤ start % 64 + j by omega)]

/-- A field that fits in its word is read from that word alone. -/
theorem bit_value (w m : UInt64) {b : Nat} (hb : b < 64) (j : Nat) :
    bit (value w b m) j = (bit m j && bit w (b + j)) := by
  rw [value, bit_and, bit_shiftRight hb, Bool.and_comm]

/-- A field that straddles two words is read from the window at its position. -/
theorem valueAcross_eq_window (ws : Array UInt64) {pos : Nat} (hb : pos % 64 ≠ 0) (m : UInt64) :
    valueAcross (word ws (pos / 64)) (word ws (pos / 64 + 1)) (pos % 64) m = window ws pos &&& m := by
  dsimp only [valueAcross, window]
  rw [if_neg hb]

/-- **A field read has the stream bits of the field and nothing above**, whether it lies in one
word or straddles two. -/
theorem bit_read (hw : width ≤ 64) (ws : Array UInt64) (pos j : Nat) :
    bit (read ws pos width) j = (decide (j < width) && testBit ws (pos + j)) := by
  have hb : pos % 64 < 64 := Nat.mod_lt _ (by decide)
  dsimp only [read]
  split
  · -- one word: bit `j` of the field is bit `pos % 64 + j` of the word holding `pos`
    rename_i hfit
    rw [bit_value _ _ hb, bit_lowBits hw, testBit_eq]
    by_cases hj : j < width
    · have h1 : (pos + j) / 64 = pos / 64 := by omega
      have h2 : (pos + j) % 64 = pos % 64 + j := by omega
      simp [hj, h1, h2]
    · simp [hj]
  · -- two words: the field starts past bit 0 of its first word
    rename_i hstraddle
    rw [valueAcross_eq_window ws (by omega), bit_and, bit_window, bit_lowBits hw]
    by_cases hj : j < width
    · simp [hj, show j < 64 by omega]
    · simp [hj]

/-- **A write sets exactly the bits of its field**, to the low bits of the value. -/
theorem testBit_write (hw1 : 1 ≤ width) (hw : width ≤ 64) (ws : Array UInt64) (pos : Nat)
    (v : UInt64) (p : Nat) :
    testBit (write ws pos width v) p =
      if pos ≤ p ∧ p < pos + width then bit v (p - pos) else testBit ws p := by
  have hb : pos % 64 < 64 := Nat.mod_lt _ (by decide)
  unfold write
  dsimp only
  -- the word holding `pos` takes the low part of the field
  have hfirst : ∀ q, testBit (setWord ws (pos / 64) ((word ws (pos / 64) &&&
      ~~~(lowBits width <<< (pos % 64).toUInt64)) ||| ((v &&& lowBits width) <<<
        (pos % 64).toUInt64))) q =
      if pos / 64 = q / 64 ∧ pos ≤ q ∧ q < pos + width then bit v (q - pos) else testBit ws q := by
    intro q
    rw [testBit_setWord, testBit_eq ws q]
    by_cases hq : pos / 64 = q / 64
    · have hqm : q % 64 < 64 := Nat.mod_lt _ (by decide)
      rw [if_pos hq, bit_or, bit_and, bit_not, bit_shiftLeft hb, bit_shiftLeft hb, bit_and,
        bit_lowBits hw, ← hq]
      by_cases hin : pos ≤ q ∧ q < pos + width
      · have hoff : q % 64 - pos % 64 = q - pos := by omega
        simp [hq, hin, hqm, hoff, show pos % 64 ≤ q % 64 by omega,
          show q - pos < width by omega]
      · rw [if_neg (fun h => hin h.2)]
        by_cases hle : pos % 64 ≤ q % 64
        · have hout : ¬q % 64 - pos % 64 < width := by omega
          simp [hqm, hle, hout]
        · simp [hqm, hle]
    · rw [if_neg hq, if_neg (fun h => hq h.1)]
  split
  · -- the field straddles two words: the next word takes the high part
    rename_i hstraddle
    rw [testBit_setWord, word_setWord, if_neg (show pos / 64 ≠ pos / 64 + 1 by omega), hfirst]
    by_cases hq : pos / 64 + 1 = p / 64
    · have hpm : p % 64 < 64 := Nat.mod_lt _ (by decide)
      rw [if_pos hq, bit_or, bit_and, bit_not, bit_shiftRight (by omega),
        bit_shiftRight (by omega), bit_and, bit_lowBits hw, testBit_eq ws p, ← hq]
      by_cases hin : pos ≤ p ∧ p < pos + width
      · have hoff : 64 - pos % 64 + p % 64 = p - pos := by omega
        simp [hin, hpm, hoff, show p - pos < width by omega]
      · have hout : ¬64 - pos % 64 + p % 64 < width := by omega
        simp [hin, hpm, hout]
    · rw [if_neg hq]
      by_cases hq' : pos / 64 = p / 64
      · simp [hq']
      · rw [if_neg (fun h => hq' h.1), if_neg (by omega)]
  · -- the field fits in one word
    rename_i hfit
    rw [hfirst]
    by_cases hq : pos / 64 = p / 64
    · simp [hq]
    · rw [if_neg (fun h => hq h.1), if_neg (by omega)]

/-- Writing one bit sets that bit alone. -/
theorem testBit_writeBit (ws : Array UInt64) (i : Nat) (b : Bool) (q : Nat) :
    testBit (writeBit ws i b) q = if q = i then b else testBit ws q := by
  unfold writeBit
  rw [testBit_write (Nat.le_refl 1) (by decide)]
  by_cases hq : q = i
  · subst hq
    rw [if_pos ⟨Nat.le_refl _, Nat.lt_succ_self _⟩, if_pos rfl, Nat.sub_self]
    cases b <;> simp [bit_one]
  · rw [if_neg (by omega), if_neg hq]

/-- Setting a word within the words keeps their number. -/
theorem size_setWord (hi : i < ws.size) (w : UInt64) : (setWord ws i w).size = ws.size := by
  rw [setWord, if_pos hi, Array.set!_eq_setIfInBounds, Array.size_setIfInBounds]

/-- A write whose field lies within the words keeps their number, straddling two words or
not. -/
theorem size_write (hw1 : 1 ≤ width) (hend : pos + width ≤ 64 * ws.size) (v : UInt64) :
    (write ws pos width v).size = ws.size := by
  have hfirst : pos / 64 < ws.size := by omega
  unfold write
  dsimp only
  split
  · -- a straddling field ends past the first word, so the next word is within the words
    rename_i hstraddle
    rw [size_setWord (by rw [size_setWord hfirst]; omega), size_setWord hfirst]
  · exact size_setWord hfirst _

/-- Writing a bit within the words keeps their number. -/
theorem size_writeBit (hp : p < 64 * ws.size) (b : Bool) : (writeBit ws p b).size = ws.size :=
  size_write (Nat.le_refl 1) (by omega) _

/-- **A write touches the word its field starts in**, and the next word only when the field
straddles the two: every other word stays. -/
theorem word_write (hw1 : 1 ≤ width) (hw : width ≤ 64) (v : UInt64) {t : Nat}
    (hfirst : t ≠ pos / 64) (hnext : pos % 64 + width ≤ 64 ∨ t ≠ pos / 64 + 1) :
    word (write ws pos width v) t = word ws t :=
  eq_of_bit_eq fun j hj => by
    rw [bit_word _ _ hj, bit_word _ _ hj, testBit_write hw1 hw, if_neg (by omega)]

end Stream

/-! ### Rewriting a run of words -/

/-- A fold that rewrites each word of a run once, from what that word held before, leaves the
words of the run rewritten and the others as they were. -/
theorem word_foldl_range' {f : Array UInt64 → Nat → Array UInt64} {G : Nat → UInt64 → UInt64}
    (hf : ∀ acc t j, word (f acc t) j = if t = j then G t (word acc t) else word acc j)
    (ws : Array UInt64) (a n j : Nat) :
    word ((List.range' a n).foldl f ws) j =
      if a ≤ j ∧ j < a + n then G j (word ws j) else word ws j := by
  induction n generalizing a ws with
  | zero =>
    rw [if_neg (by omega)]
    rfl
  | succ n ih =>
    rw [List.range'_succ, List.foldl_cons, ih, hf]
    by_cases haj : a = j
    · subst haj
      rw [if_neg (by omega), if_pos rfl, if_pos (by omega)]
    · simp only [if_neg haj]
      by_cases hin : a + 1 ≤ j ∧ j < a + 1 + n
      · rw [if_pos hin, if_pos (by omega)]
      · rw [if_neg hin, if_neg (by omega)]

/-- Setting words within the words, one after another, keeps their number. -/
theorem size_foldl_setWord {G : Array UInt64 → Nat → UInt64} (ts : List Nat) (ws : Array UInt64)
    (h : ∀ t ∈ ts, t < ws.size) :
    (ts.foldl (fun acc t => setWord acc t (G acc t)) ws).size = ws.size := by
  induction ts generalizing ws with
  | nil => rfl
  | cons t ts ih =>
    have hsize := size_setWord (h t List.mem_cons_self) (G ws t)
    rw [List.foldl_cons, ih _ fun s hs => hsize ▸ h s (List.mem_cons_of_mem t hs), hsize]

/-! ### Walking a run of words in place

The shifts rewrite their words in place, and each step reads words that no earlier step has
rewritten: a walk up reads at or above the word it rewrites, a walk down at or below. Either way
every word of the run is rewritten from the words the walk started with. -/

/-- **A walk up a run of words whose step reads only words at or above the one it rewrites**
rewrites each word of the run as if from the words it started with, and keeps the others. -/
theorem word_foldl_ahead {R : Array UInt64 → Nat → UInt64}
    (hR : ∀ a b t, (∀ s, t ≤ s → word a s = word b s) → R a t = R b t)
    (ws : Array UInt64) (a n j : Nat) :
    word ((List.range' a n).foldl (fun acc t => setWord acc t (R acc t)) ws) j =
      if a ≤ j ∧ j < a + n then R ws j else word ws j := by
  induction n generalizing a ws with
  | zero =>
    rw [if_neg (by omega)]
    rfl
  | succ n ih =>
    rw [List.range'_succ, List.foldl_cons, ih]
    -- the first step rewrote word `a` alone, below every word the later steps read
    have hkept : ∀ s, a + 1 ≤ s → word (setWord ws a (R ws a)) s = word ws s := fun s hs => by
      rw [word_setWord, if_neg (by omega)]
    by_cases hin : a + 1 ≤ j ∧ j < a + 1 + n
    · rw [if_pos hin, if_pos (by omega), hR _ _ j fun s hs => hkept s (by omega)]
    · rw [if_neg hin, word_setWord]
      by_cases haj : a = j
      · subst haj
        rw [if_pos rfl, if_pos (by omega)]
      · rw [if_neg haj, if_neg (by omega)]

/-- **A walk down a run of words whose step reads only words at or below the one it rewrites**
rewrites each word of the run as if from the words it started with, and keeps the others. -/
theorem word_foldl_reverse_behind {R : Array UInt64 → Nat → UInt64}
    (hR : ∀ a b t, (∀ s, s ≤ t → word a s = word b s) → R a t = R b t)
    (ws : Array UInt64) (a n j : Nat) :
    word ((List.range' a n).reverse.foldl (fun acc t => setWord acc t (R acc t)) ws) j =
      if a ≤ j ∧ j < a + n then R ws j else word ws j := by
  induction n generalizing ws with
  | zero =>
    rw [if_neg (by omega)]
    rfl
  | succ n ih =>
    rw [List.range'_1_concat, List.reverse_append, List.reverse_singleton, List.singleton_append,
      List.foldl_cons, ih]
    -- the first step rewrote the top word alone, above every word the later steps read
    have hkept : ∀ s, s < a + n → word (setWord ws (a + n) (R ws (a + n))) s = word ws s :=
      fun s hs => by rw [word_setWord, if_neg (by omega)]
    by_cases hin : a ≤ j ∧ j < a + n
    · rw [if_pos hin, if_pos (by omega), hR _ _ j fun s hs => hkept s (by omega)]
    · rw [if_neg hin, word_setWord]
      by_cases hj : a + n = j
      · subst hj
        rw [if_pos rfl, if_pos (by omega)]
      · rw [if_neg hj, if_neg (by omega)]

section Shift

variable {ws : Array UInt64} {pos width stop p t : Nat}

/-- A window reads only the words from the one holding its start. -/
theorem window_congr {a b : Array UInt64} {start : Nat}
    (h : ∀ s, start / 64 ≤ s → word a s = word b s) : window a start = window b start := by
  unfold window
  dsimp only
  rw [h _ (Nat.le_refl _), h _ (Nat.le_succ _)]

/-- A word moved up reads only itself and the word below. -/
theorem wordUp_congr {a b : Array UInt64} (h : ∀ s, s ≤ t → word a s = word b s) :
    wordUp a width t = wordUp b width t := by
  unfold wordUp
  rw [h (t - 1) (Nat.sub_le t 1), h t (Nat.le_refl t)]

/-- A word moved up by `width` is the window of the stream `width` bits below it. -/
theorem wordUp_eq_window (hw1 : 1 ≤ width) (hw : width ≤ 64) (ht : 1 ≤ t) :
    wordUp ws width t = window ws (64 * t - width) := by
  have hi : (64 * t - width) / 64 = t - 1 := by omega
  unfold wordUp window
  dsimp only
  split
  · rename_i h64
    rw [if_pos (by omega), hi]
  · rename_i h64
    have hb : (64 * t - width) % 64 = 64 - width := by omega
    rw [if_neg (by omega), hi, hb, show t - 1 + 1 = t by omega, show 64 - (64 - width) = width by omega]

/-- **What opening a gap leaves in each word.** The word holding `pos` keeps its bits below
`pos` and moves the rest up within the word (a whole-word move leaves zeros); each word above
it, up to the one holding bit `stop - 1`, is moved up by `width` from the words as they were
before; the other words are kept. -/
theorem word_shiftUp (ws : Array UInt64) (pos width stop j : Nat) :
    word (shiftUp ws pos width stop) j =
      if j = pos / 64 then
        (word ws j &&& lowBits (pos % 64)) |||
          ((if width < 64 then word ws j <<< width.toUInt64 else 0) &&& ~~~lowBits (pos % 64))
      else if pos / 64 < j ∧ j ≤ (stop - 1) / 64 then wordUp ws width j
      else word ws j := by
  have hmoved := word_foldl_reverse_behind (R := fun acc t => wordUp acc width t)
    (fun _ _ _ h => wordUp_congr h) ws (pos / 64 + 1) ((stop - 1) / 64 - pos / 64)
  unfold shiftUp
  dsimp only
  rw [word_setWord]
  by_cases hj : j = pos / 64
  · -- the walk stays above the word holding `pos`, which is read after it
    subst hj
    rw [if_pos rfl, hmoved, if_neg (by omega), if_pos rfl]
  · rw [if_neg (Ne.symm hj), hmoved, if_neg hj]
    by_cases hin : pos / 64 + 1 ≤ j ∧ j < pos / 64 + 1 + ((stop - 1) / 64 - pos / 64)
    · rw [if_pos hin, if_pos (by omega)]
    · rw [if_neg hin, if_neg (by omega)]

/-- **What closing a field leaves in each word.** The word holding `pos` keeps its bits below
`pos` and takes the rest from the window `width` bits higher; each word above it, up to the one
holding bit `stop - 1`, becomes its window `width` bits higher in the words as they were
before; the other words are kept. -/
theorem word_shiftDown (ws : Array UInt64) (pos width stop j : Nat) :
    word (shiftDown ws pos width stop) j =
      if j = pos / 64 then
        (word ws j &&& lowBits (pos % 64)) |||
          (window ws (64 * j + width) &&& ~~~lowBits (pos % 64))
      else if pos / 64 < j ∧ j ≤ (stop - 1) / 64 then window ws (64 * j + width)
      else word ws j := by
  unfold shiftDown
  dsimp only
  rw [word_foldl_ahead (R := fun acc t => window acc (64 * t + width))
    (fun _ _ _ h => window_congr fun s hs => h s (by omega))]
  by_cases hin : pos / 64 + 1 ≤ j ∧ j < pos / 64 + 1 + ((stop - 1) / 64 - pos / 64)
  · -- the word holding `pos` was rewritten first, below every word the walk reads
    rw [if_pos hin, if_neg (by omega), if_pos (by omega)]
    exact window_congr fun s hs => by rw [word_setWord, if_neg (by omega)]
  · rw [if_neg hin, word_setWord]
    by_cases hj : j = pos / 64
    · subst hj
      rw [if_pos rfl, if_pos rfl]
    · rw [if_neg (Ne.symm hj), if_neg hj, if_neg (by omega)]

/-- Opening a gap keeps the bits below it. -/
theorem testBit_shiftUp_of_lt (hp : p < pos) :
    testBit (shiftUp ws pos width stop) p = testBit ws p := by
  rw [testBit_eq, testBit_eq ws p, word_shiftUp]
  by_cases hq : p / 64 = pos / 64
  · have hj : p % 64 < pos % 64 := by omega
    rw [if_pos hq, bit_or, bit_and, bit_and, bit_not, bit_lowBits (by omega), hq]
    simp [hj]
  · rw [if_neg hq, if_neg (by omega)]

/-- Opening a gap moves the bits after it up by its width, within the words it rewrites. -/
theorem testBit_shiftUp_of_le (hw1 : 1 ≤ width) (hw : width ≤ 64) (hp : pos + width ≤ p)
    (hp' : p < 64 * ((stop - 1) / 64 + 1)) :
    testBit (shiftUp ws pos width stop) p = testBit ws (p - width) := by
  rw [testBit_eq, word_shiftUp]
  by_cases hq : p / 64 = pos / 64
  · -- in the word holding `pos` the bits move up within the word
    have hwlt : width < 64 := by omega
    rw [if_pos hq, if_pos hwlt, bit_or, bit_and, bit_and, bit_not, bit_lowBits (by omega),
      bit_shiftLeft hwlt, testBit_eq ws (p - width)]
    have h1 : (p - width) / 64 = pos / 64 := by omega
    have h2 : (p - width) % 64 = p % 64 - width := by omega
    simp [h1, h2, hq, show ¬p % 64 < pos % 64 by omega, show width ≤ p % 64 by omega,
      Nat.mod_lt p (by decide : 0 < 64)]
  · -- the words above take the windows `width` bits lower
    rw [if_neg hq, if_pos (by omega), wordUp_eq_window hw1 hw (by omega), bit_window]
    have h1 : (64 * (p / 64) - width + p % 64) = p - width := by omega
    simp [h1, Nat.mod_lt p (by decide : 0 < 64)]

/-- Opening a gap keeps the words above the one holding bit `stop - 1`. -/
theorem testBit_shiftUp_of_ge (hw1 : 1 ≤ width) (hstop : pos + width ≤ stop)
    (hp : 64 * ((stop - 1) / 64 + 1) ≤ p) :
    testBit (shiftUp ws pos width stop) p = testBit ws p := by
  rw [testBit_eq, testBit_eq ws p, word_shiftUp, if_neg (by omega), if_neg (by omega)]

/-- Closing a field keeps the bits below it. -/
theorem testBit_shiftDown_of_lt (hp : p < pos) :
    testBit (shiftDown ws pos width stop) p = testBit ws p := by
  rw [testBit_eq, testBit_eq ws p, word_shiftDown]
  by_cases hq : p / 64 = pos / 64
  · have hj : p % 64 < pos % 64 := by omega
    rw [if_pos hq, bit_or, bit_and, bit_and, bit_not, bit_lowBits (by omega), hq]
    simp [hj]
  · rw [if_neg hq, if_neg (by omega)]

/-- Closing a field moves the later bits down by its width, within the words it rewrites. -/
theorem testBit_shiftDown_of_le (hp : pos ≤ p) (hp' : p < 64 * ((stop - 1) / 64 + 1)) :
    testBit (shiftDown ws pos width stop) p = testBit ws (p + width) := by
  rw [testBit_eq, word_shiftDown]
  have hpm : p % 64 < 64 := Nat.mod_lt p (by decide)
  have h1 : 64 * (p / 64) + width + p % 64 = p + width := by omega
  by_cases hq : p / 64 = pos / 64
  · rw [if_pos hq, bit_or, bit_and, bit_and, bit_not, bit_lowBits (by omega), bit_window]
    simp [h1, hpm, show ¬p % 64 < pos % 64 by omega]
  · rw [if_neg hq, if_pos (by omega), bit_window]
    simp [h1, hpm]

/-- Closing a field keeps the words above the one holding bit `stop - 1`. -/
theorem testBit_shiftDown_of_ge (hw1 : 1 ≤ width) (hstop : pos + width ≤ stop)
    (hp : 64 * ((stop - 1) / 64 + 1) ≤ p) :
    testBit (shiftDown ws pos width stop) p = testBit ws p := by
  rw [testBit_eq, testBit_eq ws p, word_shiftDown, if_neg (by omega), if_neg (by omega)]

/-- A shift whose last bit lies within the words keeps their number: it rewrites only the words
from the one holding `pos` to the one holding bit `stop - 1`. -/
theorem size_shiftUp (hpos : pos < stop) (hstop : stop ≤ 64 * ws.size) :
    (shiftUp ws pos width stop).size = ws.size := by
  have hmoved := size_foldl_setWord (G := fun acc t => wordUp acc width t)
    (List.range' (pos / 64 + 1) ((stop - 1) / 64 - pos / 64)).reverse ws fun t ht => by
      rw [List.mem_reverse, List.mem_range'_1] at ht
      omega
  unfold shiftUp
  dsimp only
  rw [size_setWord (by rw [hmoved]; omega), hmoved]

theorem size_shiftDown (hpos : pos < stop) (hstop : stop ≤ 64 * ws.size) :
    (shiftDown ws pos width stop).size = ws.size := by
  have hfirst : pos / 64 < ws.size := by omega
  unfold shiftDown
  dsimp only
  rw [size_foldl_setWord _ _ fun t ht => by
    rw [List.mem_range'_1] at ht
    rw [size_setWord hfirst]
    omega, size_setWord hfirst]

/-- **Opening a gap in a stream clear from `stop - width`** moves every bit after the gap up by
its width, and leaves the stream clear from `stop`. -/
theorem testBit_shiftUp_of_clear (hw1 : 1 ≤ width) (hw : width ≤ 64) (hstop : pos + width ≤ stop)
    (hclear : ∀ q, stop - width ≤ q → testBit ws q = false) (hp : pos + width ≤ p) :
    testBit (shiftUp ws pos width stop) p = if p < stop then testBit ws (p - width) else false := by
  -- bits past the last rewritten word are the stream's own, clear as they lie past `stop`
  by_cases hin : p < 64 * ((stop - 1) / 64 + 1)
  · rw [testBit_shiftUp_of_le hw1 hw hp hin]
    split
    · rfl
    · exact hclear _ (by omega)
  · rw [testBit_shiftUp_of_ge hw1 hstop (by omega), if_neg (by omega)]
    exact hclear _ (by omega)

/-- **Closing a field of a stream clear from `stop`** moves every later bit down by its width,
and leaves the stream clear from `stop - width`. -/
theorem testBit_shiftDown_of_clear (hw1 : 1 ≤ width) (hstop : pos + width ≤ stop)
    (hclear : ∀ q, stop ≤ q → testBit ws q = false) (hp : pos ≤ p) :
    testBit (shiftDown ws pos width stop) p =
      if p < stop - width then testBit ws (p + width) else false := by
  by_cases hin : p < 64 * ((stop - 1) / 64 + 1)
  · rw [testBit_shiftDown_of_le hp hin]
    split
    · rfl
    · exact hclear _ (by omega)
  · rw [testBit_shiftDown_of_ge hw1 hstop (by omega), if_neg (by omega)]
    exact hclear _ (by omega)

end Shift

/-- **Clearing a range clears exactly its bits.** -/
theorem testBit_clearRange (ws : Array UInt64) (lo hi p : Nat) :
    testBit (clearRange ws lo hi) p = if lo ≤ p ∧ p < hi then false else testBit ws p := by
  unfold clearRange
  rw [testBit_eq, word_foldl_range' (G := fun t w =>
      if max lo (64 * t) - 64 * t < min hi (64 * t + 64) - 64 * t then
        w &&& ~~~(lowBits (min hi (64 * t + 64) - 64 * t - (max lo (64 * t) - 64 * t)) <<<
          (max lo (64 * t) - 64 * t).toUInt64)
      else w), testBit_eq ws p]
  · have hpm : p % 64 < 64 := Nat.mod_lt p (by decide)
    by_cases hin : lo / 64 ≤ p / 64 ∧ p / 64 < lo / 64 + ((hi + 63) / 64 - lo / 64)
    · rw [if_pos hin]
      split
      · rw [bit_and, bit_not, bit_shiftLeft (by omega), bit_lowBits (by omega)]
        by_cases hp : lo ≤ p ∧ p < hi
        · simp [hp, hpm, show max lo (64 * (p / 64)) - 64 * (p / 64) ≤ p % 64 by omega,
            show p % 64 - (max lo (64 * (p / 64)) - 64 * (p / 64)) <
              min hi (64 * (p / 64) + 64) - 64 * (p / 64) - (max lo (64 * (p / 64)) - 64 * (p / 64))
              by omega]
        · rw [if_neg hp]
          by_cases hle : max lo (64 * (p / 64)) - 64 * (p / 64) ≤ p % 64
          · simp [hpm, hle, show ¬p % 64 - (max lo (64 * (p / 64)) - 64 * (p / 64)) <
              min hi (64 * (p / 64) + 64) - 64 * (p / 64) - (max lo (64 * (p / 64)) - 64 * (p / 64))
              by omega]
          · simp [hpm, hle]
      · rw [if_neg (by omega)]
    · rw [if_neg hin, if_neg (by omega)]
  · intro acc t j
    dsimp only
    split
    · exact word_setWord acc t _ j
    · split
      · subst_vars
        rfl
      · rfl

end CompactCollections.Stream
