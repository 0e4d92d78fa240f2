import CompactCollections.Proofs.Bits.Stream
/-!
# Counting the set bits of a stream

The bit lists and the byte sets count their members with `CompactCollections.Stream.popCount`,
a word at a time, and rank a position by adding the counts of the words below it to the count
of the low bits of its own word. Read bit by bit, all of these are one count: the number of set
stream bits below a position.

* `CompactCollections.Stream.popCount_eq_countP` – a word's count is the number of its set bits;
* `CompactCollections.Stream.foldl_popCount_word`, `CompactCollections.Stream.foldl_popCount` –
  the counts of the first words, or of all of them, are the set stream bits below their end;
* `CompactCollections.Stream.countP_testBit_succ` – the counts of the words below a position and
  of the low bits of its word are the set stream bits up to it.
-/

namespace CompactCollections.Stream

/-- A longer range adds nothing to a count where the test fails. -/
theorem countP_range_eq {f : Nat → Bool} {m n : Nat} (hmn : m ≤ n)
    (h : ∀ p, m ≤ p → p < n → f p = false) :
    (List.range n).countP f = (List.range m).countP f := by
  rw [show n = m + (n - m) by omega, List.range_add, List.countP_append, List.countP_map]
  have hzero : (List.range (n - m)).countP (f ∘ (m + ·)) = 0 :=
    List.countP_eq_zero.mpr fun j hj => by
      simp [h (m + j) (by omega) (by simp at hj; omega)]
  omega

/-- The count of a word is the number of its set bits. -/
theorem popCount_eq_countP (w : UInt64) : popCount w = (List.range 64).countP (bit w) :=
  List.countP_congr fun j hj => by rw [shiftRight_and_one_ne_zero w (List.mem_range.mp hj)]

/-- The count of the low `n` bits of a word. -/
theorem popCount_and_lowBits {n : Nat} (hn : n ≤ 64) (w : UInt64) :
    popCount (w &&& lowBits n) = (List.range n).countP (bit w) := by
  rw [popCount_eq_countP, countP_range_eq hn fun j hj _ => by simp [bit_lowBits hn]; omega]
  exact List.countP_congr fun j hj => by simp [bit_lowBits hn, List.mem_range.mp hj]

/-- Past its words a stream is clear. -/
theorem testBit_of_size_le {ws : Array UInt64} {p : Nat} (hp : 64 * ws.size ≤ p) :
    testBit ws p = false := by
  rw [testBit_eq, word, Array.getElem?_eq_none (by omega)]
  simp

/-- **The counts of the first `m` words are the set stream bits below `64 * m`.** -/
theorem foldl_popCount_word (ws : Array UInt64) (m : Nat) :
    (List.range m).foldl (fun n t => n + popCount (word ws t)) 0 =
      (List.range (64 * m)).countP (testBit ws) := by
  induction m with
  | zero => rfl
  | succ m ih =>
    rw [List.range_succ, List.foldl_append, ih, List.foldl_cons, List.foldl_nil, Nat.mul_succ,
      List.range_add, List.countP_append, List.countP_map, popCount_eq_countP]
    -- word `m` holds the stream bits `[64 * m, 64 * m + 64)`
    congr 1
    exact List.countP_congr fun j hj => by rw [bit_word ws m (List.mem_range.mp hj)]; rfl

/-- The counts of all the words of a stream are its set bits. -/
theorem foldl_popCount (ws : Array UInt64) :
    ws.foldl (fun n w => n + popCount w) 0 = (List.range (64 * ws.size)).countP (testBit ws) := by
  have hwords : ws.toList = (List.range ws.size).map (word ws) :=
    List.ext_getElem (by simp) fun t h₁ _ => by
      rw [List.getElem_map, List.getElem_range, Array.getElem_toList, word,
        Array.getElem?_eq_getElem (by simpa using h₁)]
      rfl
  rw [← Array.foldl_toList, hwords, List.foldl_map, ← foldl_popCount_word]

/-- **The counts of the words below position `i` and of the low bits of its own word, up to
`i`, are the set stream bits up to `i`.** -/
theorem countP_testBit_succ (ws : Array UInt64) (i : Nat) :
    (List.range (i / 64)).foldl (fun n t => n + popCount (word ws t)) 0 +
        popCount (word ws (i / 64) &&& lowBits (i % 64 + 1)) =
      (List.range (i + 1)).countP (testBit ws) := by
  have hsplit : i + 1 = 64 * (i / 64) + (i % 64 + 1) := by omega
  rw [foldl_popCount_word, popCount_and_lowBits (by omega), hsplit,
    @List.range_add (64 * (i / 64)) (i % 64 + 1), List.countP_append, List.countP_map]
  congr 1
  exact List.countP_congr fun j hj => by
    rw [bit_word ws (i / 64) (by simp at hj; omega)]
    rfl

end CompactCollections.Stream
