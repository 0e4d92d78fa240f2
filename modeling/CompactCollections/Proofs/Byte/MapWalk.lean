import CompactCollections.Proofs.Byte.MapView
/-!
# Walking the entries of a byte map

A walk starts at `CompactCollections.ByteMap.firstToken` and steps by
`CompactCollections.ByteMap.nextToken` until the token `none`. It visits each byte key once,
ascending, then the null key (`CompactCollections.ByteMap.Represents.tokens_eq`), and each
token it visits names its key and that key's value.

The walk from byte position `i` on (`CompactCollections.ByteMap.tokensAbove`) is the slot of
each set bit from `i`, then the null token when the null key has a value. The nearest-key search
of the key set finds its first token, and after that token the walk goes on from the byte above
it (`CompactCollections.ByteMap.nextToken_slot`), so each step moves to the next token of the
list (`CompactCollections.ByteMap.nextToken_of_getElem?_tokensAbove`).
-/

namespace CompactCollections.ByteMap

open CompactCollections.Stream CompactCollections.ByteSet

variable {V : Type}

/-- **The keys of a map in walk order**: the bytes with a value, ascending, then the null key. -/
def walkKeys (F : Option UInt8 → Option V) : List (Option UInt8) :=
  (allBytes.map some ++ [none]).filter fun x => (F x).isSome

/-- The token that names a key: a byte's slot, or the null token. -/
def keyToken : Option UInt8 → Token
  | some k => .slot k.toNat
  | none => .null

/-- The null token, when the null key has a value. -/
def nullTokens (m : ByteMap V) : List Token :=
  if m.null.isSome then [.null] else []

/-- The walk from byte position `i` on: the slot of each key at or above `i`, ascending, then
the null token. -/
def tokensAbove (m : ByteMap V) (i : Nat) : List Token :=
  ((List.range' i (256 - i)).filter (testBit m.keys.words)).map .slot ++ m.nullTokens

/-- After the first position a filter over a run keeps, it keeps what it keeps over the
positions above that one. -/
theorem filter_range'_eq_cons {p : Nat → Bool} {i n j : Nat} {rest : List Nat}
    (h : (List.range' i n).filter p = j :: rest) :
    i ≤ j ∧ j < i + n ∧ rest = (List.range' (j + 1) (i + n - (j + 1))).filter p := by
  induction n generalizing i with
  | zero => simp at h
  | succ n ih =>
    rw [List.range'_succ, List.filter_cons] at h
    split at h
    · -- position `i` is kept, so it is the first
      obtain ⟨rfl, rfl⟩ := List.cons.inj h
      rw [show i + (n + 1) - (i + 1) = n by omega]
      exact ⟨Nat.le_refl i, by omega, rfl⟩
    · obtain ⟨hij, hjn, hrest⟩ := ih h
      rw [show i + 1 + n = i + (n + 1) by omega] at hrest
      exact ⟨by omega, by omega, hrest⟩

section Walk

variable (m : ByteMap V)

theorem nullToken_eq_getD : m.nullToken = (m.nullTokens[0]?).getD .none := by
  unfold nullToken nullTokens
  split <;> rfl

/-- The walk from a position where a key lies: that key's slot, then the walk from the byte
above it. -/
theorem tokensAbove_of_cons {i j : Nat} {rest : List Nat}
    (h : (List.range' i (256 - i)).filter (testBit m.keys.words) = j :: rest) :
    j < 256 ∧ m.tokensAbove i = .slot j :: m.tokensAbove (j + 1) := by
  obtain ⟨hij, hj, hrest⟩ := filter_range'_eq_cons h
  refine ⟨by omega, ?_⟩
  rw [tokensAbove, h, List.map_cons, List.cons_append, hrest, tokensAbove,
    show i + (256 - i) - (j + 1) = 256 - (j + 1) by omega]

theorem tokensAbove_of_nil {i : Nat}
    (h : (List.range' i (256 - i)).filter (testBit m.keys.words) = []) :
    m.tokensAbove i = m.nullTokens := by
  rw [tokensAbove, h, List.map_nil, List.nil_append]

/-- The first token of the walk from `i` on: the slot of the nearest key, else the null token. -/
theorem getD_tokensAbove_zero (i : Nat) :
    ((m.tokensAbove i)[0]?).getD .none =
      match (((List.range' i (256 - i)).filter (testBit m.keys.words)).head?).map UInt8.ofNat with
      | some k => .slot k.toNat
      | none => m.nullToken := by
  cases hP : (List.range' i (256 - i)).filter (testBit m.keys.words) with
  | nil => rw [tokensAbove_of_nil m hP, nullToken_eq_getD]; rfl
  | cons j rest =>
    obtain ⟨hj, htok⟩ := tokensAbove_of_cons m hP
    rw [htok, List.getElem?_cons_zero, Option.getD_some, List.head?_cons, Option.map_some]
    dsimp only
    rw [toNat_ofNat hj]

/-- **One step from a byte's slot goes to the walk from the byte above it.** -/
theorem nextToken_slot {j : Nat} (hj : j < 256) :
    m.nextToken (.slot j) = ((m.tokensAbove (j + 1))[0]?).getD .none := by
  -- the nearest key above `j`, when `j` is not the last byte
  have hnext : (if j + 1 < 256 then m.keys.nextKey (UInt8.ofNat (j + 1)) else none) =
      (((List.range' (j + 1) (256 - (j + 1))).filter (testBit m.keys.words)).head?).map
        UInt8.ofNat := by
    split
    · rw [nextKey_eq_head?, toNat_ofNat (by omega)]
    · rw [show 256 - (j + 1) = 0 by omega]
      rfl
  rw [getD_tokensAbove_zero, ← hnext]
  rfl

/-- The walk starts with the walk from byte zero. -/
theorem firstToken_eq_getD : m.firstToken = ((m.tokensAbove 0)[0]?).getD .none := by
  have hfirst := nextKey_eq_head? m.keys 0
  rw [getD_tokensAbove_zero, firstToken, first, hfirst]
  rfl

theorem none_not_mem_tokensAbove (i : Nat) : Token.none ∉ m.tokensAbove i := by
  unfold tokensAbove nullTokens
  split <;> simp

theorem length_tokensAbove_le (i : Nat) : (m.tokensAbove i).length ≤ 257 := by
  have hfilter := List.length_filter_le (testBit m.keys.words) (List.range' i (256 - i))
  rw [List.length_range'] at hfilter
  unfold tokensAbove nullTokens
  split <;> simp <;> omega

/-- **Each step of the walk goes to the next token of the list**, and from the last to `none`. -/
theorem nextToken_of_getElem?_tokensAbove {n i : Nat} {t : Token}
    (ht : (m.tokensAbove i)[n]? = some t) :
    m.nextToken t = ((m.tokensAbove i)[n + 1]?).getD .none := by
  induction n generalizing i with
  | zero =>
    cases hP : (List.range' i (256 - i)).filter (testBit m.keys.words) with
    | nil =>
      -- only the null token is left, and the walk ends after it
      rw [tokensAbove_of_nil m hP] at ht ⊢
      unfold nullTokens at ht ⊢
      by_cases hnull : m.null.isSome = true
      · rw [if_pos hnull, List.getElem?_cons_zero, Option.some.injEq] at ht
        subst ht
        rw [if_pos hnull]
        rfl
      · rw [if_neg hnull] at ht
        simp at ht
    | cons j rest =>
      obtain ⟨hj, htok⟩ := tokensAbove_of_cons m hP
      rw [htok, List.getElem?_cons_zero, Option.some.injEq] at ht
      subst ht
      rw [htok, List.getElem?_cons_succ, nextToken_slot m hj]
  | succ n ih =>
    cases hP : (List.range' i (256 - i)).filter (testBit m.keys.words) with
    | nil =>
      rw [tokensAbove_of_nil m hP] at ht
      unfold nullTokens at ht
      split at ht <;> simp at ht
    | cons j rest =>
      obtain ⟨-, htok⟩ := tokensAbove_of_cons m hP
      rw [htok, List.getElem?_cons_succ] at ht
      rw [htok, List.getElem?_cons_succ]
      exact ih ht

/-- A walk whose every step goes to the next token of a list `W` without `none`, started at
position `n` of `W` with fuel for the rest, lists the rest of `W`. -/
theorem tokensFrom_of_steps {W : List Token} (hnone : Token.none ∉ W)
    (hstep : ∀ n t, W[n]? = some t → m.nextToken t = (W[n + 1]?).getD .none) :
    ∀ fuel n, W.length ≤ n + fuel → m.tokensFrom ((W[n]?).getD .none) fuel = W.drop n := by
  intro fuel
  induction fuel with
  | zero =>
    intro n hn
    rw [tokensFrom, List.drop_eq_nil_of_le (by omega)]
  | succ fuel ih =>
    intro n hn
    cases hWn : W[n]? with
    | none =>
      rw [Option.getD_none, tokensFrom, if_pos rfl,
        List.drop_eq_nil_of_le (List.getElem?_eq_none_iff.mp hWn)]
    | some t =>
      -- a token of the list, followed by the rest of it
      obtain ⟨hlt, hget⟩ := List.getElem?_eq_some_iff.mp hWn
      have hne : t ≠ Token.none := fun h => hnone (h ▸ List.mem_of_getElem? hWn)
      rw [Option.getD_some, tokensFrom, if_neg hne, hstep n t hWn, ih (n + 1) (by omega),
        List.drop_eq_getElem_cons hlt, hget]

/-- **The walk lists the walk from byte zero.** -/
theorem tokens_eq_tokensAbove : m.tokens = m.tokensAbove 0 := by
  have hwalk := tokensFrom_of_steps m (none_not_mem_tokensAbove m 0)
    (fun n t ht => nextToken_of_getElem?_tokensAbove m ht) 257 0
    (by have := length_tokensAbove_le m 0; omega)
  rw [List.drop_zero, ← firstToken_eq_getD] at hwalk
  exact hwalk

end Walk

/-! ### The walk of the map a byte map stands for -/

section Represents

variable {m : ByteMap V} {F : Option UInt8 → Option V}

/-- The walk from byte zero names the keys of the map in walk order. -/
theorem Represents.tokensAbove_zero (h : m.Represents F) :
    m.tokensAbove 0 = (walkKeys F).map keyToken := by
  rw [tokensAbove, walkKeys, List.filter_append, List.map_append, nullTokens, h.null_eq]
  congr 1
  · -- the byte keys: a set bit is a byte with a value, and its slot is its number
    rw [allBytes, List.map_map, List.filter_map, List.map_map, Nat.sub_zero,
      ← List.range_eq_range']
    have hbits : (List.range 256).filter (testBit m.keys.words) =
        (List.range 256).filter ((fun x => (F x).isSome) ∘ some ∘ UInt8.ofNat) :=
      List.filter_congr fun j hj => by
        rw [Function.comp_apply, Function.comp_apply, ← h.contains_eq, contains_eq_testBit,
          toNat_ofNat (List.mem_range.mp hj)]
    rw [hbits]
    exact List.map_congr_left fun j hj => by
      rw [Function.comp_apply, Function.comp_apply, keyToken,
        toNat_ofNat (List.mem_range.mp (List.mem_filter.mp hj).1)]
  · rw [List.filter_cons, List.filter_nil]
    cases F none <;> rfl

/-- **A walk visits each key of the map once, in walk order.** -/
theorem Represents.tokens_eq (h : m.Represents F) : m.tokens = (walkKeys F).map keyToken := by
  rw [tokens_eq_tokensAbove, h.tokensAbove_zero]

theorem Represents.firstToken_eq (h : m.Represents F) :
    m.firstToken = (((walkKeys F).map keyToken)[0]?).getD .none := by
  rw [firstToken_eq_getD, h.tokensAbove_zero]

theorem Represents.nextToken_eq (h : m.Represents F) {n : Nat} {t : Token}
    (ht : ((walkKeys F).map keyToken)[n]? = some t) :
    m.nextToken t = (((walkKeys F).map keyToken)[n + 1]?).getD .none := by
  rw [← h.tokensAbove_zero] at ht ⊢
  exact nextToken_of_getElem?_tokensAbove m ht

/-- A key's token names the key exactly when the map has a value there. -/
theorem Represents.key?_keyToken (h : m.Represents F) (x : Option UInt8) :
    m.key? (keyToken x) = if (F x).isSome then some x else none := by
  cases x with
  | none => rw [keyToken, key?, h.null_eq]
  | some k =>
    rw [keyToken, key?, UInt8.ofNat_toNat, h.contains_eq]
    simp only [toNat_lt k, true_and]

/-- **The value of a key's token is the key's value.** -/
theorem Represents.value?_keyToken (h : m.Represents F) (x : Option UInt8) :
    m.value? (keyToken x) = F x := by
  cases x with
  | none => exact h.null_eq
  | some k =>
    have hkey := h.key?_keyToken (some k)
    simp only [value?, keyToken] at hkey ⊢
    rw [hkey]
    cases hF : F (some k) with
    | none => rfl
    | some v =>
      show m.get? k = some v
      rw [h.get?_eq k, hF]

end Represents

end CompactCollections.ByteMap
