import CompactCollections.Proofs.Byte.MapWalk
import CompactCollections.Session.Byte
/-!
# A byte map is a finite map

Every byte map a program can build (`CompactCollections.ByteMap.Reachable`) behaves as the finite
map it stands for (`CompactCollections.ByteMap.lookup`), from bytes and the null key to values
(`CompactCollections.ByteMap.ActsAsMap`):

* every operation answers and changes as the same operation on the map
  (`CompactCollections.ByteMap.Op.onMap`): storing and removing answer the value they replace or
  remove, rewriting a value answers the new one;
* the length is the number of keys, the key set holds the byte keys and its null flag says
  whether the null key has a value;
* the dense array holds one value per byte key, ascending, the value of `k` at index
  `rank k - 1`, and the listings of keys, entries and values go in ascending key order, the null
  key's value last;
* a walk visits each key once in that order, then ends, and each token names its key and value;
* read as signed bytes, the keys go `0 … 127` and then `-128 … -1`;
* two byte maps are the same exactly when they stand for the same map.

Each comes from `CompactCollections.ByteMap.Represents`, which every operation keeps.
-/

namespace CompactCollections.ByteMap

open CompactCollections.ByteSet

variable {V : Type}

/-! ### Operations on a byte map and on a finite map -/

/-- The operations that change a byte map: storing and removing under a key that may be the
null key, rewriting a byte's value, clearing, and storing a list of entries. -/
inductive Op (V : Type) where
  | insert (k : Option UInt8) (v : V)
  | take (k : Option UInt8)
  | modify (k : UInt8) (f : V → V)
  | clear
  | insertAll (entries : List (UInt8 × V))

/-- Runs an operation, with its answer. -/
def Op.run : Op V → ByteMap V → Option V × ByteMap V
  | .insert k v, m => m.insertNullable k v
  | .take k, m => m.takeNullable k
  | .modify k f, m => m.modify k f
  | .clear, m => (none, m.clear)
  | .insertAll es, m => (none, m.insertAll es)

/-- What an operation answers and leaves on a finite map: storing and removing answer the value
they replace or remove, rewriting answers the new value, clearing empties the map, and storing a
list stores each entry in turn. -/
def Op.onMap : Op V → (Option UInt8 → Option V) → Option V × (Option UInt8 → Option V)
  | .insert k v, F => (F k, Function.update F k (some v))
  | .take k, F => (F k, Function.update F k none)
  | .modify k f, F => ((F (some k)).map f, Function.update F (some k) ((F (some k)).map f))
  | .clear, _ => (none, fun _ => none)
  | .insertAll es, F => (none, es.foldl (fun F e => Function.update F (some e.1) (some e.2)) F)

/-- The byte maps a program can build: the empty map, then any operations. -/
inductive Reachable : ByteMap V → Prop
  | empty : Reachable ByteMap.empty
  | step {m : ByteMap V} (op : Op V) : Reachable m → Reachable (op.run m).2

/-- Storing a list of entries into a reachable map, as a session starts, reaches a map. -/
theorem Reachable.insertAll {m : ByteMap V} (h : m.Reachable) (es : List (UInt8 × V)) :
    (m.insertAll es).Reachable :=
  .step (.insertAll es) h

section Represents

variable {m : ByteMap V} {F : Option UInt8 → Option V}

/-- **Every operation answers and changes as on the map a byte map stands for.** -/
theorem Represents.run (h : m.Represents F) (op : Op V) :
    (op.run m).1 = (op.onMap F).1 ∧ (op.run m).2.Represents (op.onMap F).2 := by
  cases op with
  | insert k v =>
    cases k with
    | none => exact h.insertNull v
    | some k => exact h.insert k v
  | take k =>
    cases k with
    | none => exact h.takeNull
    | some k => exact h.take k
  | modify k f => exact h.modify k f
  | clear => exact ⟨rfl, represents_clear m⟩
  | insertAll es => exact ⟨rfl, h.insertAll es⟩

theorem Reachable.represents (h : m.Reachable) : m.Represents m.lookup := by
  suffices hF : ∃ F, m.Represents F by
    obtain ⟨F, hF⟩ := hF
    rwa [hF.lookup_eq]
  induction h with
  | empty => exact ⟨_, represents_clear ByteMap.empty⟩
  | step op _ ih =>
    obtain ⟨F, hF⟩ := ih
    exact ⟨_, (hF.run op).2⟩

/-! ### Counting and listing -/

/-- **The length is the number of keys of the map.** -/
theorem Represents.len_eq (h : m.Represents F) : m.len = (walkKeys F).length := by
  rw [len, h.wellFormed.len_eq, walkKeys, List.filter_append, List.length_append,
    ← List.countP_eq_length_filter, List.countP_map, allBytes, List.countP_map,
    List.filter_cons, List.filter_nil, h.null_eq]
  congr 1
  · exact List.countP_congr fun i hi => by
      simp only [Function.comp_apply]
      rw [← h.contains_eq, contains_eq_testBit, toNat_ofNat (List.mem_range.mp hi)]
  · cases F none <;> rfl

/-- **The value of a key sits at index `rank k - 1` of the dense array.** -/
theorem Represents.getElem?_values_rank (h : m.Represents F) {k : UInt8} {v : V}
    (hk : F (some k) = some v) : m.values[m.keys.rank k - 1]? = some v := by
  have hindex := h.denseIndex_of_some hk
  have hkey : m.keys.contains k = true := by rw [h.contains_eq, hk]; rfl
  rw [denseIndex, if_pos hkey, Option.some.injEq] at hindex
  rw [hindex]
  exact h.getElem?_values hk

theorem Represents.keys_toList (h : m.Represents F) :
    m.keys.toList = allBytes.filter fun k => (F (some k)).isSome := by
  rw [toList_eq_filter]
  exact List.filter_congr fun k _ => h.contains_eq k

/-- Pairing the members of a list where a map has a value with those values, in order, lists the
entries of the map. -/
theorem zip_filter_filterMap {α β : Type} (f : α → Option β) (l : List α) :
    (l.filter fun a => (f a).isSome).zip (l.filterMap f) = l.filterMap fun a => (f a).map (a, ·) := by
  induction l with
  | nil => rfl
  | cons a l ih =>
    cases hf : f a <;> simp [hf, ih]

theorem Represents.entries_eq (h : m.Represents F) :
    m.entries = allBytes.filterMap fun k => (F (some k)).map (k, ·) := by
  rw [entries, h.keys_toList, h.values_eq]
  exact zip_filter_filterMap (fun k => F (some k)) allBytes

theorem Represents.allValues_eq (h : m.Represents F) :
    m.allValues = (allBytes.filterMap fun k => F (some k)) ++ (F none).toList := by
  rw [allValues, h.values_eq, h.null_eq]

/-! ### Equality -/

/-- **Two byte maps are the same exactly when they stand for the same map.** -/
theorem Represents.same_iff [BEq V] [LawfulBEq V] {m' : ByteMap V} {G : Option UInt8 → Option V}
    (h : m.Represents F) (h' : m'.Represents G) : m.same m' = true ↔ F = G := by
  simp only [same, Bool.and_eq_true, beq_iff_eq, ByteSet.same_iff]
  constructor
  · rintro ⟨⟨⟨hwords, -⟩, hvalues⟩, hnull⟩
    -- the lookups read the key words, the dense array and the null field alone
    rw [← h.lookup_eq, ← h'.lookup_eq]
    funext x
    cases x with
    | none => exact hnull
    | some k =>
      simp only [lookup, get?, denseIndex, contains, rank, hwords, hvalues]
      rfl
  · rintro rfl
    have hwords := h.wellFormed.words_eq h'.wellFormed fun k => by
      rw [h.contains_eq, h'.contains_eq]
    refine ⟨⟨⟨hwords, ?_, ?_⟩, Array.ext' ?_⟩, ?_⟩
    · rw [h.wellFormed.len_eq, h'.wellFormed.len_eq, hwords]
    · rw [h.hasNull_eq, h'.hasNull_eq]
    · rw [h.values_eq, h'.values_eq]
    · rw [h.null_eq, h'.null_eq]

end Represents

/-! ### Signed keys -/

/-- The walk order of signed bytes: the non-negative ones ascending, then the negative ones
ascending. -/
def SignedBefore (a b : Int) : Prop :=
  (0 ≤ a ∧ b < 0) ∨ ((0 ≤ a ↔ 0 ≤ b) ∧ a < b)

/-- Read as signed numbers, ascending bytes go `0 … 127` and then `-128 … -1`. -/
theorem signedBefore_byteKey {a b : UInt8} (hab : a < b) :
    SignedBefore (Session.byteKey true a) (Session.byteKey true b) := by
  rw [UInt8.lt_iff_toNat_lt] at hab
  have hb := toNat_lt b
  unfold Session.byteKey SignedBefore
  by_cases ha' : 128 ≤ a.toNat <;> by_cases hb' : 128 ≤ b.toNat <;> simp [ha', hb'] <;> omega

/-- The keys, read as unsigned bytes, ascend; read as signed bytes, they go through the
non-negative ones and then the negative ones, each ascending. -/
theorem keys_toList_byteKey_pairwise (s : ByteSet) :
    (s.toList.map (Session.byteKey false)).Pairwise (· < ·) ∧
      (s.toList.map (Session.byteKey true)).Pairwise SignedBefore := by
  rw [List.pairwise_map, List.pairwise_map]
  refine ⟨(pairwise_toList s).imp fun hab => ?_, (pairwise_toList s).imp signedBefore_byteKey⟩
  rw [UInt8.lt_iff_toNat_lt] at hab
  simp [Session.byteKey, hab]

/-! ### Every reachable byte map is a finite map -/

/-- **A byte map that behaves as the finite map it stands for.** Its operations answer and
change as on the map; its length, key set and null flag count and hold the keys of the map; its
dense array holds the value of each byte key `k` at index `rank k - 1`, ascending; its listings
and its walk go through the keys in ascending order and then the null key, the walk ending with
`none` and each of its tokens naming its entry; read as signed bytes its keys go through the
non-negative ones first; and it is the same as a reachable byte map exactly when they stand for
the same map. -/
structure ActsAsMap [BEq V] (m : ByteMap V) : Prop where
  run_eq : ∀ op : Op V, ((op.run m).1, (op.run m).2.lookup) = op.onMap m.lookup
  contains_eq : ∀ k, m.keys.contains k = (m.lookup (some k)).isSome
  hasNull_eq : m.keys.hasNull = (m.lookup none).isSome
  len_eq : m.len = (walkKeys m.lookup).length
  values_eq : m.values.toList = allBytes.filterMap fun k => m.lookup (some k)
  getElem?_values_rank : ∀ k v, m.lookup (some k) = some v → m.values[m.keys.rank k - 1]? = some v
  keys_toList : m.keys.toList = allBytes.filter fun k => (m.lookup (some k)).isSome
  entries_eq : m.entries = allBytes.filterMap fun k => (m.lookup (some k)).map (k, ·)
  allValues_eq : m.allValues = (allBytes.filterMap fun k => m.lookup (some k)) ++ (m.lookup none).toList
  tokens_eq : m.tokens = (walkKeys m.lookup).map keyToken
  firstToken_eq : m.firstToken = (((walkKeys m.lookup).map keyToken)[0]?).getD .none
  nextToken_eq : ∀ n t, ((walkKeys m.lookup).map keyToken)[n]? = some t →
    m.nextToken t = (((walkKeys m.lookup).map keyToken)[n + 1]?).getD .none
  key?_keyToken : ∀ x, m.key? (keyToken x) = if (m.lookup x).isSome then some x else none
  value?_keyToken : ∀ x, m.value? (keyToken x) = m.lookup x
  keys_ordered : (m.keys.toList.map (Session.byteKey false)).Pairwise (· < ·) ∧
    (m.keys.toList.map (Session.byteKey true)).Pairwise SignedBefore
  same_iff : ∀ {m' : ByteMap V}, m'.Reachable → (m.same m' = true ↔ m.lookup = m'.lookup)

/-- **Every reachable byte map behaves as the finite map it stands for**, over any history of
stores, removals, rewrites, clears and extensions, with unsigned or signed keys. -/
theorem Reachable.actsAsMap [BEq V] [LawfulBEq V] {m : ByteMap V} (h : m.Reachable) :
    m.ActsAsMap := by
  have hm := h.represents
  refine ⟨fun op => ?_, hm.contains_eq, hm.hasNull_eq, hm.len_eq, hm.values_eq,
    fun k v hk => hm.getElem?_values_rank hk, hm.keys_toList, hm.entries_eq, hm.allValues_eq,
    hm.tokens_eq, hm.firstToken_eq, fun n t ht => hm.nextToken_eq ht, hm.key?_keyToken,
    hm.value?_keyToken, keys_toList_byteKey_pairwise m.keys,
    fun h' => hm.same_iff h'.represents⟩
  obtain ⟨hanswer, hrep⟩ := hm.run op
  rw [hanswer, hrep.lookup_eq]

/-- The map of two entries that a byte-map session starts from behaves as a finite map. -/
theorem insertAll_actsAsMap :
    ((ByteMap.empty : ByteMap Nat).insertAll [(3, 7), (200, 1)]).Reachable ∧
      ((ByteMap.empty : ByteMap Nat).insertAll [(3, 7), (200, 1)]).ActsAsMap :=
  have h := Reachable.empty.insertAll [((3 : UInt8), (7 : Nat)), (200, 1)]
  ⟨h, Reachable.actsAsMap h⟩

end CompactCollections.ByteMap
