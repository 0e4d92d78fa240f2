import CompactCollections.Proofs.Null.Refinement
import CompactCollections.Proofs.Bits.ListRefinement
import CompactCollections.Session.Nullable
import Mathlib.Data.List.InsertIdx
/-!
# A sentinel list is a growable array of optional values

A `CompactCollections.SentinelList` keeps its absent positions in band: one value of the width,
the sentinel, is stored where a position is absent, and growth of the packed list writes it. Every
sentinel list a caller can reach (`CompactCollections.SentinelList.Reachable`) behaves as the
array of optional values that decoding its items gives (`CompactCollections.SentinelList.toList`):
each operation answers and changes that array as `CompactCollections.NullList.Op.onList` says for
the same operation on optional values, with each written value reduced mod `2 ^ width`
(`CompactCollections.SentinelList.RefinesOptions`).

Three facts carry it. Growth pads with the packed list's default, which is the sentinel, so a
write past the end pads with absent positions (`map_decode_setItem`). Writing a value stores it
cut to the width, and the encoding refuses exactly the values whose cut is the sentinel, so
every stored value reads back as itself. And the encoding runs before the packed list is touched:
a refused value is refused wherever it was to be written, also where growing the list would
have overflowed.
-/

namespace CompactCollections

namespace PackedList

/-- A write pads the list up to the position it writes, then replaces that position. -/
theorem setItem_eq_set (d : UInt64) (xs : List UInt64) (i : Nat) (x : UInt64) :
    setItem d xs i x = (xs ++ List.replicate (i + 1 - xs.length) d).set i x := by
  unfold setItem
  split
  · rw [show i + 1 - xs.length = 0 by omega, List.replicate_zero, List.append_nil]
  · rw [set_append_replicate (by omega)]

/-- The mask of a valid list is the number `2 ^ width - 1`. -/
theorem Valid.mask_toNat {l : PackedList} (h : l.Valid) : l.mask.toNat = (1 <<< l.width) - 1 := by
  rw [Nat.one_shiftLeft]
  refine Nat.eq_of_testBit_eq fun j => ?_
  rw [mask, Stream.testBit_toNat, Stream.bit_lowBits h.width_le, Nat.testBit_two_pow_sub_one]

end PackedList

namespace SentinelList

open CompactCollections.PackedList (setItem insertItem Becomes)
open CompactCollections.Dense (setPadded insertPadded)

variable {l l' : SentinelList}

/-! ### Reading the items -/

/-- How a stored item reads: the sentinel is an absence, any other item a value. -/
def decode (l : SentinelList) (raw : UInt64) : Option UInt64 :=
  if raw = l.sentinel then none else some raw

@[simp] theorem decode_sentinel (l : SentinelList) : l.decode l.sentinel = none :=
  if_pos rfl

theorem decode_of_ne {raw : UInt64} (h : raw ≠ l.sentinel) : l.decode raw = some raw :=
  if_neg h

theorem toList_eq_map (l : SentinelList) : l.toList = l.list.toList.map l.decode := rfl

/-- A lookup decodes the item at the position; nothing past the end. -/
theorem get?_eq_getD (l : SentinelList) (i : Nat) : l.get? i = l.toList.getD i none := by
  rw [get?, PackedList.get?_eq_getElem?, toList_eq_map, List.getD_eq_getElem?_getD,
    List.getElem?_map]
  cases l.list.toList[i]? with
  | none => rfl
  | some raw =>
    by_cases h : raw = l.sentinel
    · simp [decode, Option.filter, h]
    · simp [decode, Option.filter, h]

/-! ### Decoding commutes with the writes -/

/-- **Padding reads as absent positions**: a write past the end pads with the sentinel. -/
theorem map_decode_setItem (xs : List UInt64) (i : Nat) (raw : UInt64) :
    (setItem l.sentinel xs i raw).map l.decode = setPadded (xs.map l.decode) i (l.decode raw) := by
  rw [PackedList.setItem_eq_set, List.map_set, List.map_append, List.map_replicate,
    decode_sentinel, setPadded, List.length_map]

theorem map_decode_insertItem (xs : List UInt64) (i : Nat) (raw : UInt64) :
    (insertItem l.sentinel xs i raw).map l.decode =
      insertPadded (xs.map l.decode) i (l.decode raw) := by
  unfold insertItem insertPadded
  rw [List.length_map]
  split
  · exact List.map_insertIdx _ _ _ _
  · exact map_decode_setItem xs i raw

/-! ### Well-formed lists -/

/-- **A well-formed sentinel list**: its packed list is valid, and its growth writes the
sentinel. -/
structure Good (l : SentinelList) : Prop where
  valid : l.list.Valid
  default_eq : l.list.default = l.sentinel

/-- The sentinel is a value of the width. -/
theorem Good.sentinel_and_mask (h : l.Good) : l.sentinel &&& l.list.mask = l.sentinel := by
  rw [← h.default_eq]
  exact PackedList.default_and_mask h.valid

theorem good_withSentinel {p : PackedList} (hp : p.Valid) (n : UInt64) :
    (withSentinel p n).Good :=
  ⟨hp.withDefault n, rfl⟩

/-- Replacing the packed list by one that holds `xs` keeps the list well-formed, reading the
decoded `xs`. -/
theorem Good.withList (h : l.Good) {p : PackedList} {xs : List UInt64} (hb : Becomes l.list p xs) :
    ({ l with list := p } : SentinelList).Good ∧
      ({ l with list := p } : SentinelList).toList = xs.map l.decode :=
  ⟨⟨hb.valid, hb.default_eq.trans h.default_eq⟩, by rw [toList_eq_map, hb.toList_eq]; rfl⟩

/-! ### Encoding -/

/-- **The encoding refuses exactly the values whose cut is the sentinel**, naming the cut value;
an absence encodes as the sentinel. -/
theorem encode_error_iff {y : Option UInt64} {a : Abort} :
    l.encode y = .error a ↔
      ∃ v, y = some v ∧ v &&& l.list.mask = l.sentinel ∧
        a = .reservedNull (v &&& l.list.mask).toNat := by
  cases y with
  | none => simp [encode]
  | some v =>
    simp only [encode]
    constructor
    · intro he
      split at he
      · cases he
        exact ⟨v, rfl, ‹_›, rfl⟩
      · cases he
    · rintro ⟨w, hw, hv, rfl⟩
      cases hw
      rw [if_pos hv]

/-- What the encoding stores is cut to the width and reads back as the written value, cut. -/
theorem Good.encode_ok (h : l.Good) {y : Option UInt64} {raw : UInt64}
    (he : l.encode y = .ok raw) :
    raw &&& l.list.mask = raw ∧ l.decode raw = y.map (· &&& l.list.mask) := by
  cases y with
  | none =>
    obtain rfl : l.sentinel = raw := Except.ok.inj he
    exact ⟨h.sentinel_and_mask, decode_sentinel l⟩
  | some v =>
    simp only [encode] at he
    split at he
    · cases he
    · cases he
      exact ⟨by rw [UInt64.and_assoc, UInt64.and_self], decode_of_ne ‹_›⟩

/-- A write that fails was refused by the encoding, or the step after it failed. -/
theorem encode_bind_error {β : Type} {y : Option UInt64} {f : UInt64 → Except Abort β} {a : Abort}
    (hf : ∀ raw, f raw = .error a → a.isOverflow) (hr : (l.encode y >>= f) = .error a) :
    (∃ v, y = some v ∧ v &&& l.list.mask = l.sentinel ∧
        a = .reservedNull (v &&& l.list.mask).toNat) ∨ a.isOverflow := by
  rcases error_of_bind_error hr with he | ⟨raw, -, hfr⟩
  · exact .inl (encode_error_iff.mp he)
  · exact .inr (hf raw hfr)

/-- Storing the encoded value fails only on a storage overflow. -/
theorem store_error {β : Type} {x : Except Stop PackedList} {g : PackedList → β} {a : Abort}
    (hx : ∀ s, x = .error s → s.isOverflow)
    (hr : (abortOnStop x >>= fun p => (pure (g p) : Except Abort β)) = .error a) :
    a.isOverflow := by
  rcases error_of_bind_error hr with he | ⟨p, -, hp⟩
  · obtain ⟨s, hs, rfl⟩ := error_of_abortOnStop he
    exact Stop.isOverflow_toAbort (hx s hs)
  · cases hp

/-! ### Operations -/

/-- The operations that change a sentinel list. -/
inductive Op where
  | set (i : Nat) (v : Option UInt64)
  | add (v : Option UInt64)
  | insert (i : Nat) (v : Option UInt64)
  | removeAt (i : Nat)
  | clear
  deriving Repr

/-- Applies an operation: what it answers (what a write replaced or a removal took) and the list
after it. -/
def Op.run : Op → SentinelList → Except Abort (Option UInt64 × SentinelList)
  | .set i v, l => l.set i v
  | .add v, l => (l.add v).map (none, ·)
  | .insert i v, l => (l.insert i v).map (none, ·)
  | .removeAt i, l => l.removeAt i
  | .clear, l => .ok (none, { l with list := l.list.clear })

/-- The same operation on an array of optional values. -/
def Op.toNullOp : Op → NullList.Op UInt64
  | .set i v => .set i v
  | .add v => .add v
  | .insert i v => .insert i v
  | .removeAt i => .removeAt i
  | .clear => .clear

/-- The value an operation writes, when it writes one. -/
def Op.written : Op → Option (Option UInt64)
  | .set _ v | .add v | .insert _ v => some v
  | _ => none

/-! ### One operation -/

/-- **Each operation that succeeds on a well-formed list** keeps it well-formed, with its
sentinel and width, and answers and changes the decoded positions as the same operation on
optional values, each written value cut to the width. -/
theorem Good.run_ok (h : l.Good) {op : Op} {a : Option UInt64} (hr : op.run l = .ok (a, l')) :
    l'.Good ∧ l'.sentinel = l.sentinel ∧ l'.list.width = l.list.width ∧
      (a, l'.toList) = op.toNullOp.onList (· &&& l.list.mask) l.toList := by
  cases op with
  | set i y =>
    obtain ⟨raw, he, hs⟩ := ok_of_bind_ok hr
    obtain ⟨p, hp, hs⟩ := ok_of_bind_ok hs
    obtain ⟨rfl, rfl⟩ := Prod.mk.inj (Except.ok.inj hs)
    obtain ⟨hcut, hdec⟩ := h.encode_ok he
    have hb := PackedList.becomes_set h.valid (ok_of_abortOnStop hp)
    rw [hcut, h.default_eq] at hb
    obtain ⟨hg, hlist⟩ := h.withList hb
    refine ⟨hg, rfl, hb.width_eq, ?_⟩
    rw [hlist, map_decode_setItem, hdec, get?_eq_getD]
    rfl
  | add y =>
    obtain ⟨l₁, hadd, hpair⟩ := ok_of_map_ok hr
    cases hpair
    obtain ⟨raw, he, hs⟩ := ok_of_bind_ok hadd
    obtain ⟨p, hp, hs⟩ := ok_of_bind_ok hs
    cases hs
    obtain ⟨hcut, hdec⟩ := h.encode_ok he
    have hb := PackedList.becomes_add h.valid (ok_of_abortOnStop hp)
    rw [hcut] at hb
    obtain ⟨hg, hlist⟩ := h.withList hb
    refine ⟨hg, rfl, hb.width_eq, ?_⟩
    rw [hlist, List.map_append, List.map_singleton, hdec]
    rfl
  | insert i y =>
    obtain ⟨l₁, hins, hpair⟩ := ok_of_map_ok hr
    cases hpair
    obtain ⟨raw, he, hs⟩ := ok_of_bind_ok hins
    obtain ⟨p, hp, hs⟩ := ok_of_bind_ok hs
    cases hs
    obtain ⟨hcut, hdec⟩ := h.encode_ok he
    have hb := PackedList.becomes_insert h.valid (ok_of_abortOnStop hp)
    rw [hcut, h.default_eq] at hb
    obtain ⟨hg, hlist⟩ := h.withList hb
    refine ⟨hg, rfl, hb.width_eq, ?_⟩
    rw [hlist, map_decode_insertItem, hdec]
    rfl
  | removeAt i =>
    obtain ⟨⟨raw, p⟩, hrm, hs⟩ := ok_of_bind_ok hr
    obtain ⟨rfl, rfl⟩ := Prod.mk.inj (Except.ok.inj hs)
    obtain ⟨hraw, hb⟩ := PackedList.removeAt_ok h.valid hrm
    obtain ⟨hg, hlist⟩ := h.withList hb
    refine ⟨hg, rfl, hb.width_eq, ?_⟩
    -- the answer is the removed item, decoded
    have hans : (if raw = l.sentinel then none else some raw) = l.toList.getD i none := by
      rw [toList_eq_map, List.getD_eq_getElem?_getD, List.getElem?_map, hraw]
      rfl
    rw [hlist, hans, toList_eq_map, ← List.eraseIdx_map]
    rfl
  | clear =>
    obtain ⟨rfl, rfl⟩ := Prod.mk.inj (Except.ok.inj hr)
    have hb := PackedList.becomes_clear h.valid
    obtain ⟨hg, hlist⟩ := h.withList hb
    exact ⟨hg, rfl, hb.width_eq, by rw [hlist]; rfl⟩

/-- Removing a position at or past the end fails, naming the position and the length. -/
theorem removeAt_error {i : Nat} {a : Abort} (hr : l.removeAt i = .error a) :
    l.list.len ≤ i ∧ a = .indexOutOfBounds .packed i l.list.len := by
  rcases error_of_bind_error hr with hrm | ⟨r, -, hs⟩
  · rcases error_of_bind_error hrm with hg | ⟨v, -, hs⟩
    · unfold PackedList.get at hg
      split at hg
      · cases hg
      · cases hg
        exact ⟨Nat.le_of_not_lt ‹_›, rfl⟩
    · cases hs
  · cases hs

/-- **An operation fails only** when it writes a value whose cut is the sentinel, naming the cut
value; on a storage overflow; or when it removes a position at or past the end. -/
theorem Op.run_error {op : Op} {a : Abort} (hr : op.run l = .error a) :
    (∃ v, op.written = some (some v) ∧ v &&& l.list.mask = l.sentinel ∧
        a = .reservedNull (v &&& l.list.mask).toNat) ∨ a.isOverflow ∨
      ∃ i, op = .removeAt i ∧ l.toList.length ≤ i ∧
        a = .indexOutOfBounds .packed i l.toList.length := by
  have hlen : l.toList.length = l.list.len := by
    rw [toList_eq_map, List.length_map, PackedList.length_toList]
  cases op with
  | set i y =>
    rcases encode_bind_error (fun raw hf => store_error (fun s => PackedList.set_error) hf) hr with
      ⟨v, rfl, hv⟩ | hover
    · exact .inl ⟨v, rfl, hv⟩
    · exact .inr (.inl hover)
  | add y =>
    rcases encode_bind_error (fun raw hf => store_error (fun s => PackedList.set_error) hf)
      (error_of_map_error hr) with ⟨v, rfl, hv⟩ | hover
    · exact .inl ⟨v, rfl, hv⟩
    · exact .inr (.inl hover)
  | insert i y =>
    rcases encode_bind_error (fun raw hf => store_error (fun s => PackedList.insert_error) hf)
      (error_of_map_error hr) with ⟨v, rfl, hv⟩ | hover
    · exact .inl ⟨v, rfl, hv⟩
    · exact .inr (.inl hover)
  | removeAt i =>
    obtain ⟨hi, rfl⟩ := removeAt_error hr
    rw [hlen]
    exact .inr (.inr ⟨i, rfl, hi, rfl⟩)
  | clear => cases hr

/-- **A write of a value whose cut is the sentinel is refused before anything changes**:
whatever the list and wherever the write, the operation fails naming the cut value. -/
theorem Op.run_reserved {op : Op} {v : UInt64} (hw : op.written = some (some v))
    (hv : v &&& l.list.mask = l.sentinel) :
    op.run l = .error (.reservedNull (v &&& l.list.mask).toNat) := by
  have he : l.encode (some v) = .error (.reservedNull (v &&& l.list.mask).toNat) :=
    encode_error_iff.mpr ⟨v, rfl, hv, rfl⟩
  cases op with
  | set i y =>
    cases hw
    simp only [Op.run, SentinelList.set, he]
    rfl
  | add y =>
    cases hw
    simp only [Op.run, SentinelList.add, he]
    rfl
  | insert i y =>
    cases hw
    simp only [Op.run, SentinelList.insert, he]
    rfl
  | removeAt i => cases hw
  | clear => cases hw

/-! ### Reachable lists -/

/-- **The sentinel lists a caller can reach**: an empty list of a valid width with any sentinel,
then any run of operations. -/
inductive Reachable : SentinelList → Prop
  | fresh {b : Nat} {p : PackedList} (n : UInt64) : PackedList.new? b = .ok p →
      Reachable (withSentinel p n)
  | step {l l' : SentinelList} (op : Op) {a : Option UInt64} : Reachable l →
      op.run l = .ok (a, l') → Reachable l'

/-- Every reachable list is well-formed: each step keeps it so. -/
theorem Reachable.good (h : l.Reachable) : l.Good := by
  induction h with
  | fresh n hnew => exact good_withSentinel (PackedList.valid_of_new? hnew) n
  | step op _ hrun ih => exact (ih.run_ok hrun).1

/-! ### The refinement -/

/-- **A sentinel list behaves as the array of its decoded positions** `l.toList`: the sentinel is
a value of the width, cutting to the width is reducing mod `2 ^ width`, the length and lookups
read the array (nothing past the end), each operation that succeeds keeps the sentinel and width
and answers and changes the array as on optional values, a write is refused with the cut value
exactly when that cut is the sentinel, and the only other failures are storage overflows and
removals past the end. -/
structure RefinesOptions (l : SentinelList) : Prop where
  sentinel_and_mask : l.sentinel &&& l.list.mask = l.sentinel
  and_mask_toNat : ∀ v : UInt64, (v &&& l.list.mask).toNat = v.toNat % (1 <<< l.list.width)
  len_eq : l.list.len = l.toList.length
  get?_eq : ∀ i, l.get? i = l.toList.getD i none
  run_ok : ∀ {op : Op} {a : Option UInt64} {l' : SentinelList}, op.run l = .ok (a, l') →
    l'.sentinel = l.sentinel ∧ l'.list.width = l.list.width ∧
      (a, l'.toList) = op.toNullOp.onList (· &&& l.list.mask) l.toList
  reserved_iff : ∀ (op : Op) (n : Nat), op.run l = .error (.reservedNull n) ↔
    ∃ v, op.written = some (some v) ∧ v &&& l.list.mask = l.sentinel ∧
      n = (v &&& l.list.mask).toNat
  run_error : ∀ {op : Op} {a : Abort}, op.run l = .error a →
    (∃ n, a = .reservedNull n) ∨ a.isOverflow ∨
      ∃ i, op = .removeAt i ∧ l.toList.length ≤ i ∧
        a = .indexOutOfBounds .packed i l.toList.length

theorem Good.refinesOptions (h : l.Good) : l.RefinesOptions where
  sentinel_and_mask := h.sentinel_and_mask
  and_mask_toNat v := Stream.toNat_and_lowBits h.valid.width_le v
  len_eq := by rw [toList_eq_map, List.length_map, PackedList.length_toList]
  get?_eq := get?_eq_getD l
  run_ok hr := (h.run_ok hr).2
  reserved_iff op n := by
    constructor
    · intro hr
      rcases Op.run_error hr with ⟨v, hw, hv, ha⟩ | hover | ⟨i, -, -, ha⟩
      · exact ⟨v, hw, hv, Abort.reservedNull.inj ha⟩
      · cases hover
      · cases ha
    · rintro ⟨v, hw, hv, rfl⟩
      exact Op.run_reserved hw hv
  run_error hr := by
    rcases Op.run_error hr with ⟨v, -, -, ha⟩ | hover | hout
    · exact .inl ⟨_, ha⟩
    · exact .inr (.inl hover)
    · exact .inr (.inr hout)

/-- **Every sentinel list is a growable array of optional values.** For every width `b` in
`1..=64` and every sentinel `n`, the empty list is reachable, holds no positions, has width `b`
and the sentinel `n mod 2 ^ b`, and the default sentinel of a session is `2 ^ b - 1`. Every
reachable list, after any run of writes, appends, insertions, removals and clearings, behaves as
the array of its decoded positions: the length, lookups, presence and every position read it,
writes past the end pad with absent positions, insertions at or past the end write, and the
values written and removed are those of the array. A session command that writes, appends or
inserts a value whose cut is the sentinel aborts, before the list changes, with the message
naming that cut value. -/
theorem reachable_refinesOptions :
    (∀ (b : Nat) (n : UInt64), 1 ≤ b → b ≤ 64 → ∃ p, PackedList.new? b = .ok p ∧
      (withSentinel p n).Reachable ∧ (withSentinel p n).toList = [] ∧
      (withSentinel p n).list.width = b ∧
      (withSentinel p n).sentinel.toNat = n.toNat % (1 <<< b) ∧
      p.mask.toNat = (1 <<< b) - 1) ∧
    (∀ {l : SentinelList}, l.Reachable → l.RefinesOptions) ∧
    ∀ (l : SentinelList) (i : Nat) (v : UInt64), v &&& l.list.mask = l.sentinel →
      Session.SentinelCommand.exec l (.set i (some v)) =
          .aborted (.reservedNull (v &&& l.list.mask).toNat) ∧
      Session.SentinelCommand.exec l (.add (some v)) =
          .aborted (.reservedNull (v &&& l.list.mask).toNat) ∧
      Session.SentinelCommand.exec l (.insert i (some v)) =
          .aborted (.reservedNull (v &&& l.list.mask).toNat) ∧
      (Abort.reservedNull (v &&& l.list.mask).toNat).message =
        toString (v &&& l.list.mask).toNat ++ " is reserved as the null value of this list" := by
  refine ⟨fun b n hb1 hb64 => ?_, fun h => h.good.refinesOptions, fun l i v hv => ?_⟩
  · have hnew : PackedList.new? b = .ok ⟨#[], 0, 0, b, 0⟩ := by
      rw [PackedList.new?, if_pos ⟨hb1, hb64⟩]
    have hvalid := PackedList.valid_of_new? hnew
    refine ⟨_, hnew, .fresh n hnew, rfl, rfl, ?_, hvalid.mask_toNat⟩
    exact Stream.toNat_and_lowBits hb64 n
  · have hset : (Op.set i (some v)).run l = .error (.reservedNull (v &&& l.list.mask).toNat) :=
      Op.run_reserved rfl hv
    have hadd : (Op.add (some v)).run l = .error (.reservedNull (v &&& l.list.mask).toNat) :=
      Op.run_reserved rfl hv
    have hins : (Op.insert i (some v)).run l = .error (.reservedNull (v &&& l.list.mask).toNat) :=
      Op.run_reserved rfl hv
    simp only [Op.run] at hset
    refine ⟨?_, ?_, ?_, rfl⟩
    · simp only [Session.SentinelCommand.exec, hset]
    · simp only [Session.SentinelCommand.exec, error_of_map_error hadd]
    · simp only [Session.SentinelCommand.exec, error_of_map_error hins]

/-- A list of 3-bit items whose sentinel is asked as 13 holds the sentinel 5. Run through a write
past the end, appends, an insertion of a value cut to three bits and a removal, it behaves as the
array of its decoded positions; writing 13 into it, or inserting 21 past its end, aborts naming
5, before the list grows. -/
theorem three_bit_sentinel_five :
    (∃ p, PackedList.new? 3 = .ok p ∧ (withSentinel p 13).Reachable ∧
      (withSentinel p 13).toList = [] ∧ (withSentinel p 13).list.width = 3 ∧
      (withSentinel p 13).sentinel.toNat = (13 : UInt64).toNat % (1 <<< 3) ∧
      p.mask.toNat = (1 <<< 3) - 1) ∧
    ∃ l, runSteps Op.run [.set 2 (some 3), .add none, .insert 0 (some 14), .add (some 7),
        .removeAt 1] (withSentinel ⟨#[], 0, 0, 3, 0⟩ 13) = .ok l ∧
      l.Reachable ∧ l.RefinesOptions ∧ l.toList = [some 6, none, some 3, none, some 7] ∧
      Session.SentinelCommand.exec l (.set 1 (some 13)) = .aborted (.reservedNull 5) ∧
      Session.SentinelCommand.exec l (.insert 9 (some 21)) = .aborted (.reservedNull 5) := by
  have hnew : PackedList.new? 3 = .ok ⟨#[], 0, 0, 3, 0⟩ := rfl
  obtain ⟨l, hrun, hfacts⟩ := exists_ok_of_any (x := runSteps Op.run [.set 2 (some 3), .add none,
      .insert 0 (some 14), .add (some 7), .removeAt 1] (withSentinel ⟨#[], 0, 0, 3, 0⟩ 13))
    (p := fun l => decide (l.toList = [some 6, none, some 3, none, some 7] ∧ l.list.mask = 7 ∧
      l.sentinel = 5)) (by decide +kernel)
  obtain ⟨hlist, hmask, hsentinel⟩ := of_decide_eq_true hfacts
  have h : l.Reachable :=
    runSteps_invariant (fun op _ _ _ h hop => Reachable.step op h hop) (.fresh 13 hnew) hrun
  -- both values are cut to the sentinel, 5
  have hcut : ∀ v : UInt64, v &&& 7 = 5 → v &&& l.list.mask = l.sentinel ∧
      (v &&& l.list.mask).toNat = 5 := fun v hv => by
    rw [hmask, hsentinel, hv]
    exact ⟨rfl, rfl⟩
  obtain ⟨h13, h13'⟩ := hcut 13 (by decide)
  obtain ⟨h21, h21'⟩ := hcut 21 (by decide)
  have hset := (reachable_refinesOptions.2.2 l 1 13 h13).1
  have hins := (reachable_refinesOptions.2.2 l 9 21 h21).2.2.1
  rw [h13'] at hset
  rw [h21'] at hins
  exact ⟨reachable_refinesOptions.1 3 13 (by decide) (by decide),
    l, hrun, h, reachable_refinesOptions.2.1 h, hlist, hset, hins⟩

end SentinelList

end CompactCollections
