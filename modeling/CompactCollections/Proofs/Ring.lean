import CompactCollections.Proofs.Capacity
import CompactCollections.Session.Ring
import Mathlib.Logic.Function.Iterate
/-!
# A ring buffer is a bounded FIFO queue

A ring buffer (`CompactCollections.Ring`) stands for the queue of its values, oldest first
(`CompactCollections.Ring.toList`). Its counters run free and wrap past `2 ^ 64`, and its cells
are found by masking a counter with one less than the number of cells; both are sound because that
number is a power of two no larger than `CompactCollections.maxCapacity`. The mask is then the
remainder (`CompactCollections.Ring.cell_eq`), the number divides `2 ^ 64`, and a wrap moves no
counter to another cell (`CompactCollections.Ring.toNat_add_mod`). The write counter is the read
counter moved on by the length (`CompactCollections.Ring.read_add_len`), so a queue that is not
full never reaches a cell it holds.

Every valid ring, whatever its counters, behaves as a bounded queue
(`CompactCollections.Ring.RefinesQueue`): putting appends unless the queue is full, taking removes
the oldest value, peeking reads it, and the length, the two tests and the listing read the queue.
Every ring a caller can reach is valid, and a ring shared behind a spin lock, used by one caller,
answers each shared call as the ring does and leaves its lock clear
(`CompactCollections.Ring.behavesAsBoundedQueue`). A ring through which values keep passing comes
round to every counter value, past the wrap included (`CompactCollections.Ring.counters_cycle`).
-/

namespace CompactCollections.Ring

variable {α : Type} {r : Ring α}

/-! ### Counters and cells -/

/-- **A ring whose counters can be trusted**: a power-of-two number of cells, at most
`maxCapacity`, and counters at most that many values apart. -/
structure Valid (r : Ring α) : Prop where
  capacity_pow : r.capacity.isPowerOfTwo
  capacity_le : r.capacity ≤ maxCapacity
  len_le : r.len ≤ r.capacity

theorem Valid.capacity_pos (h : r.Valid) : 0 < r.capacity :=
  Nat.pos_of_isPowerOfTwo h.capacity_pow

/-- The number of cells of a valid ring, a power of two at most `2 ^ 30`, divides `2 ^ 64`. -/
theorem Valid.capacity_dvd (h : r.Valid) : r.capacity ∣ Capacity.wordLimit := by
  obtain ⟨k, hk⟩ := h.capacity_pow
  have hk30 : k ≤ 30 := by
    rw [← Nat.pow_le_pow_iff_right (show 1 < 2 by decide), ← hk, ← Nat.one_shiftLeft]
    exact h.capacity_le
  rw [hk, Capacity.wordLimit, Nat.one_shiftLeft]
  exact Nat.pow_dvd_pow 2 (by omega)

/-- **The mask is the remainder**: the cell of a counter is the counter modulo the number of
cells, a power of two. -/
theorem cell_eq (h : r.capacity.isPowerOfTwo) (counter : UInt64) :
    r.cell counter = counter.toNat % r.capacity :=
  Capacity.wrap_eq_mod h _

/-- **A wrap moves no counter to another cell**: the cell of a wrapped sum is the cell of the sum. -/
theorem toNat_add_mod {c : Nat} (h : c ∣ Capacity.wordLimit) (a b : UInt64) :
    (a + b).toNat % c = (a.toNat + b.toNat) % c := by
  rw [UInt64.toNat_add, ← Nat.one_shiftLeft]
  exact Nat.mod_mod_of_dvd _ h

/-- **The write counter is the read counter moved on by the length**, through any wrap. -/
theorem read_add_len (r : Ring α) : r.read + r.len.toUInt64 = r.write := by
  have hsum : r.read + (r.write - r.read) = r.write := by grind
  rw [len, Nat.toUInt64_eq, UInt64.ofNat_toNat]
  exact hsum

/-- Distinct offsets below the number of cells are distinct cells. -/
theorem cell_offset_ne {c a i j : Nat} (hij : i < j) (hj : j < c) : (a + i) % c ≠ (a + j) % c := by
  intro heq
  have hdvd : c ∣ (a + j) - (a + i) := Nat.dvd_of_mod_eq_zero (Nat.sub_mod_eq_zero_of_mod_eq heq.symm)
  have hle := Nat.le_of_dvd (by omega) hdvd
  omega

/-- **From one counter, distinct offsets below the number of cells reach distinct cells**, the
counter wrapping or not. -/
theorem cell_add_ne (h : r.Valid) (c : UInt64) {i j : Nat} (hij : i < j) (hj : j < r.capacity) :
    r.cell (c + i.toUInt64) ≠ r.cell (c + j.toUInt64) := by
  have hmax := h.capacity_le
  rw [maxCapacity, Nat.one_shiftLeft] at hmax
  -- offsets below the number of cells are far below `2 ^ 64`
  have hoffset : ∀ x < r.capacity, x.toUInt64.toNat = x := fun x hx => by
    rw [Nat.toUInt64_eq, UInt64.toNat_ofNat', Nat.mod_eq_of_lt (by omega)]
  rw [cell_eq h.capacity_pow, cell_eq h.capacity_pow, toNat_add_mod h.capacity_dvd,
    toNat_add_mod h.capacity_dvd, hoffset i (by omega), hoffset j hj]
  exact cell_offset_ne hij hj

/-- The counters are equal exactly when no value is held. -/
theorem isEmpty_iff : r.isEmpty = true ↔ r.len = 0 := by
  simp only [isEmpty, beq_iff_eq, len]
  constructor
  · intro h
    rw [h]
    simp
  · intro h
    have hz : r.write - r.read = 0 := UInt64.toNat_inj.mp (h.trans UInt64.toNat_zero.symm)
    grind

@[simp] theorem length_toList (r : Ring α) : r.toList.length = r.len := by
  simp [toList]

/-- Value `i` of the queue is the one in the cell `i` past the read counter's. -/
theorem getElem_toList (r : Ring α) {i : Nat} (hi : i < r.toList.length) :
    r.toList[i] = r.cells (r.cell (r.read + i.toUInt64)) := by
  simp [toList]

/-! ### Each operation on the queue -/

/-- A valid ring that is not full holds fewer values than it has cells. -/
theorem len_lt (h : r.Valid) (hfull : r.isFull = false) : r.len < r.capacity := by
  have := h.len_le
  simp only [isFull, beq_eq_false_iff_ne, ne_eq] at hfull
  omega

@[simp] theorem capacity_put (r : Ring α) (v : α) : (r.put v).2.capacity = r.capacity := by
  unfold put
  split <;> rfl

@[simp] theorem read_put (r : Ring α) (v : α) : (r.put v).2.read = r.read := by
  unfold put
  split <;> rfl

theorem write_put (hfull : r.isFull = false) (v : α) : (r.put v).2.write = r.write + 1 := by
  simp [put, hfull]

@[simp] theorem capacity_pop (r : Ring α) : r.pop.2.capacity = r.capacity := by
  unfold pop
  split <;> rfl

@[simp] theorem write_pop (r : Ring α) : r.pop.2.write = r.write := by
  unfold pop
  split <;> rfl

theorem read_pop (hempty : r.isEmpty = false) : r.pop.2.read = r.read + 1 := by
  simp [pop, hempty]

/-- Putting into a ring that is not full adds one value. -/
theorem len_put (h : r.Valid) (hfull : r.isFull = false) (v : α) :
    (r.put v).2.len = r.len + 1 := by
  have hlt := len_lt h hfull
  have hmax := h.capacity_le
  unfold maxCapacity at hmax
  simp only [put, hfull, len, Bool.false_eq_true, if_false]
  have hsub : r.write + 1 - r.read = (r.write - r.read) + 1 := by grind
  rw [hsub, UInt64.toNat_add, UInt64.toNat_one, Nat.mod_eq_of_lt]
  -- the new count stays far below `2 ^ 64`
  rw [Nat.one_shiftLeft] at hmax
  unfold len at hlt
  omega

/-- **Putting into a ring that is not full appends the value**: the cell it writes is past every
cell the queue holds. -/
theorem toList_put (h : r.Valid) (hfull : r.isFull = false) (v : α) :
    (r.put v).2.toList = r.toList ++ [v] := by
  have hlen := len_put h hfull v
  have hlt := len_lt h hfull
  rw [toList, hlen, List.range_succ, List.map_append, toList]
  simp only [put, hfull, Bool.false_eq_true, if_false, List.map_cons, List.map_nil]
  congr 1
  · -- the queue's own cells are not the written one
    refine List.map_congr_left fun i hi => ?_
    have hne := cell_add_ne h r.read (List.mem_range.mp hi) hlt
    rw [read_add_len] at hne
    exact if_neg hne
  · rw [if_pos (by rw [read_add_len]; rfl)]

/-- Taking from a ring that is not empty drops one value. -/
theorem len_pop (hempty : r.isEmpty = false) : (r.pop).2.len = r.len - 1 := by
  have hne : r.len ≠ 0 := fun h0 => by rw [isEmpty_iff.mpr h0] at hempty; cases hempty
  simp only [pop, hempty, Bool.false_eq_true, if_false, len]
  have hsub : r.write - (r.read + 1) = (r.write - r.read) - 1 := by grind
  rw [hsub, UInt64.toNat_sub, UInt64.toNat_one]
  change _ = r.len - 1
  unfold len at hne ⊢
  have hlt := UInt64.toNat_lt (r.write - r.read)
  omega

/-- A step of the read counter, wrapping or not, is a step of every offset from it. -/
theorem add_one_add_toUInt64 (c : UInt64) (i : Nat) : c + 1 + i.toUInt64 = c + (i + 1).toUInt64 := by
  rw [UInt64.add_assoc, Nat.toUInt64_eq, Nat.toUInt64_eq, UInt64.ofNat_add, UInt64.add_comm 1]
  rfl

/-- **Taking from a ring that is not empty removes the oldest value**, and answers it. -/
theorem pop_eq (hempty : r.isEmpty = false) :
    (r.pop).1 = r.toList.head? ∧ (r.pop).2.toList = r.toList.tail := by
  have hne : r.len ≠ 0 := fun h0 => by rw [isEmpty_iff.mpr h0] at hempty; cases hempty
  obtain ⟨m, hm⟩ := Nat.exists_eq_succ_of_ne_zero hne
  have hlen := len_pop hempty
  constructor
  · simp [pop, peek, hempty, toList, hm, List.range_succ_eq_map]
  · rw [toList, hlen, toList, hm, List.range_succ_eq_map, List.map_cons, List.tail_cons,
      List.map_map, Nat.succ_sub_one]
    refine List.map_congr_left fun i _ => ?_
    -- the read counter moved by one, perhaps wrapping
    simp only [pop, hempty, Bool.false_eq_true, if_false, Function.comp_apply,
      add_one_add_toUInt64]
    rfl

/-- Taking with a fallback is taking, with the fallback for nothing. -/
theorem get_eq (r : Ring α) (d : α) : r.get d = (r.pop.1.getD d, r.pop.2) := rfl

/-- The oldest value is the head of the queue. -/
theorem peek_eq (r : Ring α) : r.peek = r.toList.head? := by
  unfold peek
  split
  · rename_i he
    have hnil : r.toList = [] :=
      List.length_eq_zero_iff.mp (by rw [length_toList]; exact isEmpty_iff.mp he)
    rw [hnil]
    rfl
  · rename_i he
    have hne : r.len ≠ 0 := fun h0 => he (isEmpty_iff.mpr h0)
    obtain ⟨m, hm⟩ := Nat.exists_eq_succ_of_ne_zero hne
    simp [toList, hm, List.range_succ_eq_map]

/-! ### Operations -/

/-- The operations that change a ring buffer. -/
inductive Op (α : Type) where
  | put (v : α)
  | get (fallback : α)
  | pop
  | clear
  deriving Repr

/-- What an operation or a shared call answers. -/
inductive Answer (α : Type) where
  | accepted (b : Bool)
  | value (v : α)
  | taken (v : Option α)
  | count (n : Nat)
  | done
  deriving DecidableEq, Repr

/-- Applies an operation: its answer and the ring after it. -/
def Op.run : Op α → Ring α → Answer α × Ring α
  | .put v, r => (.accepted (r.put v).1, (r.put v).2)
  | .get d, r => (.value (r.get d).1, (r.get d).2)
  | .pop, r => (.taken r.pop.1, r.pop.2)
  | .clear, r => (.done, r.clear)

/-- **What an operation does to a bounded queue of `c` values**: a put appends unless the queue
holds `c` values, a take removes the oldest value, answering it or the fallback. -/
def Op.onQueue (c : Nat) : Op α → List α → Answer α × List α
  | .put v, q => if q.length < c then (.accepted true, q ++ [v]) else (.accepted false, q)
  | .get d, q => (.value (q.head?.getD d), q.tail)
  | .pop, q => (.taken q.head?, q.tail)
  | .clear, _ => (.done, [])

/-- Taking answers the oldest value and leaves the rest, also from an empty ring. -/
theorem pop_spec (r : Ring α) :
    (r.pop).1 = r.toList.head? ∧ (r.pop).2.toList = r.toList.tail ∧
      (r.pop).2.capacity = r.capacity := by
  cases he : r.isEmpty with
  | false => exact ⟨(pop_eq he).1, (pop_eq he).2, by simp [pop, he]⟩
  | true =>
    have hnil : r.toList = [] := List.length_eq_zero_iff.mp (by rw [length_toList]; exact isEmpty_iff.mp he)
    simp [pop, he, hnil]

/-- Putting appends when there is room, and changes nothing when the queue is full. -/
theorem put_spec (h : r.Valid) (v : α) :
    (r.put v).1 = decide (r.toList.length < r.capacity) ∧
      (r.put v).2.toList = (if r.toList.length < r.capacity then r.toList ++ [v] else r.toList) ∧
      (r.put v).2.capacity = r.capacity := by
  have hle := h.len_le
  cases hf : r.isFull with
  | false =>
    have hlt := len_lt h hf
    refine ⟨by simp [put, hf, hlt], by rw [toList_put h hf, if_pos (by simpa using hlt)], by simp [put, hf]⟩
  | true =>
    have heq : r.len = r.capacity := by simpa [isFull] using hf
    simp [put, hf, heq]

/-- **Each operation on a valid ring** answers and changes the queue as on a bounded queue of as
many values as there are cells, and keeps the cells. -/
theorem Op.run_spec (h : r.Valid) (op : Op α) :
    ((op.run r).1, (op.run r).2.toList) = op.onQueue r.capacity r.toList ∧
      (op.run r).2.capacity = r.capacity := by
  cases op with
  | put v =>
    obtain ⟨ha, hq, hc⟩ := put_spec h v
    refine ⟨?_, hc⟩
    simp only [Op.run, Op.onQueue, ha, hq]
    by_cases hlt : r.toList.length < r.capacity
    · rw [if_pos hlt, if_pos hlt, decide_eq_true hlt]
    · rw [if_neg hlt, if_neg hlt, decide_eq_false hlt]
  | get d =>
    obtain ⟨ha, hq, hc⟩ := pop_spec r
    exact ⟨by rw [Op.run, Op.onQueue, get_eq, ha, hq], hc⟩
  | pop =>
    obtain ⟨ha, hq, hc⟩ := pop_spec r
    exact ⟨by simp only [Op.run, Op.onQueue, ha, hq], hc⟩
  | clear =>
    refine ⟨?_, rfl⟩
    have hnil : r.clear.toList = [] := by simp [toList, Ring.clear, len]
    simp only [Op.run, Op.onQueue, hnil]

/-- A bounded queue never holds more than its bound. -/
theorem Op.length_onQueue_le {c : Nat} {xs : List α} (hle : xs.length ≤ c) (op : Op α) :
    (op.onQueue c xs).2.length ≤ c := by
  cases op with
  | put v =>
    simp only [Op.onQueue]
    split
    · simp only [List.length_append, List.length_singleton]; omega
    · exact hle
  | get d => simp only [Op.onQueue, List.length_tail]; omega
  | pop => simp only [Op.onQueue, List.length_tail]; omega
  | clear => simp [Op.onQueue]

/-- Every operation keeps a ring valid. -/
theorem Valid.run (h : r.Valid) (op : Op α) : (op.run r).2.Valid := by
  obtain ⟨hq, hc⟩ := Op.run_spec h op
  have hlen : (op.run r).2.len ≤ (op.run r).2.capacity := by
    have hq2 := congrArg Prod.snd hq
    simp only at hq2
    rw [← length_toList, hc, hq2]
    exact Op.length_onQueue_le (by rw [length_toList]; exact h.len_le) op
  exact ⟨hc ▸ h.capacity_pow, hc ▸ h.capacity_le, hlen⟩

/-! ### Runs of operations -/

/-- The ring after a run of operations, in order. -/
def runAll (ops : List (Op α)) (r : Ring α) : Ring α :=
  ops.foldl (fun r op => (op.run r).2) r

/-- Every run keeps a ring valid. -/
theorem Valid.runAll (h : r.Valid) (ops : List (Op α)) : (runAll ops r).Valid := by
  induction ops generalizing r with
  | nil => exact h
  | cons op ops ih => exact ih (h.run op)

/-- **A value put into an empty ring and taken back** leaves the ring empty, with both counters
one further, wrapping past `2 ^ 64`. -/
theorem cycle_spec (h : r.Valid) (hempty : r.read = r.write) (v : α) :
    (runAll [.put v, .pop] r).capacity = r.capacity ∧
      (runAll [.put v, .pop] r).read = r.read + 1 ∧ (runAll [.put v, .pop] r).write = r.write + 1 := by
  have hlen : r.len = 0 := by simp [len, hempty]
  have hfull : r.isFull = false := by
    simp [isFull, hlen, Nat.ne_of_lt h.capacity_pos]
  -- after the put the ring holds one value
  have hput : (r.put v).2.isEmpty = false := by
    have hne : r.write ≠ r.write + 1 := by grind
    simp [isEmpty, write_put hfull, hempty, hne]
  simp only [runAll, List.foldl, Op.run]
  exact ⟨by simp, by rw [read_pop hput, read_put], by rw [write_pop, write_put hfull]⟩

/-- **Values passing one at a time through an empty ring move both counters on by their number**,
through every wrap past `2 ^ 64`, and leave the ring empty and valid. -/
theorem counters_cycle (h : r.Valid) (hempty : r.read = r.write) (v : α) (n : Nat) :
    ((runAll [.put v, .pop])^[n] r).capacity = r.capacity ∧
      ((runAll [.put v, .pop])^[n] r).read = r.read + n.toUInt64 ∧
      ((runAll [.put v, .pop])^[n] r).write = r.write + n.toUInt64 ∧
      ((runAll [.put v, .pop])^[n] r).Valid := by
  induction n with
  | zero => exact ⟨rfl, by simp, by simp, h⟩
  | succ n ih =>
    obtain ⟨hcap, hread, hwrite, hvalid⟩ := ih
    obtain ⟨hcap', hread', hwrite'⟩ :=
      cycle_spec hvalid (by rw [hread, hwrite, hempty]) v
    -- one more value passes through the ring the first `n` left
    have hstep : ∀ c : UInt64, c + n.toUInt64 + 1 = c + (n + 1).toUInt64 := fun c => by
      rw [UInt64.add_assoc, Nat.toUInt64_eq, Nat.toUInt64_eq, UInt64.ofNat_add]
      rfl
    rw [Function.iterate_succ_apply']
    exact ⟨hcap'.trans hcap, by rw [hread', hread, hstep], by rw [hwrite', hwrite, hstep],
      hvalid.runAll _⟩

/-! ### Reachable rings -/

section Reachable

variable [Inhabited α]

/-- **The rings a caller can reach**: an empty ring of a size the sizing rule gives, then any run
of operations. -/
inductive Reachable : Ring α → Prop
  | new {n : Nat} {r : Ring α} : new? n = .ok r → Reachable r
  | step {r : Ring α} (op : Op α) : Reachable r → Reachable (op.run r).2

/-- A fresh ring is empty, and its size is the least power of two at or above the request. -/
theorem new?_spec {n : Nat} {r : Ring α} (h : new? n = .ok r) :
    r.capacity = Capacity.powerOfTwoAtLeast n ∧ r.toList = [] ∧ r.Valid := by
  simp only [new?, bind, Except.bind, pure, Except.pure] at h
  split at h
  · cases h
  · rename_i p hp
    cases h
    obtain ⟨hpow, -, hmax⟩ := Capacity.nextPowerOfTwo_spec hp
    exact ⟨(Capacity.nextPowerOfTwo_eq_ok_iff.mp hp).1, by simp [toList, len],
      ⟨hpow, hmax, by simp [len]⟩⟩

/-- A ring can be built exactly when the power of two it asks for is at most `maxCapacity`. -/
theorem new?_ok_iff (n : Nat) :
    (∃ r : Ring α, new? n = .ok r) ↔ Capacity.powerOfTwoAtLeast n ≤ maxCapacity := by
  simp only [new?, bind, Except.bind, pure, Except.pure]
  constructor
  · rintro ⟨r, hr⟩
    split at hr
    · cases hr
    · rename_i p hp
      exact (Capacity.nextPowerOfTwo_eq_ok_iff.mp hp).2
  · intro hle
    have hp : Capacity.nextPowerOfTwo n = .ok (Capacity.powerOfTwoAtLeast n) :=
      Capacity.nextPowerOfTwo_eq_ok_iff.mpr ⟨rfl, hle⟩
    rw [hp]
    exact ⟨_, rfl⟩

/-- Every reachable ring is valid. -/
theorem Reachable.valid (h : r.Reachable) : r.Valid := by
  induction h with
  | new hn => exact (new?_spec hn).2.2
  | step op _ ih => exact ih.run op

/-- A run of operations from a reachable ring reaches a ring. -/
theorem Reachable.runAll (h : r.Reachable) (ops : List (Op α)) : (runAll ops r).Reachable := by
  induction ops generalizing r with
  | nil => exact h
  | cons op ops ih => exact ih (.step op h)

end Reachable

/-! ### The refinement -/

/-- **A ring behaves as the bounded queue of its values** `r.toList`: the length is the number of
values, at most the number of cells; it is empty or full exactly when the queue is; the oldest
value is the head; and each operation answers and changes the queue as on a bounded queue of as
many values as there are cells, keeping the cells. -/
structure RefinesQueue (r : Ring α) : Prop where
  len_eq : r.len = r.toList.length
  len_le : r.toList.length ≤ r.capacity
  isEmpty_eq : r.isEmpty = r.toList.isEmpty
  isFull_eq : r.isFull = (r.toList.length == r.capacity)
  peek_eq : r.peek = r.toList.head?
  run_eq : ∀ op : Op α, ((op.run r).1, (op.run r).2.toList) = op.onQueue r.capacity r.toList ∧
    (op.run r).2.capacity = r.capacity

/-- A valid ring behaves as a bounded queue, whatever its counters. -/
theorem Valid.refinesQueue (h : r.Valid) : r.RefinesQueue where
  len_eq := (length_toList r).symm
  len_le := by rw [length_toList]; exact h.len_le
  isEmpty_eq := by
    rw [Bool.eq_iff_iff, isEmpty_iff, List.isEmpty_iff, ← List.length_eq_zero_iff, length_toList]
  isFull_eq := by rw [isFull, length_toList]
  peek_eq := peek_eq r
  run_eq op := Op.run_spec h op

end CompactCollections.Ring

namespace CompactCollections.SpinRing

open CompactCollections.Ring (Answer)

variable {α : Type} {s : SpinRing α}

/-! ### One caller, one lock -/

/-- The calls a shared ring takes under its lock. -/
inductive Call (α : Type) where
  | put (v : α)
  | get (fallback : α)
  | len
  | capacity
  deriving Repr

/-- Makes a shared call: no result when the lock is held, else the answer and the shared ring
after it. -/
def Call.run : Call α → SpinRing α → Option (Answer α × SpinRing α)
  | .put v, s => (s.putShared v).map (Prod.map .accepted id)
  | .get d, s => (s.getShared d).map (Prod.map .value id)
  | .len, s => (s.lenShared).map (Prod.map .count id)
  | .capacity, s => (s.capacityShared).map (Prod.map .count id)

/-- What the same call does on the ring itself. -/
def Call.onRing : Call α → Ring α → Answer α × Ring α
  | .put v, r => (.accepted (r.put v).1, (r.put v).2)
  | .get d, r => (.value (r.get d).1, (r.get d).2)
  | .len, r => (.count r.len, r)
  | .capacity, r => (.count r.capacity, r)

/-- **A call on a ring whose lock is clear returns**, answers as the ring does, and leaves the
lock clear. -/
theorem Call.run_ofRing (c : Call α) (r : Ring α) :
    c.run (ofRing r) = some ((c.onRing r).1, ofRing (c.onRing r).2) := by
  cases c <;> rfl

/-- A shared ring whose lock is clear is the ring behind a clear lock. -/
theorem eq_ofRing (hl : s.locked = false) : s = ofRing s.intoInner := by
  obtain ⟨l, b⟩ := s
  change l = false at hl
  rw [hl]
  rfl

/-- A call leaves a ring a caller can reach. -/
theorem Call.onRing_reachable [Inhabited α] (c : Call α) {r : Ring α} (hr : r.Reachable) :
    (c.onRing r).2.Reachable := by
  cases c with
  | put v => exact .step (.put v) hr
  | get d => exact .step (.get d) hr
  | len => exact hr
  | capacity => exact hr

/-- **The shared rings one caller can reach**: a reachable ring behind a clear lock, then any run
of shared calls that return, and of operations through exclusive access. -/
inductive Reachable [Inhabited α] : SpinRing α → Prop
  | ofRing {r : Ring α} : r.Reachable → Reachable (ofRing r)
  | call {s s' : SpinRing α} (c : Call α) {a : Answer α} : Reachable s → c.run s = some (a, s') →
      Reachable s'
  | exclusive {s : SpinRing α} (op : Ring.Op α) : Reachable s →
      Reachable { s with buffer := (op.run s.buffer).2 }

/-- Between calls the lock is clear, and the ring inside is one a caller can reach. -/
theorem Reachable.unlocked [Inhabited α] (h : s.Reachable) :
    s.locked = false ∧ s.intoInner.Reachable := by
  induction h with
  | ofRing hr => exact ⟨rfl, hr⟩
  | call c _ hrun ih =>
    obtain ⟨hlock, hr⟩ := ih
    -- a call on a clear lock returns the ring's answer behind a clear lock
    rw [eq_ofRing hlock, Call.run_ofRing] at hrun
    obtain ⟨-, rfl⟩ := Prod.mk.inj (Option.some.inj hrun)
    exact ⟨rfl, c.onRing_reachable hr⟩
  | exclusive op _ ih => exact ⟨ih.1, .step op ih.2⟩

end CompactCollections.SpinRing

namespace CompactCollections.Ring

/-- **A ring buffer is a bounded FIFO queue**, of values of any type: it can be built exactly when the power of two at or
above the request is at most `maxCapacity`, and is then an empty queue with that many cells; every
reachable ring, whatever its counters have wrapped to, behaves as the bounded queue of its values;
and shared behind a spin lock, used by one caller, every call returns what the same operation
answers on the ring inside, and leaves the lock clear. -/
theorem behavesAsBoundedQueue {α : Type} [Inhabited α] :
    (∀ n, (∃ r : Ring α, new? n = .ok r) ↔ Capacity.powerOfTwoAtLeast n ≤ maxCapacity) ∧
    (∀ {n : Nat} {r : Ring α}, new? n = .ok r →
      r.capacity = Capacity.powerOfTwoAtLeast n ∧ r.toList = []) ∧
    (∀ {r : Ring α}, r.Reachable → r.RefinesQueue) ∧
    (∀ {s : SpinRing α}, s.Reachable → s.locked = false ∧ s.intoInner.RefinesQueue ∧
      ∀ c : SpinRing.Call α, c.run s =
        some ((c.onRing s.intoInner).1, SpinRing.ofRing (c.onRing s.intoInner).2)) := by
  refine ⟨new?_ok_iff, fun hn => ⟨(new?_spec hn).1, (new?_spec hn).2.1⟩,
    fun h => h.valid.refinesQueue, fun {s} h => ?_⟩
  obtain ⟨hlock, hr⟩ := h.unlocked
  refine ⟨hlock, hr.valid.refinesQueue, fun c => ?_⟩
  rw [SpinRing.eq_ofRing hlock]
  exact SpinRing.Call.run_ofRing c s.intoInner

/-- A ring of two cells across the wrap of its cells and of its counters. Two values in, one out
and one more in puts the third value in the first cell again, behind the second. After
`2 ^ 64 - 1` values have passed through, two more go in across the wrap of the write counter to
zero, and one comes out across the wrap of the read counter: the queue still answers first in,
first out, also when shared behind its lock. -/
theorem wrapped_behavesAsBoundedQueue :
    let fresh : Ring Int64 := ⟨2, fun _ => default, 0, 0⟩
    let cellsWrapped := runAll [.put 1, .put 2, .get 0, .put 3] fresh
    let countersWrapped := runAll [.put 7, .put 8, .get 0]
      ((runAll [.put 5, .pop])^[18446744073709551615] fresh)
    new? 2 = .ok fresh ∧
      cellsWrapped.RefinesQueue ∧ cellsWrapped.write = 3 ∧ cellsWrapped.toList = [2, 3] ∧
      countersWrapped.RefinesQueue ∧ countersWrapped.read = 0 ∧ countersWrapped.write = 1 ∧
      countersWrapped.toList = [8] ∧
      (SpinRing.Call.get 0).run (SpinRing.ofRing countersWrapped) =
        some (.value 8, SpinRing.ofRing (countersWrapped.get 0).2) := by
  intro fresh cellsWrapped countersWrapped
  have hnew : new? 2 = .ok fresh := rfl
  have hreach : countersWrapped.Reachable :=
    (Function.Iterate.rec (motive := Reachable) (Reachable.new hnew)
      (fun _ h => h.runAll _) _).runAll _
  -- the ring the long run leaves: two cells, both counters at `2 ^ 64 - 1`
  have hlong : (runAll [.put 5, .pop])^[18446744073709551615] fresh =
      ⟨2, ((runAll [.put 5, .pop])^[18446744073709551615] fresh).cells,
        18446744073709551615, 18446744073709551615⟩ := by
    obtain ⟨hcap, hread, hwrite, -⟩ :=
      counters_cycle (new?_spec hnew).2.2 rfl (5 : Int64) 18446744073709551615
    have hmoved : (0 : UInt64) + Nat.toUInt64 18446744073709551615 = 18446744073709551615 := by
      decide
    generalize (runAll [.put 5, .pop])^[18446744073709551615] fresh = X at hcap hread hwrite ⊢
    obtain ⟨c, C, rd, wr⟩ := X
    simp only at hcap hread hwrite
    rw [hcap, hread, hwrite, hmoved]
  -- the run after it reads only the counters and the cells it writes itself
  have hcounters : countersWrapped = runAll [.put 7, .put 8, .get 0]
      ⟨2, ((runAll [.put 5, .pop])^[18446744073709551615] fresh).cells,
        18446744073709551615, 18446744073709551615⟩ := by
    show runAll _ _ = _
    rw [← hlong]
  refine ⟨hnew, behavesAsBoundedQueue.2.2.1 ((Reachable.new hnew).runAll _), by decide +kernel,
    by decide +kernel, behavesAsBoundedQueue.2.2.1 hreach, by rw [hcounters]; decide +kernel,
    by rw [hcounters]; decide +kernel, by rw [hcounters]; decide +kernel, ?_⟩
  -- shared behind its lock, the ring answers the value still queued; every step from here reads
  -- the ring through the counters the long run left, never through the run itself
  rw [hcounters] at hreach ⊢
  have htaken : ((runAll [.put 7, .put 8, .get 0] ⟨2,
      ((runAll [.put 5, .pop])^[18446744073709551615] fresh).cells,
        18446744073709551615, 18446744073709551615⟩).get 0).1 = 8 := by decide +kernel
  rw [(behavesAsBoundedQueue.2.2.2 (SpinRing.Reachable.ofRing hreach)).2.2 (.get 0)]
  simp only [SpinRing.Call.onRing, SpinRing.intoInner, SpinRing.ofRing, htaken]

end CompactCollections.Ring
