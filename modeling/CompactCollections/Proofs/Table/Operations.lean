import CompactCollections.Proofs.Table.ShiftBack
import CompactCollections.Proofs.Except
import CompactCollections.Table.Walk
/-!
# What a caller can do to a table

The writing operations of a table, gathered into one type so that a history is a list of
them, and the tables a caller can reach from a constructor.

* `CompactCollections.Table.Op` – store, remove, modify in place, clear, make room. The other
  writing methods are these under other names or runs of them.
* `CompactCollections.Table.Op.run` – what an operation answers and leaves.
* `CompactCollections.Table.Reachable` – the tables built by a constructor and then any run of
  operations.
* `CompactCollections.Table.Op.order` and `CompactCollections.Table.Placed` – the same tables
  with the order in which their in-slot entries were placed: the order of last insertion since
  the latest growth, a growth listing the entries by their slots before it.

The second half states what the code of each operation does in each of its cases, one lemma per
case, so that later proofs name the case they are in and never unfold the operation.
-/

namespace CompactCollections.Table

variable {V : Type}

/-- The entry `e` with its value rewritten by `φ` when its key is `k`. -/
def rewriteValue (k : UInt64) (φ : V → V) (e : UInt64 × V) : UInt64 × V :=
  if e.1 = k then (k, φ e.2) else e

@[simp] theorem fst_rewriteValue (k : UInt64) (φ : V → V) (e : UInt64 × V) :
    (rewriteValue k φ e).1 = e.1 := by
  unfold rewriteValue
  split
  · exact ‹e.1 = k›.symm
  · rfl

/-- The operations that change a table. Every writing method is one of them or a run of them:
`put`, `insert`, `put_null` and `put_nullable` store, and `extend` stores in turn; `remove`,
`take`, `remove_null` and `remove_nullable` remove; a write through `get_mut` modifies;
`reserve` and `try_reserve` make room. -/
inductive Op (V : Type) where
  /-- Stores a value under a key; `none` is the null key. -/
  | insert (k : Option UInt64) (v : V)
  /-- Removes a key. -/
  | take (k : Option UInt64)
  /-- Rewrites the value under a key in place. -/
  | modify (k : Option UInt64) (f : V → V)
  /-- Removes every key. -/
  | clear
  /-- Makes room for more keys. -/
  | reserve (additional : Nat)

namespace Op

/-- Applies an operation: its answer (the value replaced, removed or rewritten) and the table
after it. Only growth fails. -/
def run : Op V → Table V → Except CollectionError (Option V × Table V)
  | .insert k v, t => t.insertNullable k v
  | .take k, t => .ok (t.takeNullable k)
  | .modify k f, t =>
    match t.value? (t.tokenNullable k) with
    | some v => .ok (some v, t.setValue (t.tokenNullable k) (f v))
    | none => .ok (none, t)
  | .clear, t => .ok (none, t.clear)
  | .reserve n, t => (t.reserve n).map fun t' => (none, t')

/-- The order of the in-slot entries after an operation that took `t` to `t'`: a new key joins
at the end unless the table grew; a growth lists the entries by their slots before it; storing
over a key or modifying it keeps its place; a removal drops the key; a clear empties it. -/
def order (t t' : Table V) (σ : List (UInt64 × V)) : Op V → List (UInt64 × V)
  | .insert (some k) v =>
    if k = 0 then σ
    else if k ∈ σ.map Prod.fst then σ.map (rewriteValue k fun _ => v)
    else if t'.capacity = t.capacity then σ ++ [(k, v)]
    else (t.placeAll (σ ++ [(k, v)])).toList.map Prod.snd
  | .take (some k) => σ.filter fun e => e.1 != k
  | .modify (some k) f => if k = 0 then σ else σ.map (rewriteValue k f)
  | .clear => []
  | .reserve _ => if t'.capacity = t.capacity then σ else (t.placeAll σ).toList.map Prod.snd
  | _ => σ

end Op

/-- **The tables a caller can reach**: one that a constructor returns – sized for some number
of entries at some load factor, clamped, with any hash function – and then any run of
operations. -/
inductive Reachable : Table V → Prop
  | fresh {hash : UInt64 → UInt64} {expected : Nat} {bits : UInt32} {t : Table V} :
    withConfig hash expected (LoadFactor.clamp bits) = .ok t → Reachable t
  | step {t t' : Table V} {r : Option V} (op : Op V) :
    Reachable t → op.run t = .ok (r, t') → Reachable t'

/-- **A reachable table with the order of its in-slot entries**, kept along the run as
`CompactCollections.Table.Op.order` says. -/
inductive Placed : Table V → List (UInt64 × V) → Prop
  | fresh {hash : UInt64 → UInt64} {expected : Nat} {bits : UInt32} {t : Table V} :
    withConfig hash expected (LoadFactor.clamp bits) = .ok t → Placed t []
  | step {t t' : Table V} {σ : List (UInt64 × V)} {r : Option V} (op : Op V) :
    Placed t σ → op.run t = .ok (r, t') → Placed t' (op.order t t' σ)

/-- Every reachable table has an order of its in-slot entries. -/
theorem Reachable.exists_placed {t : Table V} (h : t.Reachable) : ∃ σ, Placed t σ := by
  induction h with
  | fresh hbuild => exact ⟨[], .fresh hbuild⟩
  | step op _ hrun ih =>
    obtain ⟨σ, hσ⟩ := ih
    exact ⟨_, .step op hσ hrun⟩

/-! ### Runs of operations -/

namespace Op

/-- Runs operations one after another and keeps the last table; the first failure ends the
run. -/
def runAll : List (Op V) → Table V → Except CollectionError (Table V) :=
  runSteps run

/-- The order of the in-slot entries along a run, changed by each operation as
`CompactCollections.Table.Op.order` says. -/
def orderAll : List (Op V) → Table V → List (UInt64 × V) → List (UInt64 × V)
  | [], _, σ => σ
  | op :: ops, t, σ =>
    match op.run t with
    | .ok (_, t') => orderAll ops t' (op.order t t' σ)
    | .error _ => σ

theorem runAll_cons_ok {op : Op V} {ops : List (Op V)} {t t' : Table V}
    (h : runAll (op :: ops) t = .ok t') : ∃ r t₁, op.run t = .ok (r, t₁) ∧ runAll ops t₁ = .ok t' :=
  runSteps_cons_ok h

end Op

/-- A run that succeeds leaves a table placed by the order it builds; in particular a
reachable one. -/
theorem Placed.runAll {t t' : Table V} {σ : List (UInt64 × V)} (h : Placed t σ)
    (ops : List (Op V)) (hrun : Op.runAll ops t = .ok t') : Placed t' (Op.orderAll ops t σ) := by
  -- along the operations, each one a step of the run from the table before it
  induction ops generalizing t σ with
  | nil => cases hrun; exact h
  | cons op ops ih =>
    obtain ⟨r, t₁, hop, hrest⟩ := Op.runAll_cons_ok hrun
    rw [Op.orderAll, hop]
    exact ih (.step op h hop) hrest

theorem Reachable.runAll {t t' : Table V} (h : t.Reachable) (ops : List (Op V))
    (hrun : Op.runAll ops t = .ok t') : t'.Reachable :=
  runSteps_invariant (fun op _ _ _ h hop => .step op h hop) h hrun

/-! ### The code of each operation, case by case -/

section Cases

variable {t : Table V} {k : UInt64} {v : V} {i : Nat}

theorem probe_eq_seek (h : t.capacity.isPowerOfTwo) (k : UInt64) :
    t.probe k = seek t.slots t.capacity k (home t.hash t.capacity k) t.capacity := by
  rw [probe, ideal_eq_home h]

theorem insert_zero : t.insert 0 v = .ok (t.zero, { t with zero := some v }) := by
  simp [insert]

theorem insert_found (hk : k ≠ 0) (h : t.probe k = .found i) :
    t.insert k v =
      .ok ((t.entryAt? i).map Prod.snd, { t with slots := t.slots.insert i (k, v) }) := by
  simp [insert, hk, h]

theorem insert_vacant (hk : k ≠ 0) (h : t.probe k = .vacant i) :
    t.insert k v =
      if t.resizeAt ≤ t.assigned + 1 then
        ({ t with slots := t.slots.insert i (k, v), assigned := t.assigned + 1 }.rehash
          (2 * t.capacity)).map fun grown => (none, grown)
      else .ok (none, { t with slots := t.slots.insert i (k, v), assigned := t.assigned + 1 }) := by
  simp [insert, hk, h]

theorem take_zero : t.take 0 = (t.zero, { t with zero := none }) := by
  simp [take]

theorem take_found (hk : k ≠ 0) (h : t.probe k = .found i) :
    t.take k = ((t.entryAt? i).map Prod.snd,
      { t with slots := shiftBack t.hash t.capacity t.slots i 0 t.capacity,
               assigned := t.assigned - 1 }) := by
  simp [take, hk, h]

/-- A removal keeps the hash and the size. -/
theorem take_hash_capacity : (t.take k).2.hash = t.hash ∧ (t.take k).2.capacity = t.capacity := by
  unfold take
  split
  · exact ⟨rfl, rfl⟩
  · split <;> exact ⟨rfl, rfl⟩

theorem take_vacant (hk : k ≠ 0) (h : t.probe k = .vacant i) : t.take k = (none, t) := by
  simp [take, hk, h]

theorem token_found (hk : k ≠ 0) (h : t.probe k = .found i) : t.token k = .slot i := by
  simp [token, find?, hk, h]

theorem token_vacant (hk : k ≠ 0) (h : t.probe k = .vacant i) : t.token k = .none := by
  simp [token, find?, hk, h]

theorem setValue_slot {w : V} (h : t.slots[i]? = some (k, w)) :
    t.setValue (.slot i) v = { t with slots := t.slots.insert i (k, v) } := by
  simp [setValue, entryAt?, h]

/-- A rehash places the entries, in slot order, into as many empty slots as asked. -/
theorem rehash_eq {c : Nat} (hc : c ≤ maxCapacity) :
    t.rehash c =
      .ok { t with capacity := c, resizeAt := t.loadFactor.threshold c,
                   slots := placeAll { t with capacity := c } t.slotEntries } := by
  have hfold : ∀ (σ : List (UInt64 × V)) (T : Table V),
      σ.foldl place T = { T with slots := (σ.foldl place T).slots } := by
    intro σ
    induction σ with
    | nil => intro T; rfl
    | cons e σ ih =>
      intro T
      rw [List.foldl_cons, ih]
      unfold place
      split <;> rfl
  simp only [rehash, Nat.not_lt.mpr hc, if_false]
  rw [hfold]
  congr 2
  exact foldl_place_slots_congr _ rfl rfl rfl

end Cases

/-! ### A run of colliding keys -/

/-- A table sized for no entries at load factor one half that hashes every key to the same
word, which falls on its last slot. -/
def collidingStart : Table Nat :=
  empty (fun _ => 7) (LoadFactor.clamp 0x3F000000) 4

theorem collidingStart_placed : Placed collidingStart [] := by
  have hbuild : withConfig (fun _ => 7) 0 (LoadFactor.clamp 0x3F000000) =
      .ok collidingStart := rfl
  exact .fresh hbuild

theorem collidingStart_reachable : collidingStart.Reachable := by
  have hbuild : withConfig (fun _ => 7) 0 (LoadFactor.clamp 0x3F000000) =
      .ok collidingStart := rfl
  exact .fresh hbuild

/-- Keys that all share the last slot: three stored, the table doubling at the second, the
first of the cluster removed so that the other two shift back across the end of the slots, a
fourth stored, then the null and zero keys, and a value rewritten in place. -/
def collidingRun : List (Op Nat) :=
  [.insert (some 1) 10, .insert (some 2) 20, .insert (some 3) 30, .take (some 2),
    .insert (some 4) 40, .insert none 7, .insert (some 0) 5, .modify (some 3) (· + 1)]

end CompactCollections.Table
