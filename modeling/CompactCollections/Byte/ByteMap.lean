import CompactCollections.Byte.ByteSet
import CompactCollections.Token
/-!
# Maps keyed by bytes

A `CompactCollections.ByteMap` maps bytes, and a null key, to values of any type. Its keys
form a `CompactCollections.ByteSet`, whose null flag tracks the null key; the values of the
byte keys sit in a dense array in ascending key order, the value of `k` at index
`rank k - 1`. A byte key's token is the slot of the byte itself, so a walk visits the keys in
ascending order, then the null key.
-/

namespace CompactCollections

/-- A map from bytes and a null key to values of type `V`. -/
structure ByteMap (V : Type) where
  /-- The byte keys, and whether the null key is present. -/
  keys : ByteSet
  /-- The values of the byte keys, in ascending key order. -/
  values : Array V
  /-- The value under the null key. -/
  null : Option V
  deriving Repr

namespace ByteMap

variable {V : Type}

/-- The empty map. -/
def empty : ByteMap V := ⟨ByteSet.empty, #[], none⟩

/-- The number of keys, the null key included. -/
def len (m : ByteMap V) : Nat :=
  m.keys.len + (if m.null.isSome then 1 else 0)

/-- The index of key `k`'s value, if `k` is present. -/
def denseIndex (m : ByteMap V) (k : UInt8) : Option Nat :=
  if m.keys.contains k then some (m.keys.rank k - 1) else none

/-- The value under byte `k`. -/
def get? (m : ByteMap V) (k : UInt8) : Option V :=
  (m.denseIndex k).bind fun i => m.values[i]?

/-- Stores `v` under byte `k` and returns the value it replaces. -/
def insert (m : ByteMap V) (k : UInt8) (v : V) : Option V × ByteMap V :=
  match m.denseIndex k with
  | some i => (m.values[i]?, { m with values := m.values.setIfInBounds i v })
  | none =>
    let keys := (m.keys.insert k).2
    (none, { m with keys := keys, values := m.values.insertIdxIfInBounds (keys.rank k - 1) v })

/-- Stores `v` under the null key and returns the value it replaces. -/
def insertNull (m : ByteMap V) (v : V) : Option V × ByteMap V :=
  (m.null, { m with keys := m.keys.insertNull.2, null := some v })

/-- Removes byte `k` and returns its value. -/
def take (m : ByteMap V) (k : UInt8) : Option V × ByteMap V :=
  match m.denseIndex k with
  | some i => (m.values[i]?, { m with keys := (m.keys.remove k).2, values := m.values.eraseIdxIfInBounds i })
  | none => (none, m)

/-- Removes the null key and returns its value. -/
def takeNull (m : ByteMap V) : Option V × ByteMap V :=
  (m.null, { m with keys := m.keys.removeNull.2, null := none })

/-- Removes every key. -/
def clear (_ : ByteMap V) : ByteMap V := empty

/-- The token of the null key, `none` when absent. -/
def nullToken (m : ByteMap V) : Token :=
  if m.null.isSome then .null else .none

/-- The token of byte `k`, `none` when absent. -/
def token (m : ByteMap V) (k : UInt8) : Token :=
  if m.keys.contains k then .slot k.toNat else .none

/-- The key a token names: `some none` for the null key, `some (some k)` for a present byte,
`none` when the token names no entry. -/
def key? (m : ByteMap V) : Token → Option (Option UInt8)
  | .null => if m.null.isSome then some none else none
  | .slot i => if i < 256 ∧ m.keys.contains (UInt8.ofNat i) then some (some (UInt8.ofNat i)) else none
  | _ => none

/-- The value of the entry a token names. -/
def value? (m : ByteMap V) (tok : Token) : Option V :=
  match tok with
  | .null => m.null
  | _ => match m.key? tok with
    | some (some k) => m.get? k
    | _ => none

/-- The token of the first entry: the least byte key, else the null key. -/
def firstToken (m : ByteMap V) : Token :=
  match m.keys.first with
  | some k => .slot k.toNat
  | none => m.nullToken

/-- The token of the entry after the one `tok` names. -/
def nextToken (m : ByteMap V) : Token → Token
  | .slot i =>
    let next := if i + 1 < 256 then m.keys.nextKey (UInt8.ofNat (i + 1)) else none
    match next with
    | some k => .slot k.toNat
    | none => m.nullToken
  | .zero => m.nullToken
  | .null | .none => .none

/-- The byte entries in ascending key order. -/
def entries (m : ByteMap V) : List (UInt8 × V) :=
  m.keys.toList.zip m.values.toList

/-- The values in key order, the null key's last. -/
def allValues (m : ByteMap V) : List V :=
  m.values.toList ++ m.null.toList

/-- The tokens from `tok` on until `none`, at most `count` of them. -/
def tokensFrom (m : ByteMap V) (tok : Token) : Nat → List Token
  | 0 => []
  | count + 1 => if tok = .none then [] else tok :: m.tokensFrom (m.nextToken tok) count

/-- The tokens of a walk from the first entry: at most 256 bytes and the null key. -/
def tokens (m : ByteMap V) : List Token :=
  m.tokensFrom m.firstToken 257

/-- The same keys, the same values and the same null value. -/
def same [BEq V] (a b : ByteMap V) : Bool :=
  a.keys.same b.keys && a.values == b.values && a.null == b.null

/-- Stores every entry in turn. -/
def insertAll (m : ByteMap V) (entries : List (UInt8 × V)) : ByteMap V :=
  entries.foldl (fun m (k, v) => (m.insert k v).2) m

/-- Stores under a key that may be the null key. -/
def insertNullable (m : ByteMap V) : Option UInt8 → V → Option V × ByteMap V
  | some k, v => m.insert k v
  | none, v => m.insertNull v

/-- Removes a key that may be the null key. -/
def takeNullable (m : ByteMap V) : Option UInt8 → Option V × ByteMap V
  | some k => m.take k
  | none => m.takeNull

/-- Rewrites the value under byte `k` by `f` and returns the new value; nothing changes when `k`
is absent. -/
def modify (m : ByteMap V) (k : UInt8) (f : V → V) : Option V × ByteMap V :=
  match m.denseIndex k, m.get? k with
  | some i, some v => (some (f v), { m with values := m.values.setIfInBounds i (f v) })
  | _, _ => (none, m)

/-- Adds `delta` to the value under byte `k` and returns the new value. -/
def addTo [Add V] (m : ByteMap V) (k : UInt8) (delta : V) : Option V × ByteMap V :=
  m.modify k (· + delta)

end ByteMap

end CompactCollections
