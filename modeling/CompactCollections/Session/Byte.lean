import CompactCollections.Session.Reply
import CompactCollections.Byte.ByteMap
/-!
# Sessions on byte maps and byte sets

A byte-map session reads its keys as unsigned bytes, or as signed bytes stored by their bit
pattern (so that a walk visits `0 … 127` and then `-128 … -1`). A byte-set session works on
the set alone and notes its number of byte members.
-/

namespace CompactCollections.Session

/-- The commands of a byte-map session. -/
inductive ByteMapCommand where
  | put (k : UInt8) (v : Int64)
  | insert (k : UInt8) (v : Int64)
  | putNull (v : Int64)
  | putNullable (k : Option UInt8) (v : Int64)
  | get (k : UInt8)
  | getAdd (k : UInt8) (v : Int64)
  | nullValue
  | remove (k : UInt8)
  | take (k : UInt8)
  | removeNull
  | removeNullable (k : Option UInt8)
  | clear
  | token (k : UInt8)
  | nullToken
  | tokenNullable (k : Option UInt8)
  | value (t : Token)
  | key (t : Token)
  | firstToken
  | nextToken (t : Token)
  | walk
  | iter
  | keys
  | values
  | len
  | isEmpty
  | containsKey (k : UInt8)
  | containsNullKey
  | extend (entries : List (UInt8 × Int64))
  | clone
  | eq (entries : List (UInt8 × Int64)) (null : Option Int64)
  | describe
  deriving Repr

/-- A byte key as the number it stands for: itself, or its two's complement reading. -/
def byteKey (signed : Bool) (k : UInt8) : Int :=
  if signed ∧ 128 ≤ k.toNat then (k.toNat : Int) - 256 else k.toNat

/-- The token of a byte map as a reply. -/
def byteTokenReply : Token → Reply
  | .slot i => .nat i
  | .zero => .text "zero"
  | .null => .text "null"
  | .none => .text "none"

/-- Runs one command of a byte-map session; `signed` tells how keys read. -/
def ByteMapCommand.exec (signed : Bool) (m : ByteMap Int64) (c : ByteMapCommand) :
    Outcome (ByteMap Int64) :=
  let answer (r : Reply) : Outcome (ByteMap Int64) := .answered r m
  let update (r : Reply) (m' : ByteMap Int64) : Outcome (ByteMap Int64) := .answered r m'
  let keyReply (k : UInt8) : Reply := .int (byteKey signed k)
  let value := Reply.option (fun (v : Int64) => Reply.int v.toInt)
  match c with
  | .put k v => let (p, m') := m.insert k v; update (.bool p.isNone) m'
  | .insert k v => let (p, m') := m.insert k v; update (value p) m'
  | .putNull v => let (p, m') := m.insertNull v; update (.bool p.isNone) m'
  | .putNullable k v => let (p, m') := m.insertNullable k v; update (.bool p.isNone) m'
  | .get k => answer (value (m.get? k))
  | .getAdd k v => let (r, m') := m.addTo k v; update (value r) m'
  | .nullValue => answer (value m.null)
  | .remove k => let (p, m') := m.take k; update (.bool p.isSome) m'
  | .take k => let (p, m') := m.take k; update (value p) m'
  | .removeNull => let (p, m') := m.takeNull; update (.bool p.isSome) m'
  | .removeNullable k => let (p, m') := m.takeNullable k; update (.bool p.isSome) m'
  | .clear => update .null m.clear
  | .token k => answer (byteTokenReply (m.token k))
  | .nullToken => answer (byteTokenReply m.nullToken)
  | .tokenNullable k => answer (byteTokenReply (match k with
      | some k => m.token k
      | none => m.nullToken))
  | .value t => answer (value (m.value? t))
  | .key t => answer (match m.key? t with
      | some k => .record [("entry", .bool true), ("key", Reply.option keyReply k)]
      | none => .record [("entry", .bool false)])
  | .firstToken => answer (byteTokenReply m.firstToken)
  | .nextToken t => answer (byteTokenReply (m.nextToken t))
  | .walk => answer (.list (m.tokens.map fun t =>
      .list [byteTokenReply t, Reply.option (Reply.option keyReply) (m.key? t), value (m.value? t)]))
  | .iter => answer (.list (m.entries.map fun (k, v) => .list [keyReply k, .int v.toInt]))
  | .keys => answer (.list (m.keys.toList.map keyReply))
  | .values => answer (.list (m.allValues.map fun v => .int v.toInt))
  | .len => answer (.nat m.len)
  | .isEmpty => answer (.bool (m.len == 0))
  | .containsKey k => answer (.bool (m.keys.contains k))
  | .containsNullKey => answer (.bool m.null.isSome)
  | .extend entries => update .null (m.insertAll entries)
  | .clone => answer .null
  | .eq entries null =>
    let other := (ByteMap.empty : ByteMap Int64).insertAll entries
    let other := match null with
      | some v => (other.insertNull v).2
      | none => other
    answer (.bool (m.same other))
  | .describe =>
    let items := m.entries.map (fun (k, v) => s!"Some({byteKey signed k}): {v.toInt}")
      ++ m.null.toList.map (fun v => s!"None: {v.toInt}")
    answer (.text ("\x7b" ++ ", ".intercalate items ++ "\x7d"))

/-- Runs a byte-map session on the map holding `entries`. -/
def runByteMap (signed : Bool) (entries : List (UInt8 × Int64)) (commands : List ByteMapCommand) :
    Transcript :=
  Transcript.of (.ok ((ByteMap.empty : ByteMap Int64).insertAll entries)) (ByteMapCommand.exec signed)
    (fun m => [("len", m.len)]) (fun _ => []) commands

/-- The commands of a byte-set session. -/
inductive ByteSetCommand where
  | insert (k : UInt8)
  | remove (k : UInt8)
  | contains (k : UInt8)
  | insertNull
  | removeNull
  | containsNull
  | rank (k : UInt8)
  | nextKey (k : UInt8)
  | prevKey (k : UInt8)
  | first
  | last
  | iter
  | len
  | isEmpty
  | clear
  | extend (elements : List UInt8)
  | eq (elements : List UInt8) (null : Bool)
  | describe
  deriving Repr

/-- Runs one command of a byte-set session. -/
def ByteSetCommand.exec (s : ByteSet) (c : ByteSetCommand) : Outcome ByteSet :=
  let answer (r : Reply) : Outcome ByteSet := .answered r s
  let changed : Bool × ByteSet → Outcome ByteSet
    | (b, s') => .answered (.bool b) s'
  let byte := Reply.option fun (k : UInt8) => Reply.nat k.toNat
  match c with
  | .insert k => changed (s.insert k)
  | .remove k => changed (s.remove k)
  | .contains k => answer (.bool (s.contains k))
  | .insertNull => changed s.insertNull
  | .removeNull => changed s.removeNull
  | .containsNull => answer (.bool s.hasNull)
  | .rank k => answer (.nat (s.rank k))
  | .nextKey k => answer (byte (s.nextKey k))
  | .prevKey k => answer (byte (s.prevKey k))
  | .first => answer (byte s.first)
  | .last => answer (byte s.last)
  | .iter => answer (.list (s.toList.map fun k => .nat k.toNat))
  | .len => answer (.nat s.len)
  | .isEmpty => answer (.bool s.isEmpty)
  | .clear => .answered .null s.clear
  | .extend elements => .answered .null (s.insertAll elements)
  | .eq elements null =>
    let other := ByteSet.empty.insertAll elements
    let other := if null then other.insertNull.2 else other
    answer (.bool (s.same other))
  | .describe =>
    let items := s.toList.map (fun k => s!"Some({k.toNat})") ++ (if s.hasNull then ["None"] else [])
    answer (.text ("\x7b" ++ ", ".intercalate items ++ "\x7d"))

/-- Runs a byte-set session on the set holding `elements`. -/
def runByteSet (elements : List UInt8) (commands : List ByteSetCommand) : Transcript :=
  Transcript.of (.ok (ByteSet.empty.insertAll elements)) ByteSetCommand.exec
    (fun s => [("len", s.len)]) (fun _ => []) commands

end CompactCollections.Session
