import CompactCollections.Session.Reply
import CompactCollections.Table.Digest
import CompactCollections.Key
import CompactCollections.Key.Text
import CompactCollections.Session.Hasher
/-!
# Table sessions

A session on a table keyed by patterns of one `CompactCollections.KeyKind`, holding signed
64-bit values (a map) or nothing (a set). Keys are answered as the values they stand for.

Where the hash function is not fixed from run to run, slot positions mean nothing to a reader:
such a session has a hidden layout (`CompactCollections.Session.Layout.hidden`), answers every
slot token as `"slot"`, and lists entries by key pattern instead of by slot.
-/

namespace CompactCollections.Session

/-- Whether answers may show where keys sit. -/
inductive Layout where
  /-- Slot tokens are answered by index, entries listed in slot order. -/
  | shown
  /-- Slot tokens are answered as `"slot"`, entries listed by key pattern. -/
  | hidden
  deriving DecidableEq, Repr

/-- How a session builds its table: sized for `expected` entries at the load factor with
single-precision pattern `loadFactor`, then filled with `entries` in order. A `fallible` build
reports an overflow; any other aborts on it. -/
structure TableSetup (V : Type) where
  expected : Nat
  loadFactor : UInt32
  fallible : Bool
  entries : List (UInt64 × V)

/-- The build of a table without explicit sizes: room for four entries at load factor one
half. -/
def TableSetup.standard {V : Type} : TableSetup V :=
  ⟨4, LoadFactor.half.bits, false, []⟩

/-- Stores each entry in turn. -/
def insertAll {V : Type} (t : Table V) : List (UInt64 × V) → Except CollectionError (Table V)
  | [] => .ok t
  | (k, v) :: rest => do
    let (_, t') ← t.insert k v
    insertAll t' rest

/-- Builds the table of a setup. -/
def TableSetup.build {V : Type} (s : TableSetup V) : Except Stop (Table V) :=
  match Table.withConfig Hasher.ofWord s.expected (LoadFactor.clamp s.loadFactor) with
  | .error e => .error (if s.fallible then .refused e else .aborted (.failed e))
  | .ok t =>
    match insertAll t s.entries with
    | .ok t' => .ok t'
    | .error e => .error (.aborted (.failed e))

/-- A table with the kind of its keys and the layout its answers may show. -/
structure Keyed (V : Type) where
  table : Table V
  kind : KeyKind
  layout : Layout

namespace Keyed

variable {V : Type}

/-- A key as a reply: a number, or a one-character text. -/
def keyReply (s : Keyed V) (k : UInt64) : Reply :=
  match s.kind.valueOf k with
  | .number n => .int n
  | .char c => .text c.toString

/-- A token as a reply. -/
def tokenReply (s : Keyed V) : Token → Reply
  | .slot i => match s.layout with
    | .shown => .nat i
    | .hidden => .text "slot"
  | .zero => .text "zero"
  | .null => .text "null"
  | .none => .text "none"

/-- The keyed entries as the layout lets them be listed. -/
def listing (s : Keyed V) : List (UInt64 × V) :=
  match s.layout with
  | .shown => s.table.entries
  | .hidden => s.table.entriesByKey

/-- The walk as the layout lets it be listed. -/
def walkRows (s : Keyed V) : List (Token × Option UInt64 × Option V) :=
  match s.layout with
  | .shown => s.table.walk
  | .hidden =>
    s.listing.map (fun (k, v) => (s.table.token k, some k, some v))
      ++ (s.table.null.map fun v => (Token.null, none, some v)).toList

/-- The counts noted after each step: length and number of slots. -/
def summary (s : Keyed V) : Summary :=
  [("len", s.table.len), ("cap", s.table.capacity)]

/-- The text of a key inside a table's description. -/
def keyText (s : Keyed V) (k : UInt64) : String :=
  s.kind.describe k

end Keyed

/-- A signed 64-bit value as a reply. -/
def intReply (v : Int64) : Reply := .int v.toInt

/-- The commands of a map session. -/
inductive MapCommand where
  | put (k : UInt64) (v : Int64)
  | insert (k : UInt64) (v : Int64)
  | putNull (v : Int64)
  | putNullable (k : Option UInt64) (v : Int64)
  | remove (k : UInt64)
  | take (k : UInt64)
  | removeNull
  | removeNullable (k : Option UInt64)
  | get (k : UInt64)
  | getAdd (k : UInt64) (v : Int64)
  | containsKey (k : UInt64)
  | containsNullKey
  | nullValue
  | token (k : UInt64)
  | nullToken
  | tokenNullable (k : Option UInt64)
  | value (t : Token)
  | valueAdd (t : Token) (v : Int64)
  | key (t : Token)
  | firstToken
  | nextToken (t : Token)
  | walk
  | iter
  | keys
  | values
  | len
  | isEmpty
  | capacity
  | loadFactor
  | clear
  | reserve (n : Nat)
  | tryReserve (n : Nat)
  | extend (entries : List (UInt64 × Int64))
  | clone
  | hash
  | eq (entries : List (UInt64 × Int64)) (null : Option Int64)
  | describe
  deriving Repr

/-- A map of signed 64-bit values. -/
abbrev MapState := Keyed Int64

/-- The structural hash of a map. -/
def mapDigest (t : Table Int64) : UInt32 :=
  t.digest digestInt

/-- Adds `delta` to the value a token names, wrapping, and answers the new value. -/
def addAt (t : Table Int64) (tok : Token) (delta : Int64) : Option Int64 × Table Int64 :=
  match t.value? tok with
  | some v => (some (v + delta), t.setValue tok (v + delta))
  | none => (none, t)

/-- Runs one command of a map session. -/
def MapCommand.exec (s : MapState) (c : MapCommand) : Outcome MapState :=
  let t := s.table
  let answer (r : Reply) : Outcome MapState := .answered r s
  let update (r : Reply) (t' : Table Int64) : Outcome MapState := .answered r { s with table := t' }
  let growing (r : Option Int64 → Reply) : Except CollectionError (Option Int64 × Table Int64) →
      Outcome MapState
    | .ok (prev, t') => update (r prev) t'
    | .error e => .aborted (.failed e)
  match c with
  | .put k v => growing (fun p => .bool p.isNone) (t.insert k v)
  | .insert k v => growing (Reply.option intReply) (t.insert k v)
  | .putNull v => let (p, t') := t.insertNull v; update (.bool p.isNone) t'
  | .putNullable k v => growing (fun p => .bool p.isNone) (t.insertNullable k v)
  | .remove k => let (p, t') := t.take k; update (.bool p.isSome) t'
  | .take k => let (p, t') := t.take k; update (Reply.option intReply p) t'
  | .removeNull => let (p, t') := t.takeNull; update (.bool p.isSome) t'
  | .removeNullable k => let (p, t') := t.takeNullable k; update (.bool p.isSome) t'
  | .get k => answer (Reply.option intReply (t.get? k))
  | .getAdd k v => let (r, t') := addAt t (t.token k) v; update (Reply.option intReply r) t'
  | .containsKey k => answer (.bool (t.contains k))
  | .containsNullKey => answer (.bool t.null.isSome)
  | .nullValue => answer (Reply.option intReply t.null)
  | .token k => answer (s.tokenReply (t.token k))
  | .nullToken => answer (s.tokenReply t.nullToken)
  | .tokenNullable k => answer (s.tokenReply (t.tokenNullable k))
  | .value tok => answer (Reply.option intReply (t.value? tok))
  | .valueAdd tok v => let (r, t') := addAt t tok v; update (Reply.option intReply r) t'
  | .key tok => answer (Reply.option s.keyReply (t.key? tok))
  | .firstToken => answer (s.tokenReply t.firstToken)
  | .nextToken tok => answer (s.tokenReply (t.nextToken tok))
  | .walk => answer (.list (s.walkRows.map fun (tok, k, v) =>
      .list [s.tokenReply tok, Reply.option s.keyReply k, Reply.option intReply v]))
  | .iter => answer (.list (s.listing.map fun (k, v) => .list [s.keyReply k, intReply v]))
  | .keys => answer (.list (s.listing.map fun (k, _) => s.keyReply k))
  | .values => answer (.list ((s.listing.map Prod.snd ++ t.null.toList).map intReply))
  | .len => answer (.nat t.len)
  | .isEmpty => answer (.bool (t.len == 0))
  | .capacity => answer (.nat t.capacity)
  | .loadFactor => answer (.nat t.loadFactor.bits.toNat)
  | .clear => update .null t.clear
  | .reserve n => match t.reserve n with
    | .ok t' => update .null t'
    | .error e => .aborted (.failed e)
  | .tryReserve n => match t.reserve n with
    | .ok t' => update .null t'
    | .error e => .refused e s
  | .extend entries => match insertAll t entries with
    | .ok t' => update .null t'
    | .error e => .aborted (.failed e)
  | .clone => update .null t
  | .hash => answer (.nat (mapDigest t).toNat)
  | .eq entries null =>
    let built : TableSetup Int64 := { (TableSetup.standard : TableSetup Int64) with entries := entries }
    match built.build with
    | .ok other =>
      let other := match null with
        | some v => (other.insertNull v).2
        | none => other
      answer (.record [("eq", .bool (t.sameContents other)), ("other_hash", .nat (mapDigest other).toNat)])
    | .error (.aborted a) => .aborted a
    | .error (.refused e) => .aborted (.failed e)
  | .describe => answer (.text (t.describe s.keyText fun v => toString v.toInt))

/-- The commands of a set session. -/
inductive SetCommand where
  | insert (k : UInt64)
  | insertNull
  | insertNullable (k : Option UInt64)
  | remove (k : UInt64)
  | removeNull
  | removeNullable (k : Option UInt64)
  | contains (k : UInt64)
  | containsNull
  | token (k : UInt64)
  | firstToken
  | nextToken (t : Token)
  | element (t : Token)
  | walk
  | iter
  | len
  | isEmpty
  | capacity
  | clear
  | reserve (n : Nat)
  | extend (elements : List UInt64)
  | clone
  | hash
  | eq (elements : List UInt64) (null : Bool)
  | describe
  deriving Repr

/-- A set: a table whose values carry nothing. -/
abbrev SetState := Keyed Unit

/-- The structural hash of a set: every value hashes as the empty datum. -/
def setDigest (t : Table Unit) : UInt32 :=
  t.digest digestUnit

/-- Runs one command of a set session. -/
def SetCommand.exec (s : SetState) (c : SetCommand) : Outcome SetState :=
  let t := s.table
  let answer (r : Reply) : Outcome SetState := .answered r s
  let update (r : Reply) (t' : Table Unit) : Outcome SetState := .answered r { s with table := t' }
  let growing : Except CollectionError (Option Unit × Table Unit) → Outcome SetState
    | .ok (prev, t') => update (.bool prev.isNone) t'
    | .error e => .aborted (.failed e)
  match c with
  | .insert k => growing (t.insert k ())
  | .insertNull => let (p, t') := t.insertNull (); update (.bool p.isNone) t'
  | .insertNullable k => growing (t.insertNullable k ())
  | .remove k => let (p, t') := t.take k; update (.bool p.isSome) t'
  | .removeNull => let (p, t') := t.takeNull; update (.bool p.isSome) t'
  | .removeNullable k => let (p, t') := t.takeNullable k; update (.bool p.isSome) t'
  | .contains k => answer (.bool (t.contains k))
  | .containsNull => answer (.bool t.null.isSome)
  | .token k => answer (s.tokenReply (t.token k))
  | .firstToken => answer (s.tokenReply t.firstToken)
  | .nextToken tok => answer (s.tokenReply (t.nextToken tok))
  | .element tok => answer (Reply.option s.keyReply (t.key? tok))
  | .walk => answer (.list (s.walkRows.map fun (tok, k, _) =>
      .list [s.tokenReply tok, Reply.option s.keyReply k]))
  | .iter => answer (.list (s.listing.map fun (k, _) => s.keyReply k))
  | .len => answer (.nat t.len)
  | .isEmpty => answer (.bool (t.len == 0))
  | .capacity => answer (.nat t.capacity)
  | .clear => update .null t.clear
  | .reserve n => match t.reserve n with
    | .ok t' => update .null t'
    | .error e => .aborted (.failed e)
  | .extend elements => match insertAll t (elements.map fun k => (k, ())) with
    | .ok t' => update .null t'
    | .error e => .aborted (.failed e)
  | .clone => update .null t
  | .hash => answer (.nat (setDigest t).toNat)
  | .eq elements null =>
    let built : TableSetup Unit := { (TableSetup.standard : TableSetup Unit) with entries := elements.map fun k => (k, ()) }
    match built.build with
    | .ok other =>
      let other := if null then (other.insertNull ()).2 else other
      answer (.record [("eq", .bool (t.sameContents other)), ("other_hash", .nat (setDigest other).toNat)])
    | .error (.aborted a) => .aborted a
    | .error (.refused e) => .aborted (.failed e)
  | .describe => answer (.text (t.describeKeys s.keyText))

/-- Runs a map session. -/
def runMap (setup : TableSetup Int64) (kind : KeyKind) (layout : Layout)
    (commands : List MapCommand) : Transcript :=
  Transcript.of ((setup.build).map fun t => ⟨t, kind, layout⟩) MapCommand.exec Keyed.summary
    (fun _ => []) commands

/-- Runs a set session. -/
def runSet (setup : TableSetup Unit) (kind : KeyKind) (layout : Layout)
    (commands : List SetCommand) : Transcript :=
  Transcript.of ((setup.build).map fun t => ⟨t, kind, layout⟩) SetCommand.exec Keyed.summary
    (fun _ => []) commands

end CompactCollections.Session
