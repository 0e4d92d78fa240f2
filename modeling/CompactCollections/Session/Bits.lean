import CompactCollections.Session.Reply
import CompactCollections.Bits.BitList
import CompactCollections.Bits.PackedList
/-!
# Sessions on bit lists and packed lists

A packed-list session builds its list in one of five ways and notes its length and capacity
after each step; a bit-list session starts from a text of `0` and `1` and notes its length.
-/

namespace CompactCollections.Session

/-- An unsigned 64-bit value as a reply. -/
def wordReply (v : UInt64) : Reply := .nat v.toNat

/-- How a packed-list session builds its list. -/
inductive PackedSetup where
  /-- An empty list; a bad width aborts. -/
  | new (width : Nat)
  /-- An empty list; a bad width is reported. -/
  | tryNew (width : Nat)
  /-- An empty list whose growth writes `default`. -/
  | withDefault (width : Nat) (default : UInt64)
  /-- An empty list with storage for `items` items. -/
  | withCapacity (width : Nat) (items : Nat)
  /-- A list of the given values. -/
  | ofValues (width : Nat) (values : List UInt64)
  deriving Repr

/-- Builds the list of a setup. -/
def PackedSetup.build : PackedSetup → Except Stop PackedList
  | .new w => (PackedList.new? w).mapError fun e => .aborted (.failed e)
  | .tryNew w => (PackedList.new? w).mapError .refused
  | .withDefault w d => ((PackedList.new? w).map (·.withDefault d)).mapError fun e => .aborted (.failed e)
  | .withCapacity w n =>
    ((PackedList.new? w).mapError .refused >>= (·.reserve n)).mapError fun s => .aborted s.toAbort
  | .ofValues w vs => (PackedList.ofValues w vs).mapError fun s => .aborted s.toAbort

/-- The commands of a packed-list session. -/
inductive PackedCommand where
  | get (i : Nat)
  | tryGet (i : Nat)
  | first
  | last
  | set (i : Nat) (v : UInt64)
  | add (v : UInt64)
  | insert (i : Nat) (v : UInt64)
  | removeAt (i : Nat)
  | removeValue (v : UInt64)
  | pop
  | indexOf (v : UInt64)
  | lastIndexOf (v : UInt64)
  | contains (v : UInt64)
  | setLen (n : Nat)
  | clear
  | fit
  | reserve (n : Nat)
  | tryReserve (n : Nat)
  | extend (values : List UInt64)
  | toList
  | reversed
  | words
  | len
  | isEmpty
  | width
  | mask
  | defaultValue
  | capacity
  | clone
  | eq (width : Nat) (values : List UInt64)
  | describe
  deriving Repr

/-- The text `[a, b, …]` of a list of items. -/
def listText {α : Type} (f : α → String) (xs : List α) : String :=
  "[" ++ ", ".intercalate (xs.map f) ++ "]"

/-- Runs one command of a packed-list session. -/
def PackedCommand.exec (l : PackedList) (c : PackedCommand) : Outcome PackedList :=
  let answer (r : Reply) : Outcome PackedList := .answered r l
  let growing : Except Stop PackedList → Outcome PackedList
    | .ok l' => .answered .null l'
    | .error s => .aborted s.toAbort
  match c with
  | .get i => match l.get i with
    | .ok v => answer (wordReply v)
    | .error a => .aborted a
  | .tryGet i => answer (Reply.option wordReply (l.get? i))
  | .first => answer (Reply.option wordReply (l.get? 0))
  | .last => answer (Reply.option wordReply (if l.len = 0 then none else l.get? (l.len - 1)))
  | .set i v => growing (l.set i v)
  | .add v => growing (l.add v)
  | .insert i v => growing (l.insert i v)
  | .removeAt i => match l.removeAt i with
    | .ok (v, l') => .answered (wordReply v) l'
    | .error a => .aborted a
  | .removeValue v => match l.removeValue v with
    | .ok (found, l') => .answered (.bool found) l'
    | .error a => .aborted a
  | .pop => let (v, l') := l.pop; .answered (Reply.option wordReply v) l'
  | .indexOf v => answer (Reply.option Reply.nat (l.indexOf v))
  | .lastIndexOf v => answer (Reply.option Reply.nat (l.lastIndexOf v))
  | .contains v => answer (.bool (l.indexOf v).isSome)
  | .setLen n => growing (l.setLen n)
  | .clear => .answered .null l.clear
  | .fit => .answered .null l.fit
  | .reserve n => growing (l.reserve n)
  | .tryReserve n => match l.reserve n with
    | .ok l' => .answered .null l'
    | .error (.refused e) => .refused e l
    | .error (.aborted a) => .aborted a
  | .extend vs => growing (l.extend vs)
  | .toList => answer (.list (l.toList.map wordReply))
  | .reversed => answer (.list (l.toList.reverse.map wordReply))
  | .words => answer (.list (l.usedWords.toList.map wordReply))
  | .len => answer (.nat l.len)
  | .isEmpty => answer (.bool (l.len == 0))
  | .width => answer (.nat l.width)
  | .mask => answer (wordReply l.mask)
  | .defaultValue => answer (wordReply l.default)
  | .capacity => answer (.nat l.capacity)
  | .clone => answer .null
  | .eq w vs => match PackedList.ofValues w vs with
    | .ok other => answer (.bool (l.sameItems other))
    | .error s => .aborted s.toAbort
  | .describe => answer (.text (listText (fun v => toString v.toNat) l.toList))

/-- The counts noted after each step of a packed-list session. -/
def packedSummary (l : PackedList) : Summary :=
  [("len", l.len), ("cap", l.capacity)]

/-- Runs a packed-list session. -/
def runPacked (setup : PackedSetup) (commands : List PackedCommand) : Transcript :=
  Transcript.of setup.build PackedCommand.exec packedSummary (fun _ => []) commands

/-- The commands of a bit-list session. -/
inductive BitCommand where
  | get (i : Nat)
  | set (i : Nat) (b : Bool)
  | add (b : Bool)
  | insert (i : Nat) (b : Bool)
  | removeAt (i : Nat)
  | rank (i : Nat)
  | cardinality
  | nextSetBit (i : Nat)
  | nextClearBit (i : Nat)
  | prevSetBit (i : Nat)
  | prevClearBit (i : Nat)
  | setLen (n : Nat)
  | clear
  | ones
  | reversed
  | len
  | isEmpty
  | clone
  | eq (bits : List Bool)
  | describe
  deriving Repr

/-- Runs one command of a bit-list session. -/
def BitCommand.exec (l : BitList) (c : BitCommand) : Outcome BitList :=
  let answer (r : Reply) : Outcome BitList := .answered r l
  let growing : Except Stop BitList → Outcome BitList
    | .ok l' => .answered .null l'
    | .error s => .aborted s.toAbort
  match c with
  | .get i => answer (.bool (l.get i))
  | .set i b => growing (l.set i b)
  | .add b => growing (l.add b)
  | .insert i b => growing (l.insert i b)
  | .removeAt i => match l.removeAt i with
    | .ok (b, l') => .answered (.bool b) l'
    | .error a => .aborted a
  | .rank i => answer (.nat (l.rank i))
  | .cardinality => answer (.nat l.cardinality)
  | .nextSetBit i => answer (Reply.option Reply.nat (l.nextSetBit i))
  | .nextClearBit i => answer (Reply.option Reply.nat (l.nextClearBit i))
  | .prevSetBit i => answer (Reply.option Reply.nat (l.prevSetBit i))
  | .prevClearBit i => answer (Reply.option Reply.nat (l.prevClearBit i))
  | .setLen n => growing (l.setLen n)
  | .clear => .answered .null l.clear
  | .ones => answer (.list (l.ones.map Reply.nat))
  | .reversed => answer (.text (String.ofList (l.toList.reverse.map fun b => if b then '1' else '0')))
  | .len => answer (.nat l.len)
  | .isEmpty => answer (.bool (l.len == 0))
  | .clone => answer .null
  | .eq bits => match BitList.empty.addAll bits with
    | .ok other => answer (.bool (l.sameBits other))
    | .error s => .aborted s.toAbort
  | .describe => answer (.text l.text)

/-- Runs a bit-list session on a list with room for `capacity` bits that holds `initial`. -/
def runBits (capacity : Nat) (initial : List Bool) (commands : List BitCommand) : Transcript :=
  Transcript.of ((BitList.withCapacity capacity >>= (·.addAll initial)).mapError
      fun s => .aborted s.toAbort)
    BitCommand.exec (fun l => [("len", l.len)]) (fun _ => []) commands

end CompactCollections.Session
