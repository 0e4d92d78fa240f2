import CompactCollections.Session.Bits
import CompactCollections.NullList
import CompactCollections.SentinelList
/-!
# Sessions on lists with absent positions and on overlays

A null-list session works over either dense store: signed values in an array, or unsigned
values packed to a width. A sentinel-list session keeps absences as a reserved value. An
overlay session works on a bare rank-indexed overlay, and notes its number of values.
-/

namespace CompactCollections.Session

/-- The commands of a null-list session over values of type `α`. -/
inductive NullCommand (α : Type) where
  | len
  | cardinality
  | hasValue (i : Nat)
  | get (i : Nat)
  | set (i : Nat) (v : Option α)
  | add (v : Option α)
  | insert (i : Nat) (v : Option α)
  | removeAt (i : Nat)
  | swap (i j : Nat)
  | nextValueIndex (i : Nat)
  | prevValueIndex (i : Nat)
  | nextNullIndex (i : Nat)
  | prevNullIndex (i : Nat)
  | clear
  | values
  | toList
  | clone
  | eq (items : List (Option α))
  | describe

/-- The text `[Some(a), None, …]` of a list of optional values. -/
def optionsText {α : Type} (f : α → String) (xs : List (Option α)) : String :=
  listText (fun o => match o with
    | some v => s!"Some({f v})"
    | none => "None") xs

/-- Runs one command of a null-list session; `reply` and `text` show a value. -/
def NullCommand.exec {S α : Type} [DenseStore S α] (reply : α → Reply) (text : α → String)
    (l : NullList S) (c : NullCommand α) : Outcome (NullList S) :=
  let answer (r : Reply) : Outcome (NullList S) := .answered r l
  let growing (r : Option α → Reply) :
      Except Stop (Option α × NullList S) → Outcome (NullList S)
    | .ok (prev, l') => .answered (r prev) l'
    | .error s => .aborted s.toAbort
  match c with
  | .len => answer (.nat l.len)
  | .cardinality => answer (.nat l.cardinality)
  | .hasValue i => answer (.bool (l.hasValue i))
  | .get i => answer (Reply.option reply (l.get? i))
  | .set i v => growing (Reply.option reply) (l.set i v)
  | .add v => growing (fun _ => .null) ((l.add v).map fun l' => (none, l'))
  | .insert i v => growing (fun _ => .null) ((l.insert i v).map fun l' => (none, l'))
  | .removeAt i => match l.removeAt i with
    | .ok (v, l') => .answered (Reply.option reply v) l'
    | .error a => .aborted a
  | .swap i j => match l.swap i j with
    | .ok l' => .answered .null l'
    | .error a => .aborted a
  | .nextValueIndex i => answer (Reply.option Reply.nat (l.nextValueIndex i))
  | .prevValueIndex i => answer (Reply.option Reply.nat (l.prevValueIndex i))
  | .nextNullIndex i => answer (Reply.option Reply.nat (l.nextNullIndex i))
  | .prevNullIndex i => answer (Reply.option Reply.nat (l.prevNullIndex i))
  | .clear => .answered .null l.clear
  | .values => answer (.list (l.values.map reply))
  | .toList => answer (.list (l.toList.map (Reply.option reply)))
  | .clone => answer .null
  | .eq items => match (NullList.ofStore l.cells.values).addAll items with
    | .ok other => answer (.bool (l.same other))
    | .error s => .aborted s.toAbort
  | .describe => answer (.text (optionsText text l.toList))

/-- Runs a null-list session over the store `values` (emptied first), after appending
`items`. -/
def runNull {S α : Type} [DenseStore S α] (reply : α → Reply) (text : α → String)
    (values : Except Stop S) (items : List (Option α)) (commands : List (NullCommand α)) :
    Transcript :=
  let opened := values.bind fun s =>
    ((NullList.ofStore s).addAll items).mapError fun s => .aborted s.toAbort
  Transcript.of opened (NullCommand.exec reply text)
    (fun l => [("len", l.len), ("card", l.cardinality)]) (fun _ => []) commands

/-- The commands of a sentinel-list session. -/
inductive SentinelCommand where
  | sentinel
  | width
  | len
  | isEmpty
  | hasValue (i : Nat)
  | get (i : Nat)
  | set (i : Nat) (v : Option UInt64)
  | add (v : Option UInt64)
  | insert (i : Nat) (v : Option UInt64)
  | removeAt (i : Nat)
  | clear
  | toList
  | raw
  | clone
  | eq (items : List (Option UInt64))
  | describe
  deriving Repr

/-- Runs one command of a sentinel-list session. -/
def SentinelCommand.exec (l : SentinelList) (c : SentinelCommand) : Outcome SentinelList :=
  let answer (r : Reply) : Outcome SentinelList := .answered r l
  let changing : Except Abort SentinelList → Outcome SentinelList
    | .ok l' => .answered .null l'
    | .error a => .aborted a
  match c with
  | .sentinel => answer (wordReply l.sentinel)
  | .width => answer (.nat l.list.width)
  | .len => answer (.nat l.list.len)
  | .isEmpty => answer (.bool (l.list.len == 0))
  | .hasValue i => answer (.bool (l.get? i).isSome)
  | .get i => answer (Reply.option wordReply (l.get? i))
  | .set i v => match l.set i v with
    | .ok (prev, l') => .answered (Reply.option wordReply prev) l'
    | .error a => .aborted a
  | .add v => changing (l.add v)
  | .insert i v => changing (l.insert i v)
  | .removeAt i => match l.removeAt i with
    | .ok (v, l') => .answered (Reply.option wordReply v) l'
    | .error a => .aborted a
  | .clear => .answered .null { l with list := l.list.clear }
  | .toList => answer (.list (l.toList.map (Reply.option wordReply)))
  | .raw => answer (.list (l.list.toList.map wordReply))
  | .clone => answer .null
  | .eq items =>
    match (SentinelList.withSentinel l.list.emptied l.sentinel).addAll items with
    | .ok other => answer (.bool (l.same other))
    | .error a => .aborted a
  | .describe => answer (.text (optionsText (fun v => toString v.toNat) l.toList))

/-- Runs a sentinel-list session on an empty list of `width`-bit items whose sentinel is
`sentinel`, or all ones when none is given. -/
def runSentinel (width : Nat) (sentinel : Option UInt64) (commands : List SentinelCommand) :
    Transcript :=
  let opened := match PackedList.new? width with
    | .ok l => .ok (SentinelList.withSentinel l (sentinel.getD l.mask))
    | .error e => .error (.aborted (.failed e))
  Transcript.of opened SentinelCommand.exec (fun l => [("len", l.list.len)]) (fun _ => []) commands

/-- The commands of an overlay session over values of type `α`. -/
inductive OverlayCommand (α : Type) where
  | put (i : Nat) (v : α)
  | take (i : Nat)
  | get (i : Nat)
  | denseIndex (i : Nat)
  | contains (i : Nat)
  | clear
  | values
  | presence

/-- Runs one command of an overlay session. -/
def OverlayCommand.exec {S α : Type} [DenseStore S α] (reply : α → Reply) (r : Ranked S)
    (c : OverlayCommand α) : Outcome (Ranked S) :=
  let answer (x : Reply) : Outcome (Ranked S) := .answered x r
  match c with
  | .put i v => match r.put i v with
    | .ok (prev, r') => .answered (Reply.option reply prev) r'
    | .error s => .aborted s.toAbort
  | .take i => let (v, r') := r.take i; .answered (Reply.option reply v) r'
  | .get i => answer (Reply.option reply (r.get? i))
  | .denseIndex i => answer (Reply.option Reply.nat (r.denseIndex i))
  | .contains i => answer (.bool (r.contains i))
  | .clear => .answered .null r.clear
  | .values => answer (.list ((DenseStore.toList r.values).map reply))
  | .presence => answer (.text r.presence.text)

/-- Runs an overlay session over the store `values`, emptied first. -/
def runOverlay {S α : Type} [DenseStore S α] (reply : α → Reply) (values : Except Stop S)
    (commands : List (OverlayCommand α)) : Transcript :=
  Transcript.of (values.map Ranked.ofStore) (OverlayCommand.exec reply)
    (fun r => [("card", r.cardinality)]) (fun _ => []) commands

end CompactCollections.Session
