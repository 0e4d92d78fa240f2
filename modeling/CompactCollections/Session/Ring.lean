import CompactCollections.Session.Bits
import CompactCollections.Ring
/-!
# Sessions on ring buffers

A ring session works on one buffer and notes its length. A locked-ring session offers the
buffer through the guarded calls a shared buffer takes, and also lets any plain command reach
the buffer directly; used from one caller, both act on the same queue. Its final queue is
reported as `into_inner`.
-/

namespace CompactCollections.Session

/-- The commands of a ring session. -/
inductive RingCommand where
  | put (v : Int64)
  | get (fallback : Int64)
  | pop
  | peek
  | clear
  | len
  | isEmpty
  | isFull
  | capacity
  | iter
  | clone
  | describe
  deriving Repr

/-- Runs one command of a ring session. -/
def RingCommand.exec (r : Ring Int64) (c : RingCommand) : Outcome (Ring Int64) :=
  let answer (x : Reply) : Outcome (Ring Int64) := .answered x r
  let value := Reply.option fun (v : Int64) => Reply.int v.toInt
  match c with
  | .put v => let (ok, r') := r.put v; .answered (.bool ok) r'
  | .get d => let (v, r') := r.get d; .answered (.int v.toInt) r'
  | .pop => let (v, r') := r.pop; .answered (value v) r'
  | .peek => answer (value r.peek)
  | .clear => .answered .null r.clear
  | .len => answer (.nat r.len)
  | .isEmpty => answer (.bool r.isEmpty)
  | .isFull => answer (.bool r.isFull)
  | .capacity => answer (.nat r.capacity)
  | .iter => answer (.list (r.toList.map fun v => .int v.toInt))
  | .clone => answer .null
  | .describe => answer (.text (listText (fun v => toString v.toInt) r.toList))

/-- The counts noted after each step of a ring session. -/
def ringSummary (r : Ring Int64) : Summary :=
  [("len", r.len)]

/-- Runs a ring session; a `fallible` build reports an overflow, any other aborts on it. -/
def runRing (capacity : Nat) (fallible : Bool) (commands : List RingCommand) : Transcript :=
  let opened := (Ring.new? capacity).mapError fun e =>
    if fallible then .refused e else .aborted (.failed e)
  Transcript.of opened RingCommand.exec ringSummary (fun _ => []) commands

/-- The commands of a locked-ring session. -/
inductive LockedCommand where
  /-- Appends under the lock. -/
  | put (v : Int64)
  /-- Takes the oldest value under the lock, or answers the fallback. -/
  | get (fallback : Int64)
  /-- The length, read under the lock. -/
  | len
  /-- The capacity, read under the lock. -/
  | capacity
  /-- The text of the locked buffer. -/
  | describe
  /-- A plain command on the buffer itself. -/
  | inner (c : RingCommand)
  deriving Repr

/-- Runs one command of a locked-ring session. -/
def LockedCommand.exec (r : Ring Int64) : LockedCommand → Outcome (Ring Int64)
  | .put v => RingCommand.exec r (.put v)
  | .get d => RingCommand.exec r (.get d)
  | .len => RingCommand.exec r .len
  | .capacity => RingCommand.exec r .capacity
  | .describe =>
    .answered (.text ("SpinRingBuffer(" ++ listText (fun v => toString v.toInt) r.toList ++ ")")) r
  | .inner c => RingCommand.exec r c

/-- Runs a locked-ring session, reporting the final queue as `into_inner`. -/
def runLocked (capacity : Nat) (commands : List LockedCommand) : Transcript :=
  let opened := (Ring.new? capacity).mapError fun e => .aborted (.failed e)
  Transcript.of opened LockedCommand.exec ringSummary
    (fun r => [("into_inner", .list (r.toList.map fun v => .int v.toInt))]) commands

end CompactCollections.Session
