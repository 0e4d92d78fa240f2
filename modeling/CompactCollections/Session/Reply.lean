import CompactCollections.Error
/-!
# Sessions: commands, replies and step reports

A session opens a collection and runs a list of commands against it, one after another. Each
command answers a `CompactCollections.Session.Reply`, a small tree of the values that
collections hand back (nothing, a flag, a number, a text, a list, named fields), and after each
answer the session notes a few counts of the collection, such as its length.

* `CompactCollections.Session.Outcome` – what one command did: answered and moved to a new
  state, refused with an error and moved on, or aborted.
* `CompactCollections.Session.run` – runs commands until the list ends or a command aborts,
  reporting each step; the collection after the last step is returned when no command aborted.
-/

namespace CompactCollections.Session

/-- A value that a command hands back. -/
inductive Reply where
  /-- Nothing: a command with no result, or an absent value. -/
  | null
  | bool (b : Bool)
  | int (n : Int)
  | text (s : String)
  | list (items : List Reply)
  /-- Named values, for commands whose result has parts. -/
  | record (fields : List (String × Reply))
  deriving Repr, Inhabited

/-- A natural number as a reply. -/
def Reply.nat (n : Nat) : Reply := .int n

/-- An optional value as a reply: `null` when absent. -/
def Reply.option {α : Type} (f : α → Reply) : Option α → Reply
  | some a => f a
  | none => .null

/-- What a command did to a collection of state `σ`. -/
inductive Outcome (σ : Type) where
  /-- The command answered and the collection is now `next`. -/
  | answered (reply : Reply) (next : σ)
  /-- The command reported an error; the collection is now `next` (for the fallible
  commands of this library, unchanged). -/
  | refused (error : CollectionError) (next : σ)
  /-- The command aborted; the session ends. -/
  | aborted (abort : Abort)

/-- The named counts noted after a step, such as a length and a capacity. -/
abbrev Summary := List (String × Nat)

/-- The report of one step. -/
inductive Step where
  /-- The command answered; the counts are taken after it. -/
  | answered (reply : Reply) (summary : Summary)
  /-- The command reported an error; the counts are taken after it. -/
  | refused (error : CollectionError) (summary : Summary)
  /-- The command aborted. -/
  | aborted (abort : Abort)
  deriving Repr

/-- Runs `commands` from `state`, reporting each step with the counts `summary` of the state it
leaves. The run stops after the first abort; the final state is returned when there was none. -/
def run {σ κ : Type} (exec : σ → κ → Outcome σ) (summary : σ → Summary) :
    σ → List κ → List Step × Option σ
  | state, [] => ([], some state)
  | state, c :: rest =>
    match exec state c with
    | .answered reply next =>
      let (steps, final) := run exec summary next rest
      (.answered reply (summary next) :: steps, final)
    | .refused error next =>
      let (steps, final) := run exec summary next rest
      (.refused error (summary next) :: steps, final)
    | .aborted abort => ([.aborted abort], none)

/-- A session that could not open its collection, or the steps of one that did, with the final
collection's extra parts (named replies) when no step aborted. -/
inductive Transcript where
  /-- The collection could not be built. -/
  | failed (stop : Stop)
  /-- The steps, and the extra named replies taken from the final collection. -/
  | steps (steps : List Step) (ended : Bool) (extra : List (String × Reply))
  deriving Repr

/-- Opens a collection and runs `commands` on it; `extra` names replies read off the final
collection. -/
def Transcript.of {σ κ : Type} (opened : Except Stop σ) (exec : σ → κ → Outcome σ)
    (summary : σ → Summary) (extra : σ → List (String × Reply)) (commands : List κ) :
    Transcript :=
  match opened with
  | .error stop => .failed stop
  | .ok state =>
    match run exec summary state commands with
    | (reports, some final) => .steps reports true (extra final)
    | (reports, none) => .steps reports false []

end CompactCollections.Session
