import CompactCollections.Request.Token

/-!
# Reading a JSON document

A request line is one JSON document: a value, with whitespace around it and nothing else.
The reader goes from left to right and stops at the first fault, which it names with its
position; of two faults the first met wins.

* `CompactCollections.Request.Reader.value` – one value, after whitespace: a literal word, a
  number, a string, a list or a record. A list or record opens one level of nesting, and a
  document may hold at most 127 levels.
* `CompactCollections.Request.readDocument` – a whole line.

Lists and records are read item by item: after an item comes a comma and the next item, or
the closing bracket; a comma before a closing bracket is a fault of its own. A record's names
are strings followed by a colon, and a later value under a name replaces an earlier one.

The readers below take a fuel argument that bounds the depth of their calls. Every call reads
at least one character before it calls again, or is the first call for a list or record that
read its opening bracket, so twice the number of characters plus two calls always suffice;
`readDocument` gives that much, and the readers never run dry.
-/

namespace CompactCollections.Request

/-- A reader: a step on a cursor that gives a result or a read error. -/
abbrev Reader := StateT Cursor (Except ReadError)

namespace Reader

/-- Fails with the position reached. -/
def failHere {α : Type} (f : Failure) : Reader α := do
  throw ⟨f, (← get).here⟩

/-- Fails one byte ahead of the position reached, where the reader was looking. -/
def failAhead {α : Type} (f : Failure) : Reader α := do
  throw ⟨f, (← get).bytesAhead 1⟩

/-- Skips whitespace and looks at the next character. -/
def blanks : Reader (Option Char) := do
  let c := (← get).skipBlanks
  set c
  pure c.peek

/-- Takes the next character. -/
def bump : Reader Unit :=
  modify fun c => c.advance 1

/-- Runs a scan of the text ahead: on success the cursor moves past what it took. -/
def scan {α : Type} (read : List Char → Scan α) : Reader α := do
  let c ← get
  match read c.rest with
  | .done a used => set (c.advance used); pure a
  | .failed f used extra => throw ⟨f, (c.advance used).bytesAhead extra⟩

/-- The colon after a record's name. -/
def colon : Reader Unit := do
  match ← blanks with
  | some ':' => bump
  | some _ => failAhead .expectedColon
  | none => failAhead .eofInObject

mutual

/-- One value after whitespace, `depth` levels of nesting still allowed. -/
def value : Nat → Nat → Reader Value
  | 0, _ => failAhead .eofInValue
  | fuel + 1, depth => do
    match ← blanks with
    | none => failAhead .eofInValue
    | some c =>
      match c with
      | 'n' => do bump; scan (scanWord ['u', 'l', 'l'] · 0); pure .null
      | 't' => do bump; scan (scanWord ['r', 'u', 'e'] · 0); pure (.bool true)
      | 'f' => do bump; scan (scanWord ['a', 'l', 's', 'e'] · 0); pure (.bool false)
      | '-' => do bump; pure (.number (← scan (scanNumber false)))
      | '"' => do bump; pure (.text (← scan scanString))
      | '[' =>
        if depth ≤ 1 then failAhead .recursionLimit
        else do bump; pure (.list (← items fuel (depth - 1) true []))
      | '{' =>
        if depth ≤ 1 then failAhead .recursionLimit
        else do bump; pure (.record (← fields fuel (depth - 1) true []))
      | c =>
        if isDigit c then pure (.number (← scan (scanNumber true)))
        else failAhead .expectedValue

/-- The items of a list after its opening bracket, `acc` reversed so far; `first` until an
item is read. -/
def items : Nat → Nat → Bool → List Value → Reader (List Value)
  | 0, _, _, _ => failAhead .eofInList
  | fuel + 1, depth, first, acc => do
    match ← blanks with
    | none => failAhead .eofInList
    | some ']' => do bump; pure acc.reverse
    | some ',' =>
      if first then
        let v ← value fuel depth
        items fuel depth false (v :: acc)
      else do
        bump
        match ← blanks with
        | some ']' => failAhead .trailingComma
        | none => failAhead .eofInValue
        | some _ =>
          let v ← value fuel depth
          items fuel depth false (v :: acc)
    | some _ =>
      if first then
        let v ← value fuel depth
        items fuel depth false (v :: acc)
      else failAhead .expectedListCommaOrEnd

/-- The fields of a record after its opening brace, `acc` so far; `first` until a field is
read. -/
def fields : Nat → Nat → Bool → List (String × Value) → Reader (List (String × Value))
  | 0, _, _, _ => failAhead .eofInObject
  | fuel + 1, depth, first, acc => do
    match ← blanks with
    | none => failAhead .eofInObject
    | some '}' => do bump; pure acc
    | some c =>
      let next ← if c = ',' ∧ !first then do bump; blanks
        else if first then pure (some c)
        else failAhead .expectedObjectCommaOrEnd
      match next with
      | some '"' =>
        bump
        let k ← scan scanString
        colon
        let v ← value fuel depth
        fields fuel depth false (insertField k v acc)
      | some '}' => failAhead .trailingComma
      | some _ => failAhead .keyMustBeString
      | none => failAhead .eofInValue

end

end Reader

/-- Reads a line as one JSON document: a value with at most 127 levels of nesting, and
nothing after it but whitespace. -/
def readDocument (s : String) : Except ReadError Value := do
  let fuel := 2 * s.length + 2
  let (v, c) ← (Reader.value fuel 128).run (Cursor.start s)
  let c := c.skipBlanks
  match c.rest with
  | [] => pure v
  | _ :: _ => throw ⟨.trailingCharacters, c.bytesAhead 1⟩

end CompactCollections.Request
