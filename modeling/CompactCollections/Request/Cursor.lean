/-!
# Reading position and read errors

A request line is read from left to right, and an error names where the reader stood: the
line, counted from one, and the column, the number of bytes of UTF-8 read on that line. An
error is reported either after what has been read, or one byte further, where the reader was
looking; at the end of the text both are the end.

* `CompactCollections.Request.Failure` – why a text is not a JSON document, with its message.
* `CompactCollections.Request.Cursor` – the text still to read and the position reached.
* `CompactCollections.Request.Cursor.bytesAhead` – the position a number of bytes further,
  which may lie inside a character.
* `CompactCollections.Request.Scan` – the outcome of reading a token from a cursor: a value
  and the characters it took, or a failure and where it lies.
-/

namespace CompactCollections.Request

/-- Why a text is not a JSON document. -/
inductive Failure where
  | eofInList
  | eofInObject
  | eofInString
  | eofInValue
  | expectedColon
  | expectedListCommaOrEnd
  | expectedObjectCommaOrEnd
  | expectedIdent
  | expectedValue
  | invalidEscape
  | invalidNumber
  | numberOutOfRange
  | controlCharacter
  | keyMustBeString
  | loneLeadingSurrogate
  | trailingComma
  | trailingCharacters
  | unexpectedEndOfHexEscape
  | recursionLimit
  deriving DecidableEq, Repr

/-- The message of a failure. -/
def Failure.message : Failure → String
  | .eofInList => "EOF while parsing a list"
  | .eofInObject => "EOF while parsing an object"
  | .eofInString => "EOF while parsing a string"
  | .eofInValue => "EOF while parsing a value"
  | .expectedColon => "expected `:`"
  | .expectedListCommaOrEnd => "expected `,` or `]`"
  | .expectedObjectCommaOrEnd => "expected `,` or `\x7d`"
  | .expectedIdent => "expected ident"
  | .expectedValue => "expected value"
  | .invalidEscape => "invalid escape"
  | .invalidNumber => "invalid number"
  | .numberOutOfRange => "number out of range"
  | .controlCharacter => "control character (\\u0000-\\u001F) found while parsing a string"
  | .keyMustBeString => "key must be a string"
  | .loneLeadingSurrogate => "lone leading surrogate in hex escape"
  | .trailingComma => "trailing comma"
  | .trailingCharacters => "trailing characters"
  | .unexpectedEndOfHexEscape => "unexpected end of hex escape"
  | .recursionLimit => "recursion limit exceeded"

/-- A place in a text: a line counted from one, and the bytes read on it. -/
structure Position where
  line : Nat
  column : Nat
  deriving DecidableEq, Repr

/-- A failure and where it lies. -/
structure ReadError where
  failure : Failure
  position : Position
  deriving DecidableEq, Repr

/-- The message of a read error: the failure, then its line and column. -/
def ReadError.message (e : ReadError) : String :=
  e.failure.message ++ " at line " ++ toString e.position.line ++ " column " ++
    toString e.position.column

/-- The text still to read, and the position reached. -/
structure Cursor where
  rest : List Char
  line : Nat
  column : Nat
  deriving Repr

namespace Cursor

/-- A cursor at the start of a text. -/
def start (s : String) : Cursor :=
  ⟨s.toList, 1, 0⟩

/-- The position reached. -/
def here (c : Cursor) : Position :=
  ⟨c.line, c.column⟩

/-- The next character, if any. -/
def peek (c : Cursor) : Option Char :=
  c.rest.head?

/-- The cursor past the characters of `cs`, which were the next ones, from line `line` and
column `column`: a line feed starts a new line, any other character adds its UTF-8 bytes. -/
def pastFrom : List Char → Nat → Nat → Nat → Cursor
  | [], _, line, column => ⟨[], line, column⟩
  | cs, 0, line, column => ⟨cs, line, column⟩
  | ch :: rest, n + 1, line, column =>
    if ch = '\n' then pastFrom rest n (line + 1) 0
    else pastFrom rest n line (column + ch.utf8Size)

/-- The cursor past the next `n` characters. -/
def advance (c : Cursor) (n : Nat) : Cursor :=
  pastFrom c.rest n c.line c.column

/-- The position `n` bytes past the cursor, stopping at the end of the text; a character whose
bytes are not all passed leaves the position inside it. -/
def bytesFrom : List Char → Nat → Nat → Nat → Position
  | [], _, line, column => ⟨line, column⟩
  | _, 0, line, column => ⟨line, column⟩
  | ch :: rest, n + 1, line, column =>
    if ch = '\n' then bytesFrom rest n (line + 1) 0
    else if ch.utf8Size ≤ n + 1 then bytesFrom rest (n + 1 - ch.utf8Size) line (column + ch.utf8Size)
    else ⟨line, column + n + 1⟩

/-- The position `n` bytes past the cursor. -/
def bytesAhead (c : Cursor) (n : Nat) : Position :=
  bytesFrom c.rest n c.line c.column

/-- Whether a character is JSON whitespace: space, tab, line feed or carriage return. -/
def isBlank (ch : Char) : Bool :=
  ch = ' ' || ch = '\t' || ch = '\n' || ch = '\r'

/-- The cursor past the whitespace that starts `cs`. -/
def blanksFrom : List Char → Nat → Nat → Cursor
  | [], line, column => ⟨[], line, column⟩
  | ch :: rest, line, column =>
    if ch = '\n' then blanksFrom rest (line + 1) 0
    else if isBlank ch then blanksFrom rest line (column + 1)
    else ⟨ch :: rest, line, column⟩

/-- The cursor past the whitespace ahead. -/
def skipBlanks (c : Cursor) : Cursor :=
  blanksFrom c.rest c.line c.column

end Cursor

/-- The outcome of reading a token: its value and the number of characters it took, or a
failure that lies `extra` bytes past the characters read before it. -/
inductive Scan (α : Type) where
  | done (a : α) (used : Nat)
  | failed (f : Failure) (used : Nat) (extra : Nat)
  deriving Repr

end CompactCollections.Request
