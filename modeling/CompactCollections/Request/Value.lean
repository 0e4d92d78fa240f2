import CompactCollections.Floating.Text

/-!
# The values a request is made of

A request is a JSON document. Its numbers keep the distinction a request decodes by: an
integer that fits a 64-bit unsigned word, a negative one that fits a signed word, and every
other number as a double. A record keeps one value per name, in the order of the names.

* `CompactCollections.Request.Number` – the three kinds of number.
* `CompactCollections.Request.Value` – a JSON value.
* `CompactCollections.Request.Value.field?` and the `as…?` readers – what a decoder asks of
  a value.
* `CompactCollections.Request.Value.render` – the compact JSON text of a value, with numbers
  in the style of request errors; an error that quotes a value quotes this text.
-/

namespace CompactCollections.Request

/-- A number of a request. -/
inductive Number where
  /-- An integer written without point or exponent that fits a 64-bit unsigned word. -/
  | word (n : Nat)
  /-- A negative integer written without point or exponent that fits a 64-bit signed word. -/
  | negative (n : Int)
  /-- Any other number, as the pattern of a double. -/
  | double (bits : UInt64)
  deriving DecidableEq, Repr

/-- A JSON value. -/
inductive Value where
  | null
  | bool (b : Bool)
  | number (n : Number)
  | text (s : String)
  | list (items : List Value)
  /-- A record: one value per name, the names in increasing order. -/
  | record (fields : List (String × Value))
  deriving Repr

/-- Puts a named value into a record's fields, in the order of names; a value already under the
name gives way to the new one. -/
def insertField (k : String) (v : Value) : List (String × Value) → List (String × Value)
  | [] => [(k, v)]
  | (k', v') :: rest =>
    if k < k' then (k, v) :: (k', v') :: rest
    else if k = k' then (k, v) :: rest
    else (k', v') :: insertField k v rest

namespace Number

/-- The text of a number as request errors quote it: an integer in decimal, a double in the
message style. -/
def text : Number → String
  | .word n => toString n
  | .negative n => toString n
  | .double bits => Floating.Style.message.text Floating.Format.double bits.toNat

end Number

namespace Value

/-- The value under a name of a record; `none` for a missing name or a value that is not a
record. -/
def field? (v : Value) (k : String) : Option Value :=
  match v with
  | .record fs => (fs.find? (·.1 == k)).map (·.2)
  | _ => none

/-- An integer that fits a 64-bit unsigned word. -/
def asWord? : Value → Option Nat
  | .number (.word n) => some n
  | _ => none

/-- An integer that fits a 64-bit signed word. -/
def asInt? : Value → Option Int
  | .number (.word n) => if n < 1 <<< 63 then some n else none
  | .number (.negative n) => some n
  | _ => none

/-- A text. -/
def asText? : Value → Option String
  | .text s => some s
  | _ => none

/-- A boolean. -/
def asBool? : Value → Option Bool
  | .bool b => some b
  | _ => none

/-- The items of a list. -/
def asList? : Value → Option (List Value)
  | .list items => some items
  | _ => none

/-- Whether the value is null. -/
def isNull : Value → Bool
  | .null => true
  | _ => false

end Value

/-- Four lowercase hexadecimal digits of a number below `2 ^ 16`. -/
def hex4 (n : Nat) : String :=
  let ds := Nat.toDigits 16 n
  String.ofList (List.replicate (4 - ds.length) '0' ++ ds)

/-- A character inside a JSON string: the quote and the backslash escaped, the controls as short
escapes or as `\u` and four hexadecimal digits. -/
def escapeInString (c : Char) : String :=
  if c = '"' then "\\\""
  else if c = '\\' then "\\\\"
  else if c = '\n' then "\\n"
  else if c = '\r' then "\\r"
  else if c = '\t' then "\\t"
  else if c.toNat = 8 then "\\b"
  else if c.toNat = 12 then "\\f"
  else if c.toNat < 0x20 then "\\u" ++ hex4 c.toNat
  else c.toString

/-- A JSON string. -/
def quoteText (s : String) : String :=
  "\"" ++ String.join (s.toList.map escapeInString) ++ "\""

mutual

/-- The compact JSON text of a value. -/
def Value.render : Value → String
  | .null => "null"
  | .bool true => "true"
  | .bool false => "false"
  | .number n => n.text
  | .text s => quoteText s
  | .list items => "[" ++ renderItems items ++ "]"
  | .record fs => "\x7b" ++ renderFields fs ++ "\x7d"

/-- The texts of list items, separated by commas. -/
def renderItems : List Value → String
  | [] => ""
  | [v] => v.render
  | v :: rest => v.render ++ "," ++ renderItems rest

/-- The texts of a record's fields, separated by commas. -/
def renderFields : List (String × Value) → String
  | [] => ""
  | [(k, v)] => quoteText k ++ ":" ++ v.render
  | (k, v) :: rest => quoteText k ++ ":" ++ v.render ++ "," ++ renderFields rest

end

end CompactCollections.Request
