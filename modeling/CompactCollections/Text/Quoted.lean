import CompactCollections.Text.Hidden
import CompactCollections.Text.Extending

/-!
# A character between single quotes

A character key in a table's description is written between single quotes. Six characters
have a backslash escape of their own: NUL, tab, carriage return, line feed, the backslash and
the single quote; the double quote needs none. A grapheme extender, and every character the
`hidden` table holds, is written as `\u` followed by its code point in lowercase hexadecimal,
unpadded, between braces. Every other character stands as itself.

* `CompactCollections.Text.escapeChar` – the text of a character inside the quotes.
* `CompactCollections.Text.quoteChar` – the character between single quotes.
-/

namespace CompactCollections.Text

/-- The code point escape of a character: a backslash, `u`, and the lowercase hexadecimal
code point between braces. -/
def codePointEscape (c : Char) : String :=
  "\\u\x7b" ++ String.ofList (Nat.toDigits 16 c.toNat) ++ "\x7d"

/-- The text of a character inside single quotes. -/
def escapeChar (c : Char) : String :=
  if c = '\x00' then "\\0"
  else if c = '\t' then "\\t"
  else if c = '\r' then "\\r"
  else if c = '\n' then "\\n"
  else if c = '\\' then "\\\\"
  else if c.toNat = 0x27 then "\\'"
  else if isExtending c || !isShown c then codePointEscape c
  else c.toString

/-- A character between single quotes. -/
def quoteChar (c : Char) : String :=
  "'" ++ escapeChar c ++ "'"

end CompactCollections.Text
