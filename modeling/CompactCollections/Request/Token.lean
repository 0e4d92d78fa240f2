import CompactCollections.Request.Cursor
import CompactCollections.Request.Decimal
import CompactCollections.Request.Value

/-!
# The tokens of a JSON document

Literal words, numbers and strings are read character by character from the text ahead of a
cursor, each by a function that walks the characters and counts those it takes.

* `CompactCollections.Request.scanWord` – the rest of `null`, `true` or `false`.
* `CompactCollections.Request.scanNumber` – a number after its sign. Its digits build a
  significand while it fits a 64-bit word; an integer part that outgrows it counts its further
  digits into the exponent, a fraction drops them. An exponent that outgrows a 32-bit signed
  integer gives zero below one, and is out of range above it for a nonzero significand. What
  is left becomes a `Number` by `decimalDouble`, unless it was an integer without point or
  exponent.
* `CompactCollections.Request.scanString` – a string after its opening quote, with its escapes:
  the short ones, and `\u` with four hexadecimal digits, where a leading surrogate must be
  followed by the escape of a trailing one.
-/

namespace CompactCollections.Request

/-- Whether a character is an ASCII digit. -/
def isDigit (c : Char) : Bool :=
  '0' ≤ c && c ≤ '9'

/-- The value of an ASCII digit. -/
def digitValue (c : Char) : Nat :=
  c.toNat - '0'.toNat

/-- The largest 64-bit word, `2 ^ 64 - 1`. -/
def wordMax : Nat :=
  (1 <<< 64) - 1

/-- Whether `a · 10 + b` is past `limit`, decided without forming it. -/
def passes (limit a b : Nat) : Bool :=
  limit / 10 ≤ a && (limit / 10 < a || limit % 10 < b)

/-- The largest 32-bit signed integer. -/
def exponentMax : Nat :=
  (1 <<< 31) - 1

/-- An exponent brought into the 32-bit signed range, at its nearer end. -/
def saturate (e : Int) : Int :=
  max (-(exponentMax : Int) - 1) (min exponentMax e)

/-- Reads the rest of a literal word, whose first letter was taken: each letter must follow. -/
def scanWord : List Char → List Char → Nat → Scan Unit
  | [], _, used => .done () used
  | _ :: _, [], used => .failed .eofInValue used 0
  | w :: ws, c :: cs, used => if c = w then scanWord ws cs (used + 1) else .failed .expectedIdent used 1

/-- The double of a significand and a power of ten as a number token. -/
def fromParts (positive : Bool) (significand : Nat) (exponent : Int) (used : Nat) : Scan Number :=
  match decimalDouble (!positive) significand exponent with
  | some bits => .done (.double bits) used
  | none => .failed .numberOutOfRange used 0

/-- An integer token without point or exponent: a word when positive; when negative, a signed
word down to `-2 ^ 63`, and otherwise (`-0` among them) a double. -/
def integerToken (positive : Bool) (significand : Nat) : Number :=
  if positive then .word significand
  else if significand ≠ 0 ∧ significand ≤ 1 <<< 63 then .negative (-(significand : Int))
  else
    let bits := Floating.Format.double.withSign true (Floating.Format.double.ofNat significand)
    .double (UInt64.ofNat bits)

/-- Skips the digits of an exponent that outgrew its range: a zero of the sign, unless the
significand is nonzero and the exponent positive, which is out of range. -/
def exponentOverflow (positive zeroSignificand positiveExp : Bool) : List Char → Nat → Scan Number
  | cs, used =>
    if !zeroSignificand && positiveExp then .failed .numberOutOfRange used 0
    else
      let n := (cs.takeWhile isDigit).length
      let signedZero := if positive then 0 else Floating.Format.double.signBit
      .done (.double (UInt64.ofNat signedZero)) (used + n)

/-- The digits of an exponent, `exp` so far. -/
def exponentDigits (positive : Bool) (significand : Nat) (start : Int) (positiveExp : Bool) :
    Nat → List Char → Nat → Scan Number
  | exp, d :: rest, used =>
    if isDigit d then
      if passes exponentMax exp (digitValue d) then
        exponentOverflow positive (significand == 0) positiveExp rest (used + 1)
      else exponentDigits positive significand start positiveExp (exp * 10 + digitValue d) rest (used + 1)
    else
      fromParts positive significand (saturate (if positiveExp then start + exp else start - exp)) used
  | exp, [], used =>
    fromParts positive significand (saturate (if positiveExp then start + exp else start - exp)) used

/-- An exponent after its letter: an optional sign, then at least one digit. -/
def scanExponent (positive : Bool) (significand : Nat) (start : Int) (cs : List Char) (used : Nat) :
    Scan Number :=
  let (positiveExp, cs, used) := match cs with
    | '+' :: rest => (true, rest, used + 1)
    | '-' :: rest => (false, rest, used + 1)
    | _ => (true, cs, used)
  match cs with
  | [] => .failed .eofInValue used 0
  | d :: rest =>
    if isDigit d then exponentDigits positive significand start positiveExp (digitValue d) rest (used + 1)
    else .failed .invalidNumber used 1

/-- After the digits of a number: an exponent, or the end of the token. -/
def afterDigits (positive : Bool) (significand : Nat) (exponent : Int) : List Char → Nat → Scan Number
  | c :: rest, used =>
    if c = 'e' ∨ c = 'E' then scanExponent positive significand exponent rest (used + 1)
    else fromParts positive significand exponent used
  | [], used => fromParts positive significand exponent used

/-- Fraction digits past what the significand holds: skipped. -/
def droppedFraction (positive : Bool) (significand : Nat) (exponent : Int) (cs : List Char)
    (used : Nat) : Scan Number :=
  let n := (cs.takeWhile isDigit).length
  afterDigits positive significand exponent (cs.drop n) (used + n)

/-- The fraction digits, `k` of them taken into the significand so far. -/
def fractionDigits (positive : Bool) (start : Int) : Nat → Nat → List Char → Nat → Scan Number
  | significand, k, d :: rest, used =>
    if isDigit d then
      if passes wordMax significand (digitValue d) then
        droppedFraction positive significand (start - k) (d :: rest) used
      else fractionDigits positive start (significand * 10 + digitValue d) (k + 1) rest (used + 1)
    else if k = 0 then .failed .invalidNumber used 1
    else afterDigits positive significand (start - k) (d :: rest) used
  | significand, k, [], used =>
    if k = 0 then .failed .eofInValue used 0
    else afterDigits positive significand (start - k) [] used

/-- Integer digits past what the significand holds: each counts into the exponent. -/
def longInteger (positive : Bool) (significand : Nat) : Int → List Char → Nat → Scan Number
  | exponent, d :: rest, used =>
    if isDigit d then longInteger positive significand (exponent + 1) rest (used + 1)
    else if d = '.' then fractionDigits positive exponent significand 0 rest (used + 1)
    else afterDigits positive significand exponent (d :: rest) used
  | exponent, [], used => fromParts positive significand exponent used

/-- After an integer part: a fraction, an exponent, or the end of an integer token. -/
def afterInteger (positive : Bool) (significand : Nat) : List Char → Nat → Scan Number
  | '.' :: rest, used => fractionDigits positive 0 significand 0 rest (used + 1)
  | c :: rest, used =>
    if c = 'e' ∨ c = 'E' then scanExponent positive significand 0 rest (used + 1)
    else .done (integerToken positive significand) used
  | [], used => .done (integerToken positive significand) used

/-- The digits of an integer part after its first, `significand` so far. -/
def integerDigits (positive : Bool) : Nat → List Char → Nat → Scan Number
  | significand, d :: rest, used =>
    if isDigit d then
      if passes wordMax significand (digitValue d) then longInteger positive significand 0 (d :: rest) used
      else integerDigits positive (significand * 10 + digitValue d) rest (used + 1)
    else afterInteger positive significand (d :: rest) used
  | significand, [], used => afterInteger positive significand [] used

/-- A number after its sign: a lone `0` or a digit from `1` to `9` and more digits, then an
optional fraction and exponent. -/
def scanNumber (positive : Bool) : List Char → Scan Number
  | [] => .failed .eofInValue 0 0
  | '0' :: rest =>
    match rest with
    | d :: _ => if isDigit d then .failed .invalidNumber 1 1 else afterInteger positive 0 rest 1
    | [] => afterInteger positive 0 [] 1
  | c :: rest =>
    if isDigit c then integerDigits positive (digitValue c) rest 1
    else .failed .invalidNumber 0 1

/-- The value of four hexadecimal digits that begin `cs`. -/
def hexValue? (cs : List Char) : Option Nat :=
  match cs with
  | [a, b, c, d] => [a, b, c, d].foldlM (fun acc ch => (hexDigit? ch).map (16 * acc + ·)) 0
  | _ => none
where
  /-- The value of a hexadecimal digit, either case. -/
  hexDigit? (c : Char) : Option Nat :=
    if isDigit c then some (digitValue c)
    else if 'a' ≤ c ∧ c ≤ 'f' then some (c.toNat - 'a'.toNat + 10)
    else if 'A' ≤ c ∧ c ≤ 'F' then some (c.toNat - 'A'.toNat + 10)
    else none

/-- The character of a short escape letter. -/
def shortEscape (c : Char) : Option Char :=
  if c = '"' then some '"'
  else if c = '\\' then some '\\'
  else if c = '/' then some '/'
  else if c = 'b' then some (Char.ofNat 8)
  else if c = 'f' then some (Char.ofNat 12)
  else if c = 'n' then some '\n'
  else if c = 'r' then some '\r'
  else if c = 't' then some '\t'
  else none

/-- Whether a UTF-16 unit is a leading surrogate. -/
def isLeading (n : Nat) : Bool :=
  0xD800 ≤ n && n ≤ 0xDBFF

/-- Whether a UTF-16 unit is a trailing surrogate. -/
def isTrailing (n : Nat) : Bool :=
  0xDC00 ≤ n && n ≤ 0xDFFF

/-- The code point of a leading and a trailing surrogate. -/
def fromSurrogates (hi lo : Nat) : Nat :=
  ((hi - 0xD800) <<< 10 ||| (lo - 0xDC00)) + 0x10000

/-- The failure of an escape whose four digits are not all there: when fewer than four bytes
remain the string ends inside it, and otherwise its four bytes are not hexadecimal digits. -/
def shortDigits (cs : List Char) (used : Nat) : Scan String :=
  if (cs.take 4).foldl (fun n c => n + c.utf8Size) 0 < 4 then .failed .eofInString used 4
  else .failed .invalidEscape used 4

/-- The characters of a string up to its closing quote, `acc` reversed so far. An escape `\u`
takes four hexadecimal digits (four bytes, read even when they are not); a leading surrogate
must be followed at once by `\u` and a trailing one. -/
def stringChars : List Char → List Char → Nat → Scan String
  | [], _, used => .failed .eofInString used 0
  | '"' :: _, acc, used => .done (String.ofList acc.reverse) (used + 1)
  | '\\' :: 'u' :: a :: b :: c :: d :: rest, acc, used =>
    match hexValue? [a, b, c, d] with
    | none => .failed .invalidEscape (used + 2) 4
    | some n =>
      if isTrailing n then .failed .loneLeadingSurrogate (used + 6) 0
      else if !isLeading n then stringChars rest (Char.ofNat n :: acc) (used + 6)
      else match rest with
        | [] => .failed .eofInString (used + 6) 0
        | '\\' :: 'u' :: e :: f :: g :: h :: rest =>
          match hexValue? [e, f, g, h] with
          | none => .failed .invalidEscape (used + 8) 4
          | some lo =>
            if isTrailing lo then stringChars rest (Char.ofNat (fromSurrogates n lo) :: acc) (used + 12)
            else .failed .loneLeadingSurrogate (used + 12) 0
        | '\\' :: 'u' :: rest => shortDigits rest (used + 8)
        | '\\' :: [] => .failed .eofInString (used + 7) 0
        | '\\' :: _ :: _ => .failed .unexpectedEndOfHexEscape (used + 7) 1
        | _ :: _ => .failed .unexpectedEndOfHexEscape (used + 6) 1
  | '\\' :: 'u' :: rest, _, used => shortDigits rest (used + 2)
  | '\\' :: [], _, used => .failed .eofInString (used + 1) 0
  | '\\' :: e :: rest, acc, used =>
    match shortEscape e with
    | some ch => stringChars rest (ch :: acc) (used + 2)
    | none => .failed .invalidEscape (used + 1) 1
  | c :: rest, acc, used =>
    if c.toNat < 0x20 then .failed .controlCharacter used 1
    else stringChars rest (c :: acc) (used + 1)

/-- A string after its opening quote. -/
def scanString (cs : List Char) : Scan String :=
  stringChars cs [] 0

end CompactCollections.Request
