import JsxEdit.Text.PrintableTable
import JsxEdit.Text.Letter

/-
The quoted form of a text, as messages and labels show it.

Single quotes are used unless the text has a single quote and no double one. Backslashes, the quote, line
feeds, returns and tabs have short escapes, other characters that do not print are written by number.
A label abbreviates a text whose quoted form is long, by its first and last characters.
-/
set_option autoImplicit false

namespace JsxEdit.Text

/-- Characters a quoted text shows as they are. -/
def isPrintable (c : Char) : Bool :=
  if c.toNat < 0x80 then 32 ≤ c.toNat && c.toNat < 127 else inRanges printableRanges c.toNat

/-- One hexadecimal digit in lower case. -/
def hexDigit (n : Nat) : Char := if n < 10 then Char.ofNat (48 + n) else Char.ofNat (87 + n)

/-- The last `width` hexadecimal digits of a number. -/
def hexDigits (n : Nat) : Nat → List Char
  | 0 => []
  | width + 1 => hexDigits (n / 16) width ++ [hexDigit (n % 16)]

/-- A character as it stands between quotes. -/
def quoteChar (quote c : Char) : List Char :=
  if c == quote || c == '\\' then ['\\', c]
  else if c == '\n' then ['\\', 'n']
  else if c == '\r' then ['\\', 'r']
  else if c == '\t' then ['\\', 't']
  else if isPrintable c then [c]
  else if c.toNat < 0x100 then '\\' :: 'x' :: hexDigits c.toNat 2
  else if c.toNat < 0x10000 then '\\' :: 'u' :: hexDigits c.toNat 4
  else '\\' :: 'U' :: hexDigits c.toNat 8

/-- The quoted form of a list of characters. -/
def quoteChars (cs : List Char) : List Char :=
  let quote := if cs.contains '\'' && !cs.contains '"' then '"' else '\''
  quote :: cs.flatMap (quoteChar quote) ++ [quote]

/-- The quoted form of a text. -/
def quoted (s : String) : String := .ofList (quoteChars s.toList)

/-- The end of the list from position `length - n` on. A list shorter than `n` counts that negative position
from its end again. -/
def lastChars (n : Nat) (cs : List Char) : List Char :=
  if n ≤ cs.length then cs.drop (cs.length - n) else cs.drop (cs.length - (n - cs.length))

/-- The quoted form of a text for a label: at most thirty characters long. -/
def abbreviated (s : String) : String :=
  let cs := s.toList
  let whole := quoteChars (cs.take 30)
  if whole.length ≤ 30 then .ofList whole
  else
    let short := quoteChars (cs.take 13 ++ lastChars 14 cs)
    .ofList (short.take 13 ++ ['.', '.', '.'] ++ lastChars 14 short)

end JsxEdit.Text
