import JsxEdit.Text.LetterTable

/-
Letters, numerals and decimal digits.

ASCII is decided by its own rules, so that the tables matter for other characters only.
-/
set_option autoImplicit false

namespace JsxEdit.Text

/-- Whether the code point lies in one of the ranges. -/
def inRanges (ranges : List (Nat × Nat)) (n : Nat) : Bool :=
  ranges.any fun (lo, hi) => lo ≤ n && n ≤ hi

/-- The value of a decimal digit of any script. -/
def decimalValue? (c : Char) : Option Nat :=
  if c.toNat < 0x80 then
    if c.isDigit then some (c.toNat - 48) else none
  else
    (decimalZeros.find? fun base => base ≤ c.toNat && c.toNat < base + 10).map (c.toNat - ·)

/-- The most decimal digits a whole number is read from. -/
def maxDigits : Nat := 4300

/-- Decimal digits of any script. -/
def isDecimal (c : Char) : Bool := (decimalValue? c).isSome

/-- Characters of a word: letters and numerals of any script, and the underscore. -/
def isWord (c : Char) : Bool :=
  if c.toNat < 0x80 then c.isAlphanum || c == '_' else inRanges letterRanges c.toNat

/-- Hexadecimal digits. -/
def isHex (c : Char) : Bool := c.isDigit || ('a' ≤ c && c ≤ 'f') || ('A' ≤ c && c ≤ 'F')

/-- The value of a hexadecimal digit, of an ASCII digit up to `f`. -/
def hexValue? (c : Char) : Option Nat :=
  if c.isDigit then some (c.toNat - 48)
  else if 'a' ≤ c && c ≤ 'f' then some (c.toNat - 87)
  else if 'A' ≤ c && c ≤ 'F' then some (c.toNat - 55)
  else none

end JsxEdit.Text
