import JsxEdit.Number.Double
import JsxEdit.Text.Space
import JsxEdit.Text.Letter

/-
Reading number texts.

An integer may have a sign and the marks `0x`, `0o` or `0b` of another base; a decimal integer starts with a
zero only if it is zero. What is no integer in this sense is read as a floating point number: digits with an
optional point and exponent, or the names of infinity and of the number that is none. Decimal digits of all
scripts count, and white space around the number does not, except for the ASCII separators.
-/
set_option autoImplicit false

namespace JsxEdit

/-- A number: an integer of any size or a floating point number. -/
inductive Number where
  | int (n : Int)
  | float (d : Double)
  deriving DecidableEq, Repr

namespace Number

/-- Equality as numbers, whatever their kind. -/
def same : Number → Number → Bool
  | .int n, .int n' => n == n'
  | .float d, .float d' => d.same d'
  | .int n, .float d => d.toInt? == some n
  | .float d, .int n => d.toInt? == some n

/-- A character beyond ASCII as an ASCII character: a digit of any script as its digit, white space as a blank, any
other as one that occurs in no number. -/
def plainChar (c : Char) : Char :=
  if c.toNat < 0x80 then c
  else
    match Text.decimalValue? c with
    | some d => Char.ofNat (48 + d)
    | none => if Text.isSpace c then ' ' else '?'

/-- The ASCII blanks that may stand around a number. -/
def isBlank (c : Char) : Bool := c == ' ' || (9 ≤ c.toNat && c.toNat ≤ 13)

/-- The characters of a number text without white space around them. -/
def plain (s : String) : List Char :=
  (((s.toList.map plainChar).dropWhile isBlank).reverse.dropWhile isBlank).reverse

/-- The sign, if any, and what follows it. -/
def splitSign : List Char → Bool × List Char
  | '-' :: cs => (true, cs)
  | '+' :: cs => (false, cs)
  | cs => (false, cs)

/-- The value of a digit list in the base, none for an empty list or a digit the base does not have. -/
def digits? (base : Nat) (cs : List Char) : Option Nat :=
  if cs.isEmpty then none
  else cs.foldl (fun acc c =>
    match acc, Text.hexValue? c with
    | some n, some d => if d < base then some (n * base + d) else none
    | _, _ => none) (some 0)

/-- The value of a list of decimal digits that is not too long. -/
def decimal? (cs : List Char) : Option Nat := if cs.length ≤ Text.maxDigits then digits? 10 cs else none

/-- The magnitude of an integer text without sign. -/
def magnitude? : List Char → Option Nat
  | '0' :: mark :: cs =>
    if mark == 'x' || mark == 'X' then digits? 16 cs
    else if mark == 'o' || mark == 'O' then digits? 8 cs
    else if mark == 'b' || mark == 'B' then digits? 2 cs
    else if (mark :: cs).all (· == '0') then decimal? ('0' :: mark :: cs) else none
  | cs => decimal? cs

/-- An integer text. -/
def readInt? (s : String) : Option Int :=
  let (negative, cs) := splitSign (plain s)
  (magnitude? cs).map fun n => if negative then -(n : Int) else n

/-- The decimal digits a list starts with, and the rest. -/
def spanDigits (cs : List Char) : List Char × List Char := (cs.takeWhile Char.isDigit, cs.dropWhile Char.isDigit)

/-- An exponent part, which may be missing altogether. -/
def exponent? : List Char → Option Int
  | [] => some 0
  | c :: cs =>
    if c == 'e' || c == 'E' then
      let (negative, ds) := splitSign cs
      if ds.all Char.isDigit then (digits? 10 ds).map fun n => if negative then -(n : Int) else n else none
    else none

/-- A floating point text without sign. -/
def readMagnitude? (negative : Bool) (cs : List Char) : Option Double :=
  let word := String.ofList (cs.map Char.toLower)
  if word == "inf" || word == "infinity" then some (.infinite negative)
  else if word == "nan" then some .nan
  else
    let (whole, rest) := spanDigits cs
    let (part, rest) := match rest with
      | '.' :: rest => spanDigits rest
      | rest => ([], rest)
    if whole.isEmpty && part.isEmpty then none
    else do
      let e ← exponent? rest
      let n ← digits? 10 (whole ++ part)
      return .ofDecimal negative n (e - part.length)

/-- A floating point text. -/
def readFloat? (s : String) : Option Double :=
  let (negative, cs) := splitSign (plain s)
  readMagnitude? negative cs

/-- A number text, as an integer if possible. -/
def read? (s : String) : Option Number :=
  match readInt? s with
  | some n => some (.int n)
  | none => (readFloat? s).map .float

end Number
end JsxEdit
