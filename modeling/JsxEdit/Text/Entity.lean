import JsxEdit.Text.EntityTable
import JsxEdit.Text.Letter
import JsxEdit.Text.Replace

/-
Character references in attribute texts, such as `&quot;` and `&#8364;`.

A reference by number may lack its semicolon. So may the older names, and then the longest known name that
the text starts with is taken. A reference to no usable character gives nothing or the replacement
character; what is no reference stays as it is. A reference by a decimal number with too many digits cannot be read.
-/
set_option autoImplicit false

namespace JsxEdit.Text

/-- The code points that the name stands for. -/
def codesOfName? (name : String) : Option (List Nat) :=
  commonNames.lookup name <|> (name.toList.head?.bind fun c => (furtherNames c).lookup name)

/-- The characters that the numbers 0x80 to 0x9F stand for; a number of its own stands for itself. -/
def legacyCodes : List Nat :=
  [0x20AC, 0x81, 0x201A, 0x192, 0x201E, 0x2026, 0x2020, 0x2021, 0x2C6, 0x2030, 0x160, 0x2039, 0x152,
   0x8D, 0x17D, 0x8F, 0x90, 0x2018, 0x2019, 0x201C, 0x201D, 0x2022, 0x2013, 0x2014, 0x2DC, 0x2122,
   0x161, 0x203A, 0x153, 0x9D, 0x17E, 0x178]

/-- Code points that no character has. -/
def isNoncharacter (n : Nat) : Bool :=
  (1 ≤ n && n ≤ 8) || n == 0xB || (0xE ≤ n && n ≤ 0x1F) || n == 0x7F || (0xFDD0 ≤ n && n ≤ 0xFDEF) ||
    n % 0x10000 == 0xFFFE || n % 0x10000 == 0xFFFF

/-- What a reference by number stands for. -/
def charOfCode (n : Nat) : List Char :=
  if n == 0 || (0xD800 ≤ n && n ≤ 0xDFFF) || n > 0x10FFFF then [Char.ofNat 0xFFFD]
  else if 0x80 ≤ n && n ≤ 0x9F then [Char.ofNat (legacyCodes.getD (n - 0x80) n)]
  else if isNoncharacter n then []
  else [Char.ofNat n]

/-- The number written by digits of the base. -/
def codeOfDigits (base : Nat) (ds : List Char) : Nat :=
  ds.foldl (fun n d => n * base + (hexValue? d).getD 0) 0

/-- A reference by number after its mark: how long the digits and the semicolon are, and the character. -/
def numericReference? (base : Nat) (isDigit : Char → Bool) (cs : List Char) : Option (Nat × List Char) :=
  let ds := cs.takeWhile isDigit
  if ds.isEmpty then none
  else
    let close := if (cs.drop ds.length).head? == some ';' then 1 else 0
    some (ds.length + close, charOfCode (codeOfDigits base ds))

/-- Characters that may belong to the name of a reference. -/
def isReferenceChar (c : Char) : Bool := !(['\t', '\n', '\x0c', ' ', '<', '&', '#', ';'].contains c)

/-- The characters with exactly this name; only some names are known without a semicolon after them. -/
def charsOfName? (closed : Bool) (name : List Char) : Option (List Char) :=
  if closed || bareNames.contains (.ofList name) then
    (codesOfName? (.ofList name)).map fun codes => codes.map Char.ofNat
  else none

/-- The longest known name among the first `n` or fewer characters, at least two; the characters it stands
for, and those left over. -/
def longestName? (name : List Char) : Nat → Option (List Char)
  | 0 | 1 => none
  | n + 2 =>
    match charsOfName? false (name.take (n + 2)) with
    | some cs => some (cs ++ name.drop (n + 2))
    | none => longestName? name (n + 1)

/-- A reference by name: its length and what it stands for, itself if nothing is known under the name. -/
def namedReference? (cs : List Char) : Option (Nat × List Char) :=
  let name := (cs.takeWhile isReferenceChar).take 32
  if name.isEmpty then none
  else
    let closed := (cs.drop name.length).head? == some ';'
    let whole := if closed then name ++ [';'] else name
    match charsOfName? closed name with
    | some out => some (whole.length, out)
    | none => some (whole.length, (longestName? whole (whole.length - 1)).getD ('&' :: whole))

/-- The reference after an ampersand, if there is one: its length and what it stands for. -/
def reference? : List Char → Option (Nat × List Char)
  | '#' :: cs =>
    match numericReference? 10 Char.isDigit cs with
    | some (n, out) => some (n + 1, out)
    | none =>
      match cs with
      | x :: cs =>
        if x == 'x' || x == 'X' then (numericReference? 16 isHex cs).map fun (n, out) => (n + 2, out)
        else none
      | [] => none
  | cs => namedReference? cs

/-- Whether a reference after an ampersand has more decimal digits than can be read. -/
def isTooLong : List Char → Bool
  | '#' :: cs => maxDigits < (cs.takeWhile Char.isDigit).length
  | _ => false

/-- Replaces the references; the first `skip` characters belong to one already replaced. -/
def decodeFrom : Nat → List Char → Option (List Char)
  | _, [] => some []
  | skip + 1, _ :: cs => decodeFrom skip cs
  | 0, c :: cs =>
    if c == '&' then
      if isTooLong cs then none
      else
        match reference? cs with
        | some (n, out) => (decodeFrom n cs).map (out ++ ·)
        | none => (decodeFrom 0 cs).map (c :: ·)
    else (decodeFrom 0 cs).map (c :: ·)

/-- The text with every character reference replaced by what it stands for, unless one cannot be read. -/
def decodeReferences? (s : String) : Option String := (decodeFrom 0 s.toList).map .ofList

end JsxEdit.Text
