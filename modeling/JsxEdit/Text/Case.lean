import JsxEdit.Text.CaseTable
import JsxEdit.Text.CasedTable
import JsxEdit.Text.Letter

/-
Lower case, and the two spellings of compound names: `hero_section` for `heroSection`, and `marginTop`
for `margin-top`.

The capital sigma is the one letter whose lower case depends on its place: at the end of a word it has a form of its
own.
-/
set_option autoImplicit false

namespace JsxEdit.Text

/-- Whether the character has case. -/
def isCased (c : Char) : Bool := if c.toNat < 0x80 then c.isAlpha else inRanges casedRanges c.toNat

/-- Whether the character is passed over in looking for the end of a word. -/
def isPassed (c : Char) : Bool :=
  if c.toNat < 0x80 then ['\'', '.', ':', '^', '`'].contains c else inRanges passedRanges c.toNat

/-- Whether the first character that is not passed over has case. -/
def meetsCased (cs : List Char) : Bool := (cs.dropWhile isPassed).head?.any isCased

/-- The lower case of one character away from the end of a word. Only the dotted capital I needs two characters. -/
def lowerChar (c : Char) : List Char :=
  let n := c.toNat
  if n < 0x80 then [c.toLower]
  else if n == 0x130 then ['i', Char.ofNat 0x307]
  else
    match caseRuns.find? fun r => r.first ≤ n && n ≤ r.last && (n - r.first) % r.stride == 0 with
    | some r => [Char.ofNat ((n : Int) + r.shift).toNat]
    | none => [c]

/-- The lower case of characters; `before` holds those in front of them, last one first. A capital sigma with a letter
before it and none after it is at the end of a word. -/
def lowerFrom (before : List Char) : List Char → List Char
  | [] => []
  | c :: cs =>
    let small :=
      if c.toNat == 0x3A3 && meetsCased before && !meetsCased cs then [Char.ofNat 0x3C2] else lowerChar c
    small ++ lowerFrom (c :: before) cs

/-- The text in lower case. -/
def lower (s : String) : String := .ofList (lowerFrom [] s.toList)

/-- Puts an underscore between a small letter or digit and the capital that follows it. -/
def splitCapitals : Option Char → List Char → List Char
  | _, [] => []
  | before, c :: cs =>
    let small := before.any fun b => b.isLower || b.isDigit
    if small && c.isUpper then '_' :: c :: splitCapitals (some c) cs
    else c :: splitCapitals (some c) cs

/-- The name with underscores between its parts, in lower case. -/
def snakeCase (name : String) : String := lower (.ofList (splitCapitals none name.toList))

/-- Drops every dash before a small letter and makes that letter a capital. -/
def joinDashes : List Char → List Char
  | [] => []
  | [c] => [c]
  | c :: d :: cs => if c == '-' && d.isLower then d.toUpper :: joinDashes cs else c :: joinDashes (d :: cs)

/-- The name with a capital at the start of every later part instead of a dash. -/
def camelCase (name : String) : String := .ofList (joinDashes name.toList)

end JsxEdit.Text
