/-
White space: which characters it has, and the words and edges it gives to a text.

Every text is its leading space, its core and its trailing space; a text of spaces only is blank and has
an empty core.
-/
set_option autoImplicit false

namespace JsxEdit.Text

/-- White space: the ASCII blanks and separators, and the space separators of Unicode. -/
def isSpace (c : Char) : Bool :=
  let n := c.toNat
  (9 ≤ n && n ≤ 13) || (28 ≤ n && n ≤ 32) || n == 0x85 || n == 0xA0 || n == 0x1680 ||
    (0x2000 ≤ n && n ≤ 0x200A) || n == 0x2028 || n == 0x2029 || n == 0x202F || n == 0x205F ||
    n == 0x3000

/-- A text without any character that is not white space. -/
def isBlank (s : String) : Bool := s.toList.all isSpace

/-- The white space a text starts with. -/
def lead (s : String) : String := .ofList (s.toList.takeWhile isSpace)

/-- The text without the white space it starts with. -/
def trimStart (s : String) : String := .ofList (s.toList.dropWhile isSpace)

/-- The white space a text ends with. -/
def trail (s : String) : String := .ofList (s.toList.reverse.takeWhile isSpace).reverse

/-- The text without the white space it ends with. -/
def trimEnd (s : String) : String := .ofList (s.toList.reverse.dropWhile isSpace).reverse

/-- The text without the white space around it. -/
def trim (s : String) : String := trimEnd (trimStart s)

theorem lead_append_trimStart (s : String) : lead s ++ trimStart s = s := by
  rw [lead, trimStart, ← String.ofList_append, List.takeWhile_append_dropWhile, String.ofList_toList]

theorem trimEnd_append_trail (s : String) : trimEnd s ++ trail s = s := by
  rw [trimEnd, trail, ← String.ofList_append, ← List.reverse_append, List.takeWhile_append_dropWhile,
    List.reverse_reverse, String.ofList_toList]

/-- The words of `cs`; `word` holds the letters of the current one, last letter first. -/
def wordsFrom (word : List Char) : List Char → List String
  | [] => if word.isEmpty then [] else [.ofList word.reverse]
  | c :: cs =>
    if isSpace c then
      if word.isEmpty then wordsFrom [] cs else .ofList word.reverse :: wordsFrom [] cs
    else wordsFrom (c :: word) cs

/-- The maximal runs of characters that are not white space. -/
def words (s : String) : List String := wordsFrom [] s.toList

end JsxEdit.Text
