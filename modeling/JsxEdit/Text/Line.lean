/-
Lines and columns of a text. Lines count from 1, columns from 0, and a line ends at its line feed.
-/
set_option autoImplicit false

namespace JsxEdit.Text

/-- A position as line and column. -/
structure LineColumn where
  line : Nat
  column : Int
  deriving DecidableEq, Repr

/-- The number of characters a cut at `pos` keeps; a negative position counts from the end. -/
def cutLength (length : Nat) (pos : Int) : Nat :=
  if pos < 0 then ((length : Int) + pos).toNat else min pos.toNat length

/-- Line and column of the position. The column is measured from the position as given, also when it lies
outside the text. -/
def lineColumn (text : String) (pos : Int) : LineColumn :=
  let before := text.toList.take (cutLength text.toList.length pos)
  let lastLine := before.reverse.takeWhile (· != '\n')
  ⟨before.count '\n' + 1, pos - (before.length - lastLine.length : Nat)⟩

/-- What follows the first `n` line feeds, with the position it starts at. -/
def afterLines : Nat → Nat → List Char → Option (Nat × List Char)
  | 0, pos, cs => some (pos, cs)
  | _ + 1, _, [] => none
  | n + 1, pos, c :: cs => if c == '\n' then afterLines n (pos + 1) cs else afterLines (n + 1) (pos + 1) cs

/-- The position of line and column. A column beyond the end of the line is the end of the line; a line
before the first is the first. -/
def position (text : String) (line column : Int) : Option Int :=
  (afterLines (line - 1).toNat 0 text.toList).map fun (start, rest) =>
    min (start + column) (start + (rest.takeWhile (· != '\n')).length : Nat)

end JsxEdit.Text
