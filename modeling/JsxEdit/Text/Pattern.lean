import JsxEdit.Text.Letter

/-
Patterns that may match in several ways. A pattern gives all positions at which a match from a given position can
end, so that a sequence of patterns tries every way.
-/
set_option autoImplicit false

namespace JsxEdit.Text

/-- A position in a text: the character before it and what follows. -/
structure Cursor where
  before : Option Char
  rest : List Char
  deriving DecidableEq, Repr

/-- The positions after a match. -/
abbrev Pattern := Cursor → List Cursor

namespace Pattern

/-- One character with the property. -/
def one (p : Char → Bool) : Pattern := fun c =>
  match c.rest with
  | [] => []
  | x :: xs => if p x then [⟨some x, xs⟩] else []

/-- Any number of characters with the property. -/
def manyFrom (p : Char → Bool) (before : Option Char) : List Char → List Cursor
  | [] => [⟨before, []⟩]
  | x :: xs => if p x then ⟨before, x :: xs⟩ :: manyFrom p (some x) xs else [⟨before, x :: xs⟩]

/-- Any number of characters with the property. -/
def many (p : Char → Bool) : Pattern := fun c => manyFrom p c.before c.rest

/-- One pattern after the other. -/
def andThen (p q : Pattern) : Pattern := fun c => (p c).flatMap q

/-- The patterns one after the other. -/
def all : List Pattern → Pattern
  | [] => fun c => [c]
  | p :: ps => andThen p (all ps)

/-- One of the patterns. -/
def any (ps : List Pattern) : Pattern := fun c => ps.flatMap (· c)

/-- The pattern or nothing. -/
def optional (p : Pattern) : Pattern := fun c => p c ++ [c]

/-- At least one character with the property. -/
def some (p : Char → Bool) : Pattern := andThen (one p) (many p)

/-- The characters of a text. -/
def word (s : String) : Pattern := all (s.toList.map fun x => one (· == x))

/-- A position with a word character on exactly one side. -/
def edge : Pattern := fun c => if c.before.any isWord != c.rest.head?.any isWord then [c] else []

/-- The end of the text, or a line feed at its end. -/
def finish : Pattern := fun c => if c.rest == [] || c.rest == ['\n'] then [c] else []

/-- Whether the pattern matches somewhere from the cursor on. -/
def matchesFrom (p : Pattern) (before : Option Char) : List Char → Bool
  | [] => !(p ⟨before, []⟩).isEmpty
  | x :: xs => !(p ⟨before, x :: xs⟩).isEmpty || matchesFrom p (Option.some x) xs

/-- Whether the pattern matches somewhere in the text. -/
def occurs (p : Pattern) (s : String) : Bool := matchesFrom p none s.toList

end Pattern
end JsxEdit.Text
