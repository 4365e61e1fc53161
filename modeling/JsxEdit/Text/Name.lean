import JsxEdit.Text.Letter

/-
Names: identifiers, tag names and attribute names.

A name starts with a letter of ASCII, an underscore or a dollar sign and goes on with word characters and
dollar signs. Tag names may have further parts after a dash, a colon or a point, attribute names after a
dash or a colon.
-/
set_option autoImplicit false

namespace JsxEdit.Text

/-- Characters a name may start with. -/
def isNameStart (c : Char) : Bool := c.isAlpha || c == '_' || c == '$'

/-- Characters a name may go on with. -/
def isNamePart (c : Char) : Bool := isWord c || c == '$'

/-- What divides the parts of a name. -/
inductive NameKind where
  | identifier
  | attr
  | tag
  deriving DecidableEq, Repr

/-- Whether the character may stand between two parts of the name. -/
def NameKind.divides : NameKind → Char → Bool
  | .identifier, _ => false
  | .attr, c => c == '-' || c == ':'
  | .tag, c => c == '-' || c == ':' || c == '.'

/-- How many characters continue a name. -/
def nameTail (kind : NameKind) : List Char → Nat
  | [] => 0
  | [c] => if isNamePart c then 1 else 0
  | c :: d :: cs =>
    if isNamePart c then nameTail kind (d :: cs) + 1
    else if kind.divides c && isNamePart d then nameTail kind cs + 2
    else 0

/-- The length of the name the list starts with. -/
def nameLength? (kind : NameKind) : List Char → Option Nat
  | [] => none
  | c :: cs => if isNameStart c then some (nameTail kind cs + 1) else none

/-- Whether nothing is left but, perhaps, one line feed. -/
def atEnd : List Char → Bool
  | [] => true
  | ['\n'] => true
  | _ => false

/-- Whether the text is a name of this kind; a line feed after it is let pass. -/
def isName (kind : NameKind) (s : String) : Bool :=
  match nameLength? kind s.toList with
  | some n => atEnd (s.toList.drop n)
  | none => false

end JsxEdit.Text
