/-
Replacing a piece of text wherever it occurs, and counting and finding characters.
-/
set_option autoImplicit false

namespace JsxEdit.Text

/-- Replaces `old` from left to right; the first `skip` characters belong to an occurrence already
replaced. -/
def replaceFrom (old new : List Char) : Nat → List Char → List Char
  | _, [] => []
  | skip + 1, _ :: cs => replaceFrom old new skip cs
  | 0, c :: cs =>
    if old.isPrefixOf (c :: cs) then new ++ replaceFrom old new (old.length - 1) cs
    else c :: replaceFrom old new 0 cs

/-- The text with every occurrence of `old` replaced; an empty `old` stands before every character and at
the end. -/
def replace (s old new : String) : String :=
  if old.isEmpty then .ofList (new.toList ++ s.toList.flatMap fun c => c :: new.toList)
  else .ofList (replaceFrom old.toList new.toList 0 s.toList)

/-- Whether the piece occurs in the list. -/
def occursIn (piece : List Char) : List Char → Bool
  | [] => piece.isEmpty
  | c :: cs => piece.isPrefixOf (c :: cs) || occursIn piece cs

/-- Whether the piece occurs in the text. -/
def contains (s piece : String) : Bool := occursIn piece.toList s.toList

/-- Whether the text starts with the piece. -/
def startsWith (s piece : String) : Bool := piece.toList.isPrefixOf s.toList

/-- The text without its first and its last character. -/
def inner (s : String) : String := .ofList (s.toList.drop 1).dropLast

/-- The first character, as a text. -/
def first (s : String) : String := .ofList (s.toList.take 1)

/-- How often the character occurs. -/
def count (c : Char) (s : String) : Nat := s.toList.count c

/-- The pieces with the separator between them. -/
def join (separator : String) (pieces : List String) : String := separator.intercalate pieces

/-- The text followed by itself, `n` times in all. -/
def repeated (s : String) : Nat → String
  | 0 => ""
  | n + 1 => s ++ repeated s n

end JsxEdit.Text
