/-
Tokens: the pieces a source text is cut into, each with its position.
-/
set_option autoImplicit false

namespace JsxEdit

/-- What a token is. -/
inductive TokenKind where
  | space
  | delimiter
  | tagName
  | attrName
  | equals
  | doubleQuoted
  | singleQuoted
  | template
  | comment
  | separator
  | text
  | invalid
  deriving DecidableEq, Repr

/-- A piece of the source text that starts at `pos`. -/
structure Token where
  kind : TokenKind
  pos : Nat
  text : String
  deriving DecidableEq, Repr

/-- The position after the token. -/
def Token.stop (t : Token) : Nat := t.pos + t.text.length

/-- How a stretch of the source is read. -/
inductive Mode where
  /-- Script text outside all markup. -/
  | script
  /-- Where markup was announced: white space and markup, up to anything else. -/
  | markup
  /-- The opening tag of an element. -/
  | tag
  /-- Between the opening and the closing tag of an element. -/
  | content
  /-- A fragment up to its closing tag. -/
  | fragment
  /-- An expression in braces. -/
  | braces
  /-- A part of an expression in parentheses or brackets. -/
  | group
  /-- A template literal. -/
  | template
  deriving DecidableEq, Repr

/-- What reading a source text brings: tokens, and where stretches of a mode begin and end. -/
inductive Event where
  | token (t : Token)
  | enter (mode : Mode)
  | leave
  deriving DecidableEq, Repr

end JsxEdit
