/-
Records of what was done, for those who want to follow it.
-/
set_option autoImplicit false

namespace JsxEdit

/-- How important a record is. -/
inductive Level where
  | debug
  | info
  | warning
  deriving DecidableEq, Repr

/-- Which part of the library a record comes from. -/
inductive Channel where
  | edit
  | templates
  | find
  | files
  deriving DecidableEq, Repr

/-- A record. -/
structure Record where
  level : Level
  channel : Channel
  message : String
  deriving DecidableEq, Repr

end JsxEdit
