import JsxEdit.Dict
import JsxEdit.Number.Decimal
import JsxEdit.Number.Read
import JsxEdit.Text.Quoted
import JsxEdit.Text.Replace

/-
Values as they are given to attributes, styles and templates, and read back from literals.

`Value ν` may hold nodes of type `ν`; a `Datum` holds none.
-/
set_option autoImplicit false

namespace JsxEdit

/-- A value: nothing, a truth value, a number, a text, a list, a dictionary, or a node. -/
inductive Value (ν : Type) where
  | null
  | bool (b : Bool)
  | int (n : Int)
  | float (d : Double)
  | str (s : String)
  | list (items : List (Value ν))
  | dict (entries : List (String × Value ν))
  | node (n : ν)

/-- A value without nodes. -/
abbrev Datum := Value Empty

namespace Value

variable {ν μ : Type}

/-- A number as a value. -/
def ofNumber : Number → Value ν
  | .int n => .int n
  | .float d => .float d

/-- An optional text as a value. -/
def ofText? : Option String → Value ν
  | some s => .str s
  | none => .null

/-- An optional number as a value. -/
def ofInt? : Option Int → Value ν
  | some n => .int n
  | none => .null

mutual

/-- The value with each node replaced by another value. -/
def bind (f : ν → Value μ) : Value ν → Value μ
  | .null => .null
  | .bool b => .bool b
  | .int n => .int n
  | .float d => .float d
  | .str s => .str s
  | .list items => .list (bindItems f items)
  | .dict entries => .dict (bindEntries f entries)
  | .node n => f n

/-- The items with each node replaced. -/
def bindItems (f : ν → Value μ) : List (Value ν) → List (Value μ)
  | [] => []
  | v :: vs => v.bind f :: bindItems f vs

/-- The entries with each node replaced. -/
def bindEntries (f : ν → Value μ) : List (String × Value ν) → List (String × Value μ)
  | [] => []
  | (k, v) :: rest => (k, v.bind f) :: bindEntries f rest

end

/-- A datum where a value is wanted. -/
def ofDatum (d : Datum) : Value ν := d.bind nofun

/-- Whether the value counts as given: nothing, false, zero and empty values do not, a node does. -/
def isTruthy : Value ν → Bool
  | .null => false
  | .bool b => b
  | .int n => n != 0
  | .float d => !d.isZero
  | .str s => !s.isEmpty
  | .list items => !items.isEmpty
  | .dict entries => !entries.isEmpty
  | .node _ => true

mutual

/-- The value as messages quote it; `label` shows a node. A whole number is written out here however many digits it
has: that a number may be too long to be written at all is minded where its text goes into a document. -/
def quoted (label : ν → String) : Value ν → String
  | .null => "None"
  | .bool b => if b then "True" else "False"
  | .int n => intText n
  | .float d => d.text
  | .str s => Text.quoted s
  | .list items => "[" ++ quotedItems label items ++ "]"
  | .dict entries => "\x7b" ++ quotedEntries label entries ++ "\x7d"
  | .node n => label n

/-- The quoted items with commas between them. -/
def quotedItems (label : ν → String) : List (Value ν) → String
  | [] => ""
  | [v] => v.quoted label
  | v :: vs => v.quoted label ++ ", " ++ quotedItems label vs

/-- The quoted entries with commas between them. -/
def quotedEntries (label : ν → String) : List (String × Value ν) → String
  | [] => ""
  | [(k, v)] => Text.quoted k ++ ": " ++ v.quoted label
  | (k, v) :: rest => Text.quoted k ++ ": " ++ v.quoted label ++ ", " ++ quotedEntries label rest

end

/-- The value within a sentence: a text as it is, any other value quoted. -/
def shown (label : ν → String) : Value ν → String
  | .str s => s
  | v => v.quoted label

end Value

/-- A datum as messages quote it. -/
def Datum.quoted (d : Datum) : String := Value.quoted nofun d

/-- A datum within a sentence. -/
def Datum.shown (d : Datum) : String := Value.shown nofun d

end JsxEdit
