import JsxEdit.Node.Walk
import JsxEdit.Text.Name
import JsxEdit.Text.Pattern
import JsxEdit.Text.Space

/-
The markup that a component returns.

A component is declared as a function, as a class, or as a variable whose value is a function, perhaps wrapped in
a call. Its markup is the first markup after the declaration that is returned.
-/
set_option autoImplicit false

namespace JsxEdit.Component

open Text (Pattern)
open Text.Pattern (all any many optional word edge)

/-- White space, or none. -/
def space : Pattern := many Text.isSpace

/-- White space. -/
def gap : Pattern := Pattern.some Text.isSpace

/-- A type after a colon, up to the equals sign. -/
def typed : Pattern := optional (all [word ":", many (· != '=')])

/-- Parameters in parentheses and an arrow, perhaps with a type between them. -/
def arrow : Pattern :=
  all [word "(", many fun c => c != '(' && c != ')', word ")", space, typed, word "=>"]

/-- One parameter and an arrow. -/
def shortArrow : Pattern := all [Pattern.one Text.isNameStart, many Text.isNamePart, space, word "=>"]

/-- A call around the function. -/
def wrapper : Pattern :=
  optional (all [Pattern.some fun c => Text.isNamePart c || c == '.', space, word "(", space])

/-- The declaration of the component with this name. -/
def declaration (name : String) : Pattern :=
  any
    [all [edge, word "function", space, optional (word "*"), space, word name, space, word "("],
     all [edge, word "class", gap, word name, edge],
     all [edge, any [word "const", word "let", word "var"], gap, word name, space, typed, word "=", space,
       wrapper, optional (all [word "async", gap]),
       any [all [word "function", edge], arrow, shortArrow]]]

/-- The end of code that returns what follows it. -/
def returning : Pattern :=
  all [any [all [edge, word "return"], word "=>"], space, optional (word "("), space, Pattern.finish]

/-- The text of the head of a node, as far as patterns can look at it. -/
def headText (n : Node) : Except Fault String :=
  if n.isForeign then .error .noMember
  else
    match n.kind.head with
    | .str s => .ok s
    | _ => .error .wrongType

/-- The index of the first piece of code with the declaration. -/
def declared (name : String) (index : Nat) : List Node → Except Fault (Option Nat)
  | [] => .ok none
  | n :: ns =>
    match n.kind with
    | .code _ => do
      if (declaration name).occurs (← headText n) then return some index else declared name (index + 1) ns
    | _ => declared name (index + 1) ns

/-- The first markup from `index` on that is returned; `before` is the node in front of it. Without a component
name, markup at the start of the document counts too. -/
def returned (anywhere : Bool) (index : Nat) (before : Option Node) : List Node → Except Fault (Option Visit)
  | [] => .ok none
  | n :: ns =>
    if n.kind.isMarkup then do
      let text ← before.elim (.ok "") headText
      if returning.occurs text || (anywhere && index < 2 && Text.isBlank text) then return some ⟨[], index, n⟩
      else returned anywhere (index + 1) (some n) ns
    else returned anywhere (index + 1) (some n) ns

/-- The markup that the component with this name returns, or any component if there is no name. -/
def root (name : Option String) (tree : Node) : Except Fault (Option Visit) :=
  match name with
  | none => returned true 0 none tree.children
  | some name => do
    match ← declared name 0 tree.children with
    | none => return none
    | some index =>
      let before := if index == 0 then none else tree.children[index - 1]?
      returned false index before (tree.children.drop index)

end JsxEdit.Component
