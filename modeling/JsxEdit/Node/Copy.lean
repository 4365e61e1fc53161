import JsxEdit.Fault
import JsxEdit.Node.Basic

/-
Copies. A copy was read from no source and has no mark. It keeps what is written, except that the closing
name follows the tag name, and a string literal loses its children.
-/
set_option autoImplicit false

namespace JsxEdit

/-- The kind of the copy of a node with or without children. -/
def Kind.copied (hasChildren : Bool) : Kind → Kind
  | .document _ => .document none
  | .invalid reason _ => .invalid reason none
  | .element name selfClosing spaceEnd _ => .element name (selfClosing && !hasChildren) spaceEnd none
  | k => k

namespace Node

mutual

/-- A copy of the node with copies of all that is below it. -/
def copy : Node → Node
  | .mk k _ as cs =>
    .mk (k.copied !cs.isEmpty) {} (copyAll as) (if k.isString then [] else copyAll cs)

/-- Copies of the nodes. -/
def copyAll : List Node → List Node
  | [] => []
  | n :: ns => n.copy :: copyAll ns

end

/-- A copy of the node without its children; attributes are copied. -/
def copyAlone (n : Node) : Node := .mk (n.kind.copied false) {} (copyAll n.attributes) []

/-- A copy of the node, with or without its children. Values that are no nodes cannot be copied; the children of a
string literal are not looked at. -/
def copyChecked (withChildren : Bool) (n : Node) : Except Fault Node :=
  let looked := if withChildren && !n.kind.isString then n.children else []
  if n.isForeign || anyForeign n.attributes || anyForeign looked then .error .noMember
  else .ok (if withChildren then n.copy else n.copyAlone)

end Node
end JsxEdit
