import JsxEdit.Fault
import JsxEdit.Node.Basic

/-
The text a node stands for in the source.

White space is never added or taken away: all of it is kept in the nodes.
-/
set_option autoImplicit false

namespace JsxEdit

namespace Kind

/-- What is written before the children; for an element, before its attributes. -/
def opening : Kind → String
  | .document _ | .attributes | .script | .foreign _ => ""
  | .code s => s.getD ""
  | .invalid s _ => s
  | .text s => s
  | .element name .. => "<" ++ name
  | .fragment => "<>"
  | .slot before _ => "\x7b" ++ before
  | .attr name space => space ++ name
  | .spread space => space ++ "\x7b"
  | .identifier s => s
  | .member s => s
  | .string raw quote => quote ++ raw ++ quote
  | .attributeString raw quote => quote ++ raw ++ quote
  | .template raw => "`" ++ raw ++ "`"
  | .number s => s
  | .boolean b => if b then "true" else "false"
  | .null => "null"
  | .object _ => "\x7b"
  | .property key space colon => space ++ key ++ colon

/-- What is written after the children. -/
def closing : Kind → String
  | .element _ true _ _ => ""
  | .element name false _ closingName =>
    let last := closingName.getD ""
    "</" ++ (if last.isEmpty then name else last) ++ ">"
  | .fragment => "</>"
  | .slot _ after => after ++ "\x7d"
  | .spread _ => "\x7d"
  | .object trailing => trailing ++ "\x7d"
  | _ => ""

/-- What stands between the attributes and the children of an element. -/
def tagEnd : Kind → String
  | .element _ selfClosing spaceEnd _ => spaceEnd ++ (if selfClosing then "/>" else ">")
  | _ => ""

end Kind

namespace Node

mutual

/-- The text of the node and all that is below it. Values that are no nodes write nothing. -/
def write : Node → String
  | .mk k _ as cs =>
    match k with
    | .element .. => k.opening ++ writeAll as ++ k.tagEnd ++ writeAll cs ++ k.closing
    | .object _ => k.opening ++ writeItems cs ++ k.closing
    | .attr .. => k.opening ++ (if cs.isEmpty then "" else "=") ++ writeAll cs ++ k.closing
    | _ => k.opening ++ writeAll cs ++ k.closing

/-- The texts of the nodes one after the other. -/
def writeAll : List Node → String
  | [] => ""
  | n :: ns => n.write ++ writeAll ns

/-- The texts of the nodes with commas between them. -/
def writeItems : List Node → String
  | [] => ""
  | [n] => n.write
  | n :: m :: ns => n.write ++ "," ++ writeItems (m :: ns)

end

/-- All that is written before the children. -/
def openingText (n : Node) : String :=
  match n.kind with
  | .element .. => n.kind.opening ++ writeAll n.attributes ++ n.kind.tagEnd
  | .attr .. => n.kind.opening ++ (if n.children.isEmpty then "" else "=")
  | k => k.opening

/-- The text of the node; there is none if a value that is no node occurs in it. -/
def writeChecked (n : Node) : Except Fault String :=
  if n.isForeign || n.hasForeign then .error .noMember else .ok n.write

end Node
end JsxEdit
