import JsxEdit.Fault
import JsxEdit.Node.Label
import JsxEdit.Node.Write
import JsxEdit.Text.Name

/-
Writing a tree while checking that it is well formed.

Each node is checked before it is written, so that the first node in document order that is not well formed is
the one reported.
-/
set_option autoImplicit false

namespace JsxEdit

/-- Whether the text can be a tag name. -/
def isTagName (s : String) : Bool := Text.isName .tag s

/-- Whether the text can be the name of an attribute. -/
def isAttrName (s : String) : Bool := Text.isName .attr s

namespace Node

/-- What is wrong with the node itself: a value below it that is no node, or else what its kind forbids. -/
def flaw? (n : Node) : Option String :=
  match (n.attributes ++ n.children).find? (·.isForeign) with
  | some v => some ("Not a node: " ++ v.label)
  | none =>
    match n.kind with
    | .invalid reason _ => some ("Invalid markup: " ++ reason)
    | .element name selfClosing _ closingName =>
      if !isTagName name then some ("Invalid tag name: " ++ Text.quoted name)
      else if closingName.any (· != name) then
        some ("Closing tag </" ++ closingName.getD "" ++ "> does not match <" ++ name ++ ">")
      else if selfClosing && !n.children.isEmpty then
        some ("Self-closing element <" ++ name ++ "> has children")
      else none
    | .attr name _ =>
      if !isAttrName name then some ("Invalid attribute name: " ++ Text.quoted name)
      else if n.children.length > 1 then some ("Attribute " ++ name ++ " has more than one value")
      else none
    | .slot .. => if n.children.length > 1 then some "Expression slot has more than one expression" else none
    | _ => none

/-- The flaw of the node as an error. -/
def flawError? (n : Node) : Option GenerationError :=
  n.flaw?.map fun message => ⟨message, n⟩

mutual

/-- The text of a tree. With `validate`, every node is checked before it is written, and the first flaw is
reported. -/
def generate (validate : Bool) : Node → Except Fault String
  | .mk k i as cs =>
    match if validate then flawError? (.mk k i as cs) else none with
    | some e => .error (.generation e)
    | none =>
      match k with
      | .foreign _ => .error .noMember
      | .element .. => do
        let attributes ← generateAll validate as
        let children ← generateAll validate cs
        return k.opening ++ attributes ++ k.tagEnd ++ children ++ k.closing
      | .object _ => do return k.opening ++ (← generateItems validate cs) ++ k.closing
      | .attr .. => do
        return k.opening ++ (if cs.isEmpty then "" else "=") ++ (← generateAll validate cs) ++ k.closing
      | _ => do return k.opening ++ (← generateAll validate cs) ++ k.closing

/-- The texts of the nodes one after the other. -/
def generateAll (validate : Bool) : List Node → Except Fault String
  | [] => .ok ""
  | n :: ns => do
    let first ← n.generate validate
    return first ++ (← generateAll validate ns)

/-- The texts of the nodes with commas between them. -/
def generateItems (validate : Bool) : List Node → Except Fault String
  | [] => .ok ""
  | [n] => n.generate validate
  | n :: m :: ns => do
    let first ← n.generate validate
    return first ++ "," ++ (← generateItems validate (m :: ns))

end

end Node
end JsxEdit
