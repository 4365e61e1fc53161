import JsxEdit.Node.Path
import JsxEdit.Node.Write
import JsxEdit.Text.Space
import JsxEdit.Whitespace

/-
The white space around new nodes, taken from the lines of the document as it would be written.

A new sibling goes on a line of its own with the indentation of the node it stands beside, if that node starts
its line. A new child takes the indentation of the children that are there, or else that of its parent and some
more.
-/
set_option autoImplicit false

namespace JsxEdit

namespace Text

/-- What follows the last line feed. -/
def lastLine (s : String) : String := .ofList (s.toList.reverse.takeWhile (· != '\n')).reverse

end Text

namespace Node

/-- The text that is written before the node at the end of the path. There is none for a path through an attribute
list, or into an object literal. -/
def precedingText : Path → Node → Option String
  | [], _ => some ""
  | .attributes :: _, _ => none
  | .child i :: p, n =>
    match n.kind, n.children[i]? with
    | .object _, _ => none
    | _, none => none
    | _, some c =>
      (precedingText p c).map fun s => n.openingText ++ writeAll (n.children.take i) ++ s

end Node

namespace Node

/-- Whether a value that is no node is written before the node at the end of the path. -/
def foreignBefore : Path → Node → Bool
  | .child i :: p, n =>
    anyForeign n.attributes || anyForeign (n.children.take i) || (n.children[i]?).any (foreignBefore p)
  | _, _ => false

end Node

namespace Indent

/-- The default number of blanks for a level. -/
def defaultWidth : Int := 2

/-- Fails if there is a value that is no node on the way to the place. The way to a place that is not found leads
through the whole tree. -/
def reach (tree : Node) (place : Option Path) : Except Fault Unit :=
  let blocked := match place with
    | some p => if (tree.precedingText p).isSome then tree.foreignBefore p else tree.hasForeign
    | none => tree.hasForeign
  if blocked then .error .noMember else .ok ()

/-- The leading white space of the line the place is on; none for a node outside the tree. -/
def indentation (tree : Node) (place : Option Path) : String :=
  match place.bind (tree.precedingText ·) with
  | none => ""
  | some s => Text.lead (Text.lastLine s)

/-- Whether the place is in the tree with nothing but white space before it on its line. -/
def startsLine (tree : Node) (place : Option Path) : Bool :=
  match place.bind (tree.precedingText ·) with
  | none => false
  | some s => Text.isBlank (Text.lastLine s)

/-- The white space between a node and a new sibling. -/
def siblingSpace (tree : Node) (place : Option Path) : String :=
  if startsLine tree place then "\n" ++ indentation tree place else ""

/-- The index of the first child that is no white space, if it is on a line of its own. -/
def brokenChild? (cs : List Node) : Option Nat := do
  let i ← cs.findIdx? fun c => !c.isWhitespace
  let before ← if i == 0 then none else cs[i - 1]?
  if before.isLineBreak then return i else none

/-- The white space before a new child of the node. -/
def childSpace (width : Int) (tree : Node) (place : Option Path) (parent : Node) : String :=
  match brokenChild? parent.children with
  | some i => "\n" ++ indentation tree (place.map (· ++ [.child i]))
  | none => "\n" ++ indentation tree place ++ Text.repeated " " width.toNat

/-- Fails if there is a value that is no node on the way to where the white space before a new child is taken from. -/
def reachChild (tree : Node) (place : Option Path) (parent : Node) : Except Fault Unit :=
  match brokenChild? parent.children with
  | some i => reach tree (place.map (· ++ [.child i]))
  | none => reach tree place

/-- The white space before the closing tag of the node. -/
def closingSpace (tree : Node) (place : Option Path) : String := "\n" ++ indentation tree place

/-- White space with line feeds gets the indentation after each of them. -/
def reindentKind (indentation : String) : Kind → Kind
  | .text s =>
    if Text.isBlank s && s.toList.contains '\n' then .text (Text.replace s "\n" ("\n" ++ indentation))
    else .text s
  | k => k

mutual

/-- The node with all white space below it indented further. -/
def reindent (indentation : String) : Node → Node
  | .mk k i as cs => .mk k i (reindentAll indentation as) (reindentAll indentation cs)

/-- The nodes, and all that is below them, with white space indented further. -/
def reindentAll (indentation : String) : List Node → List Node
  | [] => []
  | n :: ns =>
    (reindent indentation n).withKind (reindentKind indentation n.kind) :: reindentAll indentation ns

end

end Indent
end JsxEdit
