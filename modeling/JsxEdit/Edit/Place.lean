import JsxEdit.Find
import JsxEdit.Indent
import JsxEdit.Node.Copy

/-
Putting nodes into lists of children and taking them out, with the white space that belongs to them.
-/
set_option autoImplicit false

namespace JsxEdit

/-- New children of a list, and the new node as it stands among them. White space that is put next to white space
takes it in or is taken in. -/
structure Placed where
  children : List Node
  node : Node

namespace Edit

/-- The node between two lists, with white space merged. -/
def placed (left : List Node) (n : Node) (right : List Node) : Placed :=
  ⟨Node.mergeWhitespace (left ++ n :: right), (Node.mergeWhitespace (n :: right)).headD n⟩

/-- Whether the node before the index is white space. -/
def whitespaceBefore (ns : List Node) (index : Nat) : Bool :=
  0 < index && (ns[index - 1]?).any (·.isWhitespace)

/-- The indices of the nodes that are no white space. -/
def significant (ns : List Node) : List Nat :=
  (List.range ns.length).filter fun i => (ns[i]?).any fun n => !n.isWhitespace

/-- Where the white space before the index starts, or the index, and how many nodes go from there. -/
def detachRange (ns : List Node) (index : Nat) : Nat × Nat :=
  if whitespaceBefore ns index then (index - 1, 2) else (index, 1)

/-- The list without the node at the index and the white space before it. -/
def detach (ns : List Node) (index : Nat) : List Node :=
  let (first, count) := detachRange ns index
  ns.take first ++ ns.drop (first + count)

/-- Whether the node before the index is white space. There has to be a node, unless the index is not positive. -/
def whitespaceBeforeChecked (ns : List Node) (index : Int) : Except Fault Bool :=
  if index ≤ 0 then .ok false
  else
    match ns[index.toNat - 1]? with
    | none => .error .noItem
    | some n => .ok n.isWhitespace

/-- The list without the node at the index and the white space before it, and the index where they were. -/
def detachChecked (ns : List Node) (index : Int) : Except Fault (List Node × Int) := do
  if ← whitespaceBeforeChecked ns index then return (detach ns index.toNat, index - 1)
  else
    match indexIn ns.length index with
    | some i => return (ns.eraseIdx i, index)
    | none => throw .noItem

/-- The node as last child, after white space, and with white space before the closing tag. -/
def appended (children : List Node) (space closing : String) (n : Node) : Placed :=
  match children.getLast? with
  | some last =>
    if last.isLineBreak then placed (children.dropLast ++ [.text space]) n [last]
    else placed (children ++ [.text space]) n [.text closing]
  | none => placed [.text space] n [.text closing]

/-- The node as last child of the parent, which is at the place if it is in the tree. -/
def appendChild (width : Int) (tree : Node) (place : Option Path) (parent n : Node) : Placed :=
  appended parent.children (Indent.childSpace width tree place parent) (Indent.closingSpace tree place) n

/-- The node as first child of the parent, with white space before it. -/
def prependChild (width : Int) (tree : Node) (place : Option Path) (parent n : Node) : Placed :=
  if parent.children.isEmpty then appendChild width tree place parent n
  else placed [.text (Indent.childSpace width tree place parent)] n parent.children

/-- The tree with new children for the node at the place, which is opened if it closes itself. -/
def adopt (tree : Node) (place : Path) (children : List Node) : Node :=
  tree.modify (fun n => n.opened.withChildren children) place

/-- Whether a path leads to one of the places or below it. -/
def isWithin (places : List Path) (p : Path) : Bool := places.any (·.isPrefixOf p)

/-- The identities of the elements below the tree, except at or below the places. -/
def identitiesOutside (tree : Node) (places : List Path) : Except Fault (List String) :=
  Node.collect (fun v => do
    let id ← v.node.elementIdentity
    return if isWithin places v.path then none else id) tree.visits

/-- The identities of the node and of the elements below it. -/
def identitiesOf (n : Node) : Except Fault (List String) := do
  if n.isForeign then throw .noMember
  let own ← n.elementIdentity
  return own.toList ++ (← Node.collect (fun v => v.node.elementIdentity) n.visits)

/-- The identities of the nodes and of the elements below them. -/
def identitiesOfAll : List Node → Except Fault (List String)
  | [] => .ok []
  | n :: ns => do
    let first ← identitiesOf n
    return first ++ (← identitiesOfAll ns)

/-- The items that were seen before or occur for the second time. -/
def clashes (seen : List String) : List String → List String
  | [] => []
  | id :: ids => if seen.contains id then id :: clashes seen ids else clashes (id :: seen) ids

/-- Whether a value that is no node is at one of the places or below it. -/
def foreignAt (tree : Node) (places : List Path) : Bool :=
  places.any fun p => (tree.get? p).any fun n => n.isForeign || n.hasForeign

/-- The identities of new nodes that would not be unique in the tree, in order. Those at or below the `replaced`
places do not count, since these nodes leave the tree. -/
def identityConflicts (tree : Node) (nodes : List Node) (replaced : List Path) : Except Fault (List String) := do
  if foreignAt tree replaced then throw .noMember
  let seen ← identitiesOutside tree replaced
  let found := clashes seen (← identitiesOfAll nodes)
  return found.eraseDups.mergeSort fun a b => !(b < a)

/-- Whether the node with the mark of `n` is in the tree. -/
def isPresent (tree n : Node) : Bool := (n.info.mark.bind tree.markPath?).isSome

/-- A node that can be put into the tree: one that is already there is copied. -/
def fresh (tree n : Node) : Node := if isPresent tree n then n.copy else n

/-- The node with the mark, unless it has one. -/
def marked (mark : Option Nat) (n : Node) : Node := if n.info.mark.isSome then n else n.withMark mark

end Edit
end JsxEdit
