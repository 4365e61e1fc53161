import JsxEdit.Node.Basic

/-
Places in a tree: a path leads from the root to a node, from child to child, or through the attribute list of
an element.
-/
set_option autoImplicit false

namespace JsxEdit

/-- One step down: to a child, or to the attribute list of an element. -/
inductive Step where
  | child (index : Nat)
  | attributes
  deriving DecidableEq, Repr

/-- The steps from a root to a node below it. -/
abbrev Path := List Step

/-- The index in a list of this length; a negative one counts from the end. -/
def indexIn (length : Nat) (i : Int) : Option Nat :=
  let j := if i < 0 then i + length else i
  if 0 ≤ j && j < length then some j.toNat else none

namespace Node

/-- The node at the end of the path. -/
def get? : Path → Node → Option Node
  | [], n => some n
  | .child i :: p, n => (n.children[i]?).bind (get? p)
  | .attributes :: p, n => if n.kind.isElement then get? p n.attributeList else none

/-- The tree with the node at the end of the path changed; without such a node it stays as it is. Of a changed
attribute list only the attributes count. -/
def modify (f : Node → Node) : Path → Node → Node
  | [], n => f n
  | .child i :: p, n => n.withChildren (n.children.modify i (modify f p))
  | .attributes :: p, n =>
    if n.kind.isElement then n.withAttributes (modify f p n.attributeList).children else n

/-- The tree with another node at the end of the path. -/
def set (n : Node) (p : Path) (new : Node) : Node := n.modify (fun _ => new) p

/-- The tree with the children of the node at the end of the path changed. -/
def modifyChildren (f : List Node → List Node) (p : Path) (n : Node) : Node :=
  n.modify (fun m => m.withChildren (f m.children)) p

@[simp] theorem get?_nil (n : Node) : n.get? [] = some n := rfl
@[simp] theorem modify_nil (f : Node → Node) (n : Node) : n.modify f [] = f n := rfl

theorem get?_child (i : Nat) (p : Path) (n : Node) :
    n.get? (.child i :: p) = (n.children[i]?).bind (get? p) := rfl

theorem modify_child (f : Node → Node) (i : Nat) (p : Path) (n : Node) :
    n.modify f (.child i :: p) = n.withChildren (n.children.modify i (modify f p)) := rfl

end Node

namespace Path

/-- Whether the second path leads further down from the end of the first. -/
def isBefore (p q : Path) : Bool := p.isPrefixOf q && p != q

/-- Where a path leads after `count` children from index `first` on were taken out of the list at `parent`;
nothing if it led into them. -/
def afterRemoval (parent : Path) (first count : Nat) (q : Path) : Option Path :=
  if parent.isPrefixOf q then
    match q.drop parent.length with
    | .child i :: rest =>
      if i < first then some q
      else if i < first + count then none
      else some (parent ++ .child (i - count) :: rest)
    | _ => some q
  else some q

end Path
end JsxEdit
