import JsxEdit.Fault
import JsxEdit.Node.Path

/-
Visiting all nodes below a node in document order: the attributes of an element come before its children, and
a node comes before what is below it.

`visits` says what the order is, by recursion on the tree; `walk` goes through the same nodes with a stack of
the lists that are not yet finished, and can leave out what is below some nodes.
-/
set_option autoImplicit false

namespace JsxEdit

/-- A visited node with the path of the list it is in and its index there. -/
structure Visit where
  parent : Path
  index : Nat
  node : Node

/-- The path of the visited node. -/
def Visit.path (v : Visit) : Path := v.parent ++ [.child v.index]

namespace Node

mutual

/-- The nodes below the node at `path`, in document order. -/
def visitsAt (path : Path) : Node → List Visit
  | .mk _ _ as cs => visitsIn (path ++ [.attributes]) 0 as ++ visitsIn path 0 cs

/-- The nodes of a list from `index` on, each followed by those below it. -/
def visitsIn (path : Path) (index : Nat) : List Node → List Visit
  | [] => []
  | n :: ns => ⟨path, index, n⟩ :: n.visitsAt (path ++ [.child index]) ++ visitsIn path (index + 1) ns

end

/-- All nodes below the node, in document order. -/
def visits (n : Node) : List Visit := n.visitsAt []

/-- All nodes below the node, in document order, without their places. -/
def descendants (n : Node) : List Node := n.visits.map (·.node)

mutual

/-- How many nodes the tree has. -/
def size : Node → Nat
  | .mk _ _ as cs => sizeAll as + sizeAll cs + 1

/-- How many nodes the trees have. -/
def sizeAll : List Node → Nat
  | [] => 0
  | n :: ns => n.size + sizeAll ns

end

/-- The visits to the nodes of a list, without those below them. -/
def listVisits (path : Path) (ns : List Node) : List Visit := ns.mapIdx fun i n => ⟨path, i, n⟩

/-- The visits to the nodes directly below the node at `path`. -/
def levelVisits (path : Path) (n : Node) : List Visit :=
  listVisits (path ++ [.attributes]) n.attributes ++ listVisits path n.children

/-- Goes on with the topmost list of the stack; at most `fuel` nodes are left to visit. -/
def walkFrom (skip : Visit → Bool) : Nat → List (List Visit) → List Visit
  | 0, _ => []
  | _, [] => []
  | fuel + 1, [] :: stack => walkFrom skip fuel stack
  | fuel + 1, (v :: rest) :: stack =>
    if skip v then v :: walkFrom skip fuel (rest :: stack)
    else v :: walkFrom skip fuel (v.node.levelVisits v.path :: rest :: stack)

/-- All nodes below the node, in document order, without those below a visited node that is to be skipped. Each
node is visited once and its list is finished once, so twice as many steps as there are nodes are enough. -/
def walk (skip : Visit → Bool) (n : Node) : List Visit := walkFrom skip (2 * n.size) [n.levelVisits []]

/-- The first visit that has the property. The search fails if it meets a value that is no node, or one for which the
property fails. -/
def firstVisit (p : Visit → Except Fault Bool) : List Visit → Except Fault (Option Visit)
  | [] => .ok none
  | v :: vs => do
    if ← p v then return some v
    else if v.node.isForeign then throw .noMember
    else firstVisit p vs

/-- The first node below the tree that has the property. -/
def find (p : Node → Except Fault Bool) (tree : Node) : Except Fault (Option Visit) :=
  firstVisit (fun v => p v.node) tree.visits

/-- The first node below the tree that has a plain property. -/
def findPlain (p : Node → Bool) (tree : Node) : Except Fault (Option Visit) := tree.find fun n => .ok (p n)

/-- What a property finds in the nodes of a list, in order. The search fails at a value that is no node. -/
def collect {α : Type} (p : Visit → Except Fault (Option α)) : List Visit → Except Fault (List α)
  | [] => .ok []
  | v :: vs => do
    if v.node.isForeign then throw .noMember
    let here ← p v
    return here.toList ++ (← collect p vs)

/-- All nodes below the tree that have the property. -/
def findAll (p : Node → Bool) (tree : Node) : Except Fault (List Visit) :=
  if tree.hasForeign then .error .noMember else .ok (tree.visits.filter fun v => p v.node)

/-- The nodes below the tree, if none of them is a foreign value. -/
def descendantsChecked (tree : Node) : Except Fault (List Node) :=
  if tree.hasForeign then .error .noMember else .ok tree.descendants

/-- The path of the node with the mark, the tree itself included. -/
def markPath? (mark : Nat) (tree : Node) : Option Path :=
  if tree.info.mark == some mark then some []
  else (tree.visits.find? fun v => v.node.info.mark == some mark).map (·.path)

end Node
end JsxEdit
