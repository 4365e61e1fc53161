import JsxEdit.Node.Walk
import JsxEdit.Source.Read

/-
Sessions: a document under work, and nodes that are kept by name.

Every node of a session has a mark, by which it is known wherever edits move it. The same mark at several places is the
same node, so that a change at one of them is a change at all.
-/
set_option autoImplicit false

namespace JsxEdit

/-- All that a node of this kind keeps besides other nodes, as texts; values that are no nodes cannot change. -/
def Kind.traits : Kind → List (Option String)
  | .document source => [source]
  | .code s => [s]
  | .invalid reason position => [some reason, position.map intText]
  | .text s => [some s]
  | .element name selfClosing spaceEnd closingName =>
    [some name, if selfClosing then some "" else none, some spaceEnd, closingName]
  | .slot before after => [some before, some after]
  | .attr name space => [some name, some space]
  | .spread space => [some space]
  | .identifier s => [some s]
  | .member s => [some s]
  | .string raw quote => [some raw, some quote]
  | .attributeString raw quote => [some raw, some quote]
  | .template raw => [some raw]
  | .number s => [some s]
  | .boolean b => [if b then some "" else none]
  | .object trailing => [some trailing]
  | .property key space colon => [some key, some space, some colon]
  | .fragment | .attributes | .script | .null | .foreign _ => []

/-- One step down a path as users write it: a negative index counts from the end. -/
inductive StepText where
  | index (i : Int)
  | attributes
  deriving DecidableEq, Repr

namespace Node

/-- The path that the steps lead along. -/
def resolvePath (n : Node) : List StepText → Except Fault Path
  | [] => .ok []
  | .index i :: steps =>
    match indexIn n.children.length i with
    | none => .error .noItem
    | some k =>
      match n.children[k]? with
      | none => .error .noItem
      | some c => do return .child k :: (← c.resolvePath steps)
  | .attributes :: steps =>
    if n.kind.isElement then do return .attributes :: (← n.attributeList.resolvePath steps)
    else .error .noMember

mutual

/-- The node with a mark for each node in it that has none, counted from `next`, and the next mark after those. -/
def markAll (next : Nat) : Node → Node × Nat
  | .mk k i as cs =>
    let (as, next) := markList next as
    let (cs, next) := markList next cs
    match i.mark with
    | some _ => (.mk k i as cs, next)
    | none => (.mk k { i with mark := some next } as cs, next + 1)

/-- The nodes with marks for all nodes in them, and the next mark after those. -/
def markList (next : Nat) : List Node → List Node × Nat
  | [] => ([], next)
  | n :: ns =>
    let (n, next) := n.markAll next
    let (ns, next) := markList next ns
    (n :: ns, next)

end

/-- Whether two nodes have the same mark. -/
def sameMark (n m : Node) : Bool := n.info.mark.isSome && n.info.mark == m.info.mark

/-- The marks of the nodes. -/
def marks (ns : List Node) : List (Option Nat) := ns.map (·.info.mark)

/-- Whether two nodes keep the same and have the same nodes below them, by their marks. -/
def sameState (n m : Node) : Bool :=
  n.kind.traits == m.kind.traits && marks n.attributes == marks m.attributes && marks n.children == marks m.children

end Node

/-- Nodes by their marks. -/
abbrev States := Array (Option Node)

namespace States

/-- The node with the mark of `n`. -/
def get? (states : States) (n : Node) : Option Node := n.info.mark.bind fun m => (states[m]?).join

/-- The nodes of a list and all that is below them, by their marks. -/
def ofNodes (size : Nat) (ns : List Node) : States :=
  (ns.flatMap fun n => n :: n.descendants).foldl
    (fun states n => n.info.mark.elim states fun m => states.setIfInBounds m (some n)) (Array.replicate size none)

/-- The nodes of a list, and below them, that are not as they were. -/
def changes (old : States) (ns : List Node) : States :=
  (ns.flatMap fun n => n :: n.descendants).foldl
    (fun states n =>
      match n.info.mark, old.get? n with
      | some m, some before => if n.sameState before then states else states.setIfInBounds m (some n)
      | _, _ => states)
    (Array.replicate old.size none)

/-- The node as it is after the changes, down to the given depth. -/
def refresh (states : States) : Nat → Node → Node
  | 0, n => n
  | depth + 1, n =>
    let .mk k i as cs := (states.get? n).getD n
    .mk k i (as.map (refresh states depth)) (cs.map (refresh states depth))

end States

/-- A node with its place in the document; a node outside has none. For an attribute list, `owner` is the element that
has it. -/
structure Ref where
  node : Node
  place : Option Path
  owner : Option Node := none

/-- A document, the nodes or attribute lists that are kept by name, and the next mark to give. -/
structure Session where
  tree : Node
  kept : Dict (Node × Bool)
  nextMark : Nat

namespace Session

/-- A new session. -/
def start (tree : Node) : Session :=
  let (tree, next) := tree.markAll 0
  ⟨tree, [], next⟩

/-- A node outside the document. -/
def outside (n : Node) : Ref := { node := n, place := none }

/-- The attribute list of an element at the place. -/
def listOf (owner : Node) (place : Option Path) : Ref :=
  { node := owner.attributeList, place := place.map (· ++ [.attributes]), owner := some owner }

/-- The node at the place that the steps lead to. -/
def at? (s : Session) (steps : List StepText) : Except Fault Ref := do
  let p ← s.tree.resolvePath steps
  match s.tree.get? p, p.getLast? with
  | none, _ => throw .noItem
  | some n, some .attributes => return { node := n, place := some p, owner := s.tree.get? p.dropLast }
  | some n, _ => return { node := n, place := some p }

/-- The node where it is now: in the document if its mark is found there. -/
def find (s : Session) (n : Node) : Ref :=
  match n.info.mark.bind s.tree.markPath? with
  | some p => { node := (s.tree.get? p).getD n, place := some p }
  | none => outside n

/-- The node kept under the name. -/
def kept? (s : Session) (name : String) : Except Fault Ref :=
  match s.kept.get? name with
  | none => .error .noEntry
  | some (n, isList) =>
    let r := s.find n
    .ok (if isList then listOf r.node r.place else r)

/-- The session after the document has become `tree`, and nodes outside it have become the `others`. -/
def commit (s : Session) (tree : Node) (others : List Node) : Session :=
  let (tree, next) := tree.markAll s.nextMark
  let (others, next) := Node.markList next others
  let old := States.ofNodes s.nextMark (s.tree :: s.kept.map (·.2.1))
  let changes := old.changes (tree :: others)
  { tree := changes.refresh (next + 1) tree
    kept := s.kept.map fun (name, n, isList) => (name, changes.refresh (next + 1) n, isList)
    nextMark := next }

/-- The session after an edit has made `tree` of the document, with nodes that the edit gives back. -/
def afterEdit (s : Session) (tree : Node) (given : List Node) : Session :=
  s.commit tree (given.filter fun n => n.info.mark.isSome && ((n.info.mark.bind tree.markPath?).isNone))

/-- Keeps the node under the name. -/
def keep (s : Session) (name : String) (r : Ref) : Session :=
  match r.owner with
  | some owner => { s with kept := s.kept.put name (owner, true) }
  | none =>
    let (n, next) := r.node.markAll s.nextMark
    { s with kept := s.kept.put name (n, false), nextMark := next }

/-- The session with another state of the node referred to. -/
def replace (s : Session) (r : Ref) (n : Node) : Session :=
  match r.owner with
  | some owner => s.commit s.tree [owner.withAttributes n.children]
  | none => if r.node.info.mark.isSome then s.commit s.tree [n] else s

/-- Whether the second node is below the first. -/
def isBelow (r q : Ref) : Except Fault Bool := do
  if r.node.isForeign then throw .noMember
  return (← Node.firstVisit (fun v => .ok (v.node.sameMark q.node)) r.node.visits).isSome

/-- Where the node is found first below the document. -/
def locate (s : Session) (r : Ref) : Except Fault (Option Visit) :=
  Node.firstVisit (fun v => .ok (v.node.sameMark r.node)) s.tree.visits

end Session
end JsxEdit
