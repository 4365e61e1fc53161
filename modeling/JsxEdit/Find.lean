import JsxEdit.Log
import JsxEdit.Node.Literal
import JsxEdit.Node.Span
import JsxEdit.Node.Walk
import JsxEdit.Text.Line

/-
Finding elements by their identity, and where they stand in the source.

If several elements have the same identity, the first in document order counts.
-/
set_option autoImplicit false

namespace JsxEdit

/-- A range of the source in lines and columns. -/
structure Location where
  start : Text.LineColumn
  stop : Text.LineColumn
  deriving DecidableEq, Repr

/-- An element that has an identity. -/
structure Editable where
  id : String
  node : Node
  tag : Datum
  location : Option Location

namespace Node

/-- The first element with this identity; without an identity, the first element that has none. -/
def findIdentity (id : Option String) (tree : Node) : Except Fault (Option Visit) :=
  tree.find fun n => do if n.kind.isElement then return (← n.identity) == id else return false

/-- The first element with this identity. -/
def findId (id : String) (tree : Node) : Except Fault (Option Visit) := tree.findIdentity (some id)

/-- The first element with this tag name. -/
def findTag (name : String) (tree : Node) : Except Fault (Option Visit) :=
  tree.findPlain fun n =>
    match n.kind with
    | .element s .. => s == name
    | _ => false

/-- The source text of a document. -/
def source (tree : Node) : Except Fault (Option String) :=
  match tree.kind with
  | .document s => .ok s
  | _ => .error .noMember

/-- Where a node stands in the source of the tree; nothing without a source or for a node that was not read
from it. -/
def locationIn (tree n : Node) : Except Fault (Option Location) := do
  let text ← tree.source
  let first ← n.start
  let last ← n.stop
  return do
    let text ← text
    return ⟨Text.lineColumn text (← first), Text.lineColumn text (← last)⟩

/-- The elements below the tree that have an identity, with it. -/
def editables (tree : Node) : Except Fault (List (String × Node)) :=
  collect (fun v => do return (← v.node.elementIdentity).map fun id => (id, v.node)) tree.visits

/-- An element with identity, with its location. -/
def editable (tree : Node) (id : String) (n : Node) : Except Fault Editable := do
  return ⟨id, n, n.kind.head, ← tree.locationIn n⟩

/-- The items that occur again, in the order in which they do for the first time. -/
def repeatedFrom (seen reported : List String) : List String → List String
  | [] => []
  | id :: ids =>
    if seen.contains id && !reported.contains id then id :: repeatedFrom seen (id :: reported) ids
    else repeatedFrom (id :: seen) reported ids

/-- The items that occur more than once, in the order of their second occurrences. -/
def repeated (ids : List String) : List String := repeatedFrom [] [] ids

/-- The identities that occur more than once. -/
def duplicateIds (tree : Node) : Except Fault (List String) := do
  return repeated ((← tree.editables).map (·.1))

/-- All elements with an identity; identities that occur more than once are reported. -/
def findEditables (tree : Node) : Except Fault (List Editable × List Record) := do
  let found ← collect (fun v => do (← v.node.elementIdentity).mapM fun id => tree.editable id v.node) tree.visits
  let duplicates := repeated (found.map (·.id))
  let log := if duplicates.isEmpty then []
    else [⟨.warning, .find, "duplicate " ++ identityName ++ " values: " ++ Text.join ", " duplicates⟩]
  return (found, log)

/-- The locations by identity, in document order; the first element with an identity that has a location
counts. -/
def sourceMap (tree : Node) : Except Fault (Dict Location × List Record) := do
  let (found, log) ← tree.findEditables
  let located := found.filterMap fun e => e.location.map fun l => (e.id, l)
  return (located.foldl (fun d (id, l) => if d.has id then d else d.put id l) [], log)

/-- Whether the node was read from a range of the source that has the position. -/
def covers (n : Node) (pos : Int) : Except Fault Bool := do
  let first ← n.start
  let last ← n.stop
  match first, last with
  | some a, some b => return a ≤ pos && pos < b
  | _, _ => return false

/-- The innermost element with an identity around the position: in document order, the last that covers it. -/
def lastCovering (pos : Int) (tree : Node) : Except Fault (Option (String × Node)) := do
  let found ← collect (fun v => do
    match ← v.node.elementIdentity with
    | none => return none
    | some id => return if ← v.node.covers pos then some (id, v.node) else none) tree.visits
  return found.getLast?

/-- The innermost element with an identity around the line and column. -/
def elementAt (line column : Int) (tree : Node) : Except Fault (Option Editable) := do
  match ← tree.source with
  | none => return none
  | some text =>
    match Text.position text line column with
    | none => return none
    | some pos =>
      match ← tree.lastCovering pos with
      | none => return none
      | some (id, n) => return some (← tree.editable id n)

end Node
end JsxEdit
