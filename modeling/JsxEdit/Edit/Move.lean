import JsxEdit.Edit.Insert
import JsxEdit.Edit.Outcome
import JsxEdit.Edit.Place

/-
Moving elements. White space is no place of its own: elements are moved between the places of the nodes that are
no white space, and the white space stays where it is.
-/
set_option autoImplicit false

namespace JsxEdit.Edit

/-- The reply for an element that has no siblings to be moved among. -/
def notMovable (tree : Node) (id : String) : Reply :=
  .invalid tree ("Can't move the element " ++ id ++ ": it is not inside markup") []

/-- Goes on with the element with the identity, if it is inside markup. -/
def withMovable (tree : Node) (id : String) (go : Visit → Reply) : Reply :=
  match tree.findId id with
  | .error f => .fault tree f
  | .ok none => .notFound tree id []
  | .ok (some v) => if isMarkupPlace tree v.parent then go v else notMovable tree id

/-- The list of nodes a visited node is in. -/
def siblings (tree : Node) (v : Visit) : List Node := ((tree.get? v.parent).map (·.children)).getD []

/-- The list with two items exchanged. -/
def exchange (ns : List Node) (i j : Nat) : List Node :=
  match ns[i]?, ns[j]? with
  | some a, some b => (ns.set i b).set j a
  | _, _ => ns

/-- Where an index is in the list of the indices that are no white space. -/
def rank (positions : List Nat) (index : Nat) : Nat := positions.findIdx (· == index)

/-- Exchanges the element with the sibling before it. -/
def moveUp (tree : Node) (id : String) : Reply :=
  withMovable tree id fun v =>
    let positions := significant (siblings tree v)
    match rank positions v.index with
    | 0 => .invalid tree "Element is already at the top" []
    | i + 1 =>
      .succeeded (tree.modifyChildren (exchange · (positions.getD i v.index) v.index) v.parent)
        ("Element \"" ++ id ++ "\" moved up") []

/-- Exchanges the element with the sibling after it. -/
def moveDown (tree : Node) (id : String) : Reply :=
  withMovable tree id fun v =>
    let positions := significant (siblings tree v)
    let i := rank positions v.index
    if i + 1 < positions.length then
      .succeeded (tree.modifyChildren (exchange · (positions.getD (i + 1) v.index) v.index) v.parent)
        ("Element \"" ++ id ++ "\" moved down") []
    else .invalid tree "Element is already at the bottom" []

/-- The nodes with those that are no white space replaced, in order, by the given ones. -/
def fillSignificant : List Node → List Node → List Node
  | [], _ => []
  | n :: ns, new =>
    if n.isWhitespace then n :: fillSignificant ns new
    else
      match new with
      | [] => n :: fillSignificant ns []
      | m :: new => m :: fillSignificant ns new

/-- The list with the item at one index moved to another. -/
def moveItem (ns : List Node) (i j : Nat) : List Node :=
  match ns[i]? with
  | none => ns
  | some n => (ns.eraseIdx i).insertIdx j n

/-- The index a value stands for; truth values count as 0 and 1. -/
def indexOf? : Value Node → Option Int
  | .int n => some n
  | .bool b => some (if b then 1 else 0)
  | _ => none

/-- Moves the element to an index among its siblings that are no white space. -/
def moveToIndex (tree : Node) (id : String) (index : Value Node) : Reply :=
  withMovable tree id fun v =>
    let ns := siblings tree v
    let positions := significant ns
    let bad := Reply.invalid tree ("Invalid index: " ++ index.shownText ++ ". Must be between 0 and " ++
      intText ((positions.length : Int) - 1)) []
    match indexOf? index with
    | none => bad
    | some j =>
      if 0 ≤ j && j < positions.length then
        let items := ns.filter fun n => !n.isWhitespace
        let items := moveItem items (rank positions v.index) j.toNat
        .succeeded (tree.modifyChildren (fillSignificant · items) v.parent)
          ("Element \"" ++ id ++ "\" moved to index " ++ index.shownText) []
      else bad

/-- The wording for a missing source or destination. -/
def missingMessage (role id : String) : String :=
  role ++ " element with data-editable=\"" ++ id ++ "\" not found"

/-- Whether the second visited node is below the first. Looking for it among the nodes below the first fails if one of
them is no node. -/
def isBelow (v w : Visit) : Except Fault Bool :=
  if v.path.isBefore w.path then .ok true
  else if v.node.hasForeign then .error .noMember
  else .ok false

/-- Moves the element at one place to the end of the children of the one at another. -/
def transfer (width : Int) (tree : Node) (v w : Visit) : Node × Except Fault Unit :=
  let (first, count) := detachRange (siblings tree v) v.index
  let tree := tree.modifyChildren (detach · v.index) v.parent
  match (Path.afterRemoval v.parent first count w.path).bind fun place => (tree.get? place).map (place, ·) with
  | none => (tree, .ok ())
  | some (place, parent) =>
    match Indent.reachChild tree (some place) parent with
    | .error f => (tree, .error f)
    | .ok () => (adopt tree place (appendChild width tree (some place) parent v.node).children, .ok ())

/-- Moves an element to the end of the children of another, which must not be inside it. -/
def moveInto (tree : Node) (source destination : String) (width : Int) : Reply :=
  match tree.findId source with
  | .error f => .fault tree f
  | .ok none => .failed tree .notFound (missingMessage "Source" source) []
  | .ok (some v) =>
    match tree.findId destination with
    | .error f => .fault tree f
    | .ok none => .failed tree .notFound (missingMessage "Destination" destination) []
    | .ok (some w) =>
      match if v.path == w.path then .ok true else isBelow v w with
      | .error f => .fault tree f
      | .ok true => .invalid tree "Cannot move element into its own descendant" []
      | .ok false =>
        if !isMarkupPlace tree v.parent then notMovable tree source
        else
          match transfer width tree v w with
          | (tree, .error f) => .fault tree f
          | (tree, .ok ()) =>
            .succeeded tree ("Element \"" ++ source ++ "\" moved into \"" ++ destination ++ "\"") []

/-- Exchanges the places of two elements, neither of which may be inside the other. -/
def swap (tree : Node) (id id' : String) : Reply :=
  match tree.findId id with
  | .error f => .fault tree f
  | .ok none => .notFound tree id []
  | .ok (some v) =>
    match tree.findId id' with
    | .error f => .fault tree f
    | .ok none => .notFound tree id' []
    | .ok (some w) =>
      if !isMarkupPlace tree v.parent then notMovable tree id
      else if !isMarkupPlace tree w.parent then notMovable tree id'
      else if v.path == w.path then .succeeded tree ("Element \"" ++ id ++ "\" swapped with itself") []
      else
        match do if ← isBelow v w then return true else isBelow w v with
        | .error f => .fault tree f
        | .ok true => .invalid tree "Cannot swap an element with its own descendant" []
        | .ok false =>
          .succeeded ((tree.set v.path w.node).set w.path v.node)
            ("Elements \"" ++ id ++ "\" and \"" ++ id' ++ "\" swapped") []

end JsxEdit.Edit
