import JsxEdit.Edit.Outcome
import JsxEdit.Edit.Place
import JsxEdit.Edit.Insert
import JsxEdit.Text.Case

/-
Removing elements and children.
-/
set_option autoImplicit false

namespace JsxEdit.Edit

/-- Takes the visited node out of its list, with the white space before it. -/
def detachAt (tree : Node) (v : Visit) : Node := tree.modifyChildren (detach · v.index) v.parent

/-- Puts the children of the visited node in its place. -/
def unwrapAt (tree : Node) (v : Visit) : Node :=
  tree.modifyChildren
    (fun ns => Node.mergeWhitespace (ns.take v.index ++ v.node.children ++ ns.drop (v.index + 1))) v.parent

/-- Removes the element with the identity; its children take its place if they are to be kept. -/
def remove (tree : Node) (id : String) (keepChildren : Bool) : Reply :=
  match tree.findId id with
  | .error f => .fault tree f
  | .ok none => .notFound tree id [("removed", .null)]
  | .ok (some v) =>
    if !isMarkupPlace tree v.parent then
      .invalid tree ("Can't remove the element " ++ id ++ ": it is not inside markup") [("removed", .null)]
    else
      let (tree, removed) :=
        if keepChildren then (unwrapAt tree v, v.node.withChildren []) else (detachAt tree v, v.node)
      .succeeded tree ("Element \"" ++ id ++ "\" removed") [("removed", .node removed)]

/-- What the identities to remove lead to: the elements, and the errors with their identities. -/
structure Targets where
  visits : List Visit
  errors : List (String × String)
  kind : ErrorKind

/-- Looks up the identities; an element that is found twice counts once. -/
def targets (tree : Node) : List String → Except Fault Targets
  | [] => .ok ⟨[], [], .invalidOperation⟩
  | id :: ids => do
    let found ← tree.findId id
    let t ← targets tree ids
    match found with
    | none => return { t with errors := (id, Reply.notFoundMessage id) :: t.errors, kind := .notFound }
    | some v =>
      if !isMarkupPlace tree v.parent then
        return { t with errors := (id, "Element is not inside markup") :: t.errors }
      else
        return { t with visits := v :: t.visits.filter fun w => w.path != v.path }

/-- Takes out the nodes at the places one after the other. `moved` says where a place is by now; one inside a node
that was taken out before went with it, and is looked for through the whole tree. -/
def detachAll (tree : Node) (moved : Path → Option Path) : List Path → Node × Except Fault Unit
  | [] => (tree, .ok ())
  | p :: ps =>
    match moved p with
    | none => if tree.hasForeign then (tree, .error .noMember) else detachAll tree moved ps
    | some q =>
      match q.getLast? with
      | some (.child i) =>
        let parent := q.dropLast
        let siblings := ((tree.get? parent).map (·.children)).getD []
        let (first, count) := detachRange siblings i
        detachAll (tree.modifyChildren (detach · i) parent)
          (fun r => (moved r).bind (Path.afterRemoval parent first count)) ps
      | _ => detachAll tree moved ps

/-- Removes all elements with the identities, or none if one of them cannot be removed. -/
def removeAll (tree : Node) (ids : List String) : Reply :=
  match targets tree ids with
  | .error f => .fault tree f
  | .ok t =>
    if t.errors.isEmpty then
      let count := t.visits.length
      match detachAll tree some (t.visits.map (·.path)).reverse with
      | (tree, .error f) => .fault tree f
      | (tree, .ok ()) =>
        .succeeded tree ("Removed " ++ intText count ++ " elements")
          [("removed_count", .int count), ("errors", .list [])]
    else
      .failed tree t.kind ("Could not remove: " ++ Text.join ", " (t.errors.map (·.1)))
        [("removed_count", .int 0), ("errors", .list (t.errors.map fun (id, m) => .list [.str id, .str m]))]

/-- Tags that close themselves when they have no children. -/
def voidTags : List String := ["img", "br", "hr", "input", "meta", "link"]

/-- The element without children; one with a void tag closes itself. -/
def cleared (n : Node) : Node :=
  let bare := n.withChildren []
  match n.kind with
  | .element name .. => if voidTags.contains (Text.lower name) then bare.closed else bare
  | _ => bare

/-- Removes all children of the element with the identity. -/
def clearChildren (tree : Node) (id : String) : Reply :=
  match tree.findId id with
  | .error f => .fault tree f
  | .ok none => .notFound tree id []
  | .ok (some v) =>
    .succeeded (tree.modify cleared v.path) ("Children of element \"" ++ id ++ "\" cleared") []

end JsxEdit.Edit
