import JsxEdit.Component
import JsxEdit.Edit.Outcome
import JsxEdit.Edit.Place
import JsxEdit.Template

/-
Inserting new elements beside or inside an element, or into the markup of a component.
-/
set_option autoImplicit false

namespace JsxEdit.Edit

/-- Where a new element goes, seen from the target. -/
inductive Position where
  | after
  | before
  | firstChild
  | lastChild
  deriving DecidableEq, Repr

namespace Position

/-- The position with this name. -/
def ofName? : String → Option Position
  | "after" => some .after
  | "before" => some .before
  | "first_child" | "asFirstChild" => some .firstChild
  | "last_child" | "asLastChild" => some .lastChild
  | _ => none

/-- Whether the new element becomes a sibling of the target. -/
def isSibling : Position → Bool
  | .after | .before => true
  | _ => false

/-- The position in words. -/
def description : Position → String
  | .after => "after"
  | .before => "before"
  | .firstChild => "as first child of"
  | .lastChild => "as last child of"

end Position

/-- What to insert: the element specification, the options for its template, the templates that are known, the
width of a level, and the mark the new node is to have. -/
structure Request where
  spec : Value Node
  options : Options
  registry : Registry
  width : Int
  mark : Option Nat

/-- The new node, or the reply if there is none. A node that is in the tree already is copied. -/
def newNode (tree : Node) (r : Request) : Except Reply (Node × List Record) :=
  match Template.resolve r.registry r.spec r.options with
  | .error (.template message) => .error (.failed tree .template message [])
  | .error f => .error (.fault tree f)
  | .ok (node, log) =>
    match identityConflicts tree [node] [] with
    | .error f => .error (.after log (.fault tree f))
    | .ok [] => .ok (marked r.mark (fresh tree node), log)
    | .ok ids => .error (.after log (.duplicate tree ids))

/-- The head of a node in a message. -/
def headWord (n : Node) : String := if n.kind.head.isTruthy then n.kind.head.shown else ""

/-- The node as a child of the one at the place, first or last. -/
def insertInside (tree : Node) (place : Path) (parent : Node) (first : Bool) (width : Int) (n : Node) :
    Node × Node :=
  let n := Indent.reindent (.ofList ((Indent.childSpace width tree (some place) parent).toList.drop 1)) n
  let p := if first then prependChild width tree (some place) parent n
    else appendChild width tree (some place) parent n
  (adopt tree place p.children, p.node)

/-- The node beside the one at the index of the list at the place. -/
def insertBeside (tree : Node) (v : Visit) (after : Bool) (n : Node) : Node × Node :=
  let space := Indent.siblingSpace tree (some v.path)
  let n := Indent.reindent (.ofList (space.toList.drop 1)) n
  let siblings := ((tree.get? v.parent).map (·.children)).getD []
  let gap := if space.isEmpty then [] else [Node.text space]
  let p :=
    if after then placed (siblings.take (v.index + 1) ++ gap) n (siblings.drop (v.index + 1))
    else placed (siblings.take v.index) n (gap ++ siblings.drop v.index)
  (tree.modifyChildren (fun _ => p.children) v.parent, p.node)

/-- Whether siblings can be inserted into the list at the place: only the children of elements and fragments can
have siblings. -/
def isMarkupPlace (tree : Node) (place : Path) : Bool := (tree.get? place).any (·.kind.isMarkup)

/-- Inserts a new element at a position relative to the element with the identity. -/
def insert (tree : Node) (id : String) (position : String) (r : Request) : Reply :=
  match Position.ofName? position with
  | none => .invalid tree ("Invalid position: " ++ position) []
  | some pos =>
    match tree.findId id with
    | .error f => .fault tree f
    | .ok none => .notFound tree id []
    | .ok (some v) =>
      if pos.isSibling && !isMarkupPlace tree v.parent then
        .invalid tree ("Can't insert " ++ pos.description ++ " the element " ++ id ++
          ": it is not inside markup") []
      else
        match newNode tree r with
        | .error reply => reply
        | .ok (n, log) =>
          let (tree, n) :=
            if pos.isSibling then insertBeside tree v (pos == .after) n
            else insertInside tree v.path v.node (pos == .firstChild) r.width n
          .after log (.succeeded tree
            ("Inserted <" ++ headWord n ++ "> " ++ pos.description ++ " element " ++ id) [("node", .node n)])

/-- Inserts a new element as first or last child of the markup that a component returns. -/
def insertAtRoot (tree : Node) (position : String) (component : Option String) (r : Request) : Reply :=
  if position != "first" && position != "last" then .invalid tree ("Invalid position: " ++ position) []
  else
    match Component.root component tree with
    | .error f => .fault tree f
    | .ok none =>
      let name := component.getD ""
      .failed tree .notFound
        (if name.isEmpty then "No component found" else "Component " ++ name ++ " not found") []
    | .ok (some v) =>
      match newNode tree r with
      | .error reply => reply
      | .ok (n, log) =>
        let (tree, n) := insertInside tree v.path v.node (position == "first") r.width n
        .after log (.succeeded tree
          ("Inserted <" ++ headWord n ++ "> as " ++ position ++ " child of the component root")
          [("node", .node n)])

end JsxEdit.Edit
