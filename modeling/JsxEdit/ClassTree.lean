import JsxEdit.Outline

/-
Trees of nodes that have a class and children and nothing else. A class may extend another one, and its nodes
count as nodes of that class too.
-/
set_option autoImplicit false

namespace JsxEdit

/-- A class of nodes: its name and the names of the classes it extends. -/
structure NodeClass where
  name : String
  bases : List String
  deriving DecidableEq, Repr

/-- Whether nodes of the class count as nodes of the class with this name. -/
def NodeClass.isA (c : NodeClass) (name : String) : Bool := c.name == name || c.bases.contains name

/-- A tree of nodes of some classes. -/
inductive ClassTree where
  | mk (cls : NodeClass) (children : List ClassTree)

instance : Inhabited ClassTree := ⟨.mk ⟨"", []⟩ []⟩

namespace ClassTree

/-- The class of the root. -/
def cls : ClassTree → NodeClass
  | .mk c _ => c

/-- The children of the root. -/
def children : ClassTree → List ClassTree
  | .mk _ cs => cs

/-- One line that shows the class and the number of children. -/
def label (t : ClassTree) : String :=
  let count := t.children.length
  "<" ++ t.cls.name ++ " (" ++ intText count ++ (if count == 1 then " child)>" else " children)>")

mutual

/-- The nodes below the node at `path`, with their paths, in document order. -/
def placesBelow (path : List Nat) : ClassTree → List (List Nat × ClassTree)
  | .mk _ cs => placesFrom path 0 cs

/-- The nodes of a list from `index` on, each followed by those below it. -/
def placesFrom (path : List Nat) (index : Nat) : List ClassTree → List (List Nat × ClassTree)
  | [] => []
  | t :: ts => (path ++ [index], t) :: t.placesBelow (path ++ [index]) ++ placesFrom path (index + 1) ts

end

/-- All nodes below the root with their paths, in document order. -/
def descendants (t : ClassTree) : List (List Nat × ClassTree) := t.placesBelow []

/-- The children with their paths. -/
def entries (t : ClassTree) : List (List Nat × ClassTree) := t.children.mapIdx fun i c => ([i], c)

mutual

/-- Whether two trees have the same shape and classes. -/
def equals : ClassTree → ClassTree → Bool
  | .mk c cs, .mk d ds => c == d && equalsAll cs ds

/-- Whether two lists of trees have the same shapes and classes. -/
def equalsAll : List ClassTree → List ClassTree → Bool
  | [], [] => true
  | t :: ts, u :: us => t.equals u && equalsAll ts us
  | _, _ => false

end

mutual

/-- The labels of the tree. -/
def outline : ClassTree → Outline
  | .mk c cs => .mk (label (.mk c cs)) (outlines cs)

/-- The labels of the trees. -/
def outlines : List ClassTree → List Outline
  | [] => []
  | t :: ts => t.outline :: outlines ts

end

/-- What a query selects by: a class and those that extend it, or exactly the class of a sample node. -/
inductive Query where
  | instances (name : String)
  | sample (cls : NodeClass)
  deriving DecidableEq, Repr

/-- Whether the query selects the node. -/
def Query.selects : Query → ClassTree → Bool
  | .instances name, t => t.cls.isA name
  | .sample c, t => t.cls == c

/-- The paths of the selected children, of the selected descendants, and of the children that are not
selected. -/
def select (t : ClassTree) (q : Query) : List (List (List Nat)) :=
  let paths (ts : List (List Nat × ClassTree)) (p : ClassTree → Bool) := (ts.filter fun e => p e.2).map (·.1)
  [paths t.entries q.selects, paths t.descendants q.selects, paths t.entries fun c => !q.selects c]

/-- The root without its children. -/
def alone (t : ClassTree) : ClassTree := .mk t.cls []

end ClassTree
end JsxEdit
