import JsxEdit.Node.Kind

/-
Nodes: a kind, where in the source the node was read, the attributes of an element, and the children.

Nodes are plain values. A node that has to be found again after edits is given a `mark`, which stays with it
wherever it is moved and is not copied.
-/
set_option autoImplicit false

namespace JsxEdit

/-- A range of the source text. -/
structure Span where
  start : Nat
  stop : Nat
  deriving DecidableEq, Repr

/-- Where the opening and the closing part of a node were read, and its mark. -/
structure Info where
  head : Option Span := none
  tail : Option Span := none
  mark : Option Nat := none
  deriving DecidableEq, Repr

/-- A node; only elements have attributes. -/
inductive Node where
  | mk (kind : Kind) (info : Info) (attributes children : List Node)

instance : Inhabited Node := ⟨.mk .fragment {} [] []⟩

namespace Node

/-- The kind of the node. -/
def kind : Node → Kind
  | .mk k _ _ _ => k

/-- Where the node was read, and its mark. -/
def info : Node → Info
  | .mk _ i _ _ => i

/-- The attributes of an element. -/
def attributes : Node → List Node
  | .mk _ _ as _ => as

/-- The children. -/
def children : Node → List Node
  | .mk _ _ _ cs => cs

@[simp] theorem kind_mk (k : Kind) (i : Info) (as cs : List Node) : (mk k i as cs).kind = k := rfl
@[simp] theorem info_mk (k : Kind) (i : Info) (as cs : List Node) : (mk k i as cs).info = i := rfl
@[simp] theorem attributes_mk (k : Kind) (i : Info) (as cs : List Node) :
    (mk k i as cs).attributes = as := rfl
@[simp] theorem children_mk (k : Kind) (i : Info) (as cs : List Node) :
    (mk k i as cs).children = cs := rfl

/-- A new node without attributes. -/
def new (k : Kind) (children : List Node) : Node := .mk k {} [] children

/-- The node with another kind. -/
def withKind (k : Kind) : Node → Node
  | .mk _ i as cs => .mk k i as cs

/-- The node with other attributes. -/
def withAttributes (as : List Node) : Node → Node
  | .mk k i _ cs => .mk k i as cs

/-- The node with other children. -/
def withChildren (cs : List Node) : Node → Node
  | .mk k i as _ => .mk k i as cs

/-- The node with a mark, or without one. -/
def withMark (mark : Option Nat) : Node → Node
  | .mk k i as cs => .mk k { i with mark := mark } as cs

/-- A new text. -/
def text (content : String) : Node := new (.text content) []

/-- A new piece of code. -/
def code (text : String) : Node := new (.code (some text)) []

/-- A new slot holding the expression. -/
def slot (expression : Node) : Node := new (.slot "" "") [expression]

/-- A new attribute; without a value it stands for `true`. -/
def attr (name : String) (value : Option Node) : Node := new (.attr name " ") value.toList

/-- A new element: without children it closes itself, with a blank before its end. -/
def element (name : String) (attributes children : List Node) : Node :=
  let selfClosing := children.isEmpty
  .mk (.element name selfClosing (if selfClosing then " " else "") none) {} attributes children

/-- A value among nodes. -/
def foreign (value : Datum) : Node := new (.foreign value) []

/-- The attributes of an element as a node of their own. -/
def attributeList (n : Node) : Node := new .attributes n.attributes

/-- The single value of an attribute, slot or property. -/
def value? (n : Node) : Option Node := n.children.head?.filter fun v => !v.kind.isNothing

/-- The attribute of an element with this name. -/
def attr? (n : Node) (name : String) : Option Node := n.attributes.find? (·.kind.isAttr name)

/-- The index of the attribute with this name in a list. -/
def attrIndex? (as : List Node) (name : String) : Option Nat := as.findIdx? (·.kind.isAttr name)

/-- Texts between tags that consist of white space only. -/
def isWhitespace (n : Node) : Bool := n.kind.isWhitespace

/-- Values that are no nodes. -/
def isForeign (n : Node) : Bool := n.kind.isForeign

/-- White space that has a line feed. -/
def isLineBreak (n : Node) : Bool :=
  match n.kind with
  | .text content => Text.isBlank content && content.toList.contains '\n'
  | _ => false

/-- Turns a self-closing element into one with a closing tag. -/
def opened (n : Node) : Node :=
  match n.kind with
  | .element name true spaceEnd closingName =>
    n.withKind (.element name false (if spaceEnd.toList.contains '\n' then spaceEnd else "") closingName)
  | _ => n

/-- Turns an element without children into a self-closing one. -/
def closed (n : Node) : Node :=
  match n.kind with
  | .element name false spaceEnd closingName =>
    if n.children.isEmpty then
      n.withKind (.element name true (if spaceEnd.isEmpty then " " else spaceEnd) closingName)
    else n
  | _ => n

mutual

/-- Whether a value that is no node occurs below the node. -/
def hasForeign : Node → Bool
  | .mk _ _ as cs => anyForeign as || anyForeign cs

/-- Whether a value that is no node occurs among the nodes or below them. -/
def anyForeign : List Node → Bool
  | [] => false
  | n :: ns => n.isForeign || n.hasForeign || anyForeign ns

end

mutual

/-- The node without any record of where it was read. -/
def withoutOrigin : Node → Node
  | .mk k i as cs => .mk k { i with head := none, tail := none } (allWithoutOrigin as) (allWithoutOrigin cs)

/-- The nodes without any record of where they were read. -/
def allWithoutOrigin : List Node → List Node
  | [] => []
  | n :: ns => n.withoutOrigin :: allWithoutOrigin ns

end

end Node
end JsxEdit
