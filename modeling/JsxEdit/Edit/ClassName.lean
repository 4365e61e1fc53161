import JsxEdit.Edit.Outcome
import JsxEdit.Edit.Update
import JsxEdit.Text.Space

/-
Class names: the words of the `className` attribute.
-/
set_option autoImplicit false

namespace JsxEdit.Edit

/-- The attribute that holds the class names. -/
def classAttribute : String := "className"

/-- The class names of an element; nothing if the attribute is no string. -/
def classNames (n : Node) : Except Fault (Option (List String)) :=
  match n.attr? classAttribute with
  | none => .ok (some [])
  | some attr =>
    match attr.value? with
    | none => .ok none
    | some v => do return (← v.kind.stringValue).map Text.words

/-- The attributes with other class names; without any the attribute goes. -/
def setClassNames (as : List Node) (names : List String) : Except Fault (List Node) :=
  let index := Node.attrIndex? as classAttribute
  if names.isEmpty then .ok (index.elim as as.eraseIdx)
  else do
    let value := Node.new (← Literal.attributeString (Text.join " " names) "\"") []
    match index with
    | none => return as ++ [.attr classAttribute (some value)]
    | some i => return as.modify i (·.withChildren [value])

/-- The attributes of an element with its class names changed; `change` says what they become, nothing if they stay.
There are none to change if the attribute is no string. -/
def changeClassNames (n : Node) (change : List String → Option (List String)) :
    Except Fault (Option (List Node)) := do
  match ← classNames n with
  | none => return none
  | some names =>
    match change names with
    | none => return some n.attributes
    | some names => return some (← setClassNames n.attributes names)

/-- Changes the class names of the element with the identity. -/
def updateClassNames (tree : Node) (id message : String)
    (change : List String → Option (List String)) : Reply :=
  match tree.findId id with
  | .error f => .fault tree f
  | .ok none => .notFound tree id []
  | .ok (some v) =>
    match changeClassNames v.node change with
    | .error f => .fault tree f
    | .ok none => .invalid tree "The className attribute is not a string" []
    | .ok (some as) => .succeeded (tree.modify (·.withAttributes as) v.path) message []

/-- Adds the words of `name` that are no class names yet. -/
def addClassName (tree : Node) (id name : String) : Reply :=
  updateClassNames tree id ("Class \"" ++ name ++ "\" added to \"" ++ id ++ "\"") fun names =>
    let new := (Text.words name).filter fun w => !names.contains w
    if new.isEmpty then none else some (names ++ new)

/-- Removes the words of `name` from the class names. -/
def removeClassName (tree : Node) (id name : String) : Reply :=
  updateClassNames tree id ("Class \"" ++ name ++ "\" removed from \"" ++ id ++ "\"") fun names =>
    let gone := Text.words name
    if gone.any names.contains then some (names.filter fun w => !gone.contains w) else none

end JsxEdit.Edit
