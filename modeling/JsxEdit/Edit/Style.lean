import JsxEdit.Build
import JsxEdit.Edit.Outcome
import JsxEdit.Edit.Update
import JsxEdit.Text.Case

/-
Inline styles: the object literal in the `style` attribute.
-/
set_option autoImplicit false

namespace JsxEdit.Edit

/-- The attribute that holds the styles. -/
def styleAttribute : String := "style"

/-- The object literal of a style attribute. -/
def styleObject? (attr : Node) : Option Node := do
  let slot ← attr.value?
  match slot.kind with
  | .slot .. =>
    let object ← slot.value?
    match object.kind with
    | .object _ => return object
    | _ => none
  | _ => none

/-- The styles of an object literal: the values of its properties by name. -/
def stylesOf (object : Node) : Except Fault (Dict (Value Node)) := do
  let pairs ← object.children.mapM fun p =>
    match p.propertyName? with
    | none => .error .noMember
    | some name => do return (name, Value.ofDatum (← p.propertyValue))
  return Dict.ofPairs pairs

/-- Whether a value stands for removing a style. -/
def isRemoval : Value Node → Bool
  | .null => true
  | .str s => s.isEmpty
  | _ => false

/-- A style to remove, or to set to an expression. -/
inductive StyleChange where
  | remove (name : String)
  | assign (name : String) (value : Node)

/-- The changes for a dictionary of styles. -/
def styleChanges : Dict (Value Node) → Except Fault (List StyleChange)
  | [] => .ok []
  | (name, v) :: rest => do
    if isRemoval v then return .remove name :: (← styleChanges rest)
    else
      let value ← Build.styleValue v
      return .assign name value :: (← styleChanges rest)

/-- The white space before a new property: that of the last one. -/
def propertySpace (properties : List Node) : String :=
  match properties.getLast? with
  | some (.mk (.property _ space _) _ _ _) => space
  | _ => " "

/-- An object literal with one style removed, set or added. -/
def changeStyle (object : Node) (change : StyleChange) : Node :=
  let ps := object.children
  let index (name : String) : Option Nat := ps.findIdx? (·.propertyName? == some name)
  match change with
  | .remove name => object.withChildren ((index name).elim ps ps.eraseIdx)
  | .assign name value =>
    match index name with
    | some i => object.withChildren (ps.modify i (·.withChildren [value]))
    | none =>
      let new := object.withChildren (ps ++ [Build.property name (propertySpace ps) value])
      match object.kind with
      | .object "" => if ps.isEmpty then new.withKind (.object " ") else new
      | _ => new

/-- The attributes with another object literal as style; the style attribute is added if it is missing. -/
def setStyleObject (as : List Node) (object : Node) : List Node :=
  match Node.attrIndex? as styleAttribute with
  | none => as ++ [.attr styleAttribute (some (.slot object))]
  | some i => as.modify i fun attr =>
      attr.withChildren (attr.children.modify 0 fun slot => slot.withChildren (slot.children.set 0 object))

/-- The object literal to change: an empty one if there is no style attribute, none if that holds something
else. -/
def styleTarget (n : Node) : Option Node :=
  match n.attr? styleAttribute with
  | none => some (.new (.object "") [])
  | some attr => styleObject? attr

/-- Merges styles into those of the element with the identity. -/
def updateStyles (tree : Node) (id : String) (styles : Dict (Value Node)) : Reply :=
  match tree.findId id with
  | .error f => .fault tree f
  | .ok none => .notFound tree id [("styles", .null)]
  | .ok (some v) =>
    match styleTarget v.node with
    | none =>
      .invalid tree ("The style attribute of <" ++ v.node.kind.head.shown ++ "> is not an object literal")
        [("styles", .null)]
    | some object =>
      match styleChanges (Dict.rename Text.camelCase styles) with
      | .error (.unusable value role) => .invalid tree (Fault.unusable value role).message [("styles", .null)]
      | .error f => .fault tree f
      | .ok changes =>
        let object := changes.foldl changeStyle object
        let tree := tree.modify (fun n => n.withAttributes (setStyleObject n.attributes object)) v.path
        match stylesOf object with
        | .error f => .fault tree f
        | .ok styles => .succeeded tree ("Styles updated on \"" ++ id ++ "\"") [("styles", .dict styles)]

/-- A number as a length in pixels, any other value as it is. -/
def pixels : Value Node → Value Node
  | .int n => .str (intText n ++ "px")
  | .float d => .str (d.text ++ "px")
  | v => v

/-- The length in pixels for a value, as long as it is no number with too long a text. -/
def pixelLength (v : Value Node) : Except Fault (Value Node) := do
  if let .int n := v then let _ ← Literal.numberText (.int n)
  return pixels v

/-- The properties that hold margins and paddings. -/
def spacingProperties : List String :=
  ["marginTop", "marginBottom", "marginLeft", "marginRight", "margin",
   "paddingTop", "paddingBottom", "paddingLeft", "paddingRight", "padding"]

/-- The entries for the keys, under the names given for them, with numbers in pixels. -/
def pixelEntries (d : Dict (Value Node)) (keys : List (String × String)) : Except Fault (Dict (Value Node)) :=
  (keys.filterMap fun (key, name) => (d.get? key).map (name, ·)).mapM fun (name, v) => do return (name, ← pixelLength v)

/-- Merges styles that are still to be worked out. -/
def updateGiven (tree : Node) (id : String) (styles : Except Fault (Dict (Value Node))) : Reply :=
  match styles with
  | .error f => .fault tree f
  | .ok styles => updateStyles tree id styles

/-- Sets margins and paddings; other keys are passed over. -/
def setSpacing (tree : Node) (id : String) (spacing : Dict (Value Node)) : Reply :=
  updateGiven tree id (pixelEntries spacing (spacingProperties.map fun p => (p, p)))

/-- The styles for one value for all sides, or for values by side. -/
def sideStyles (property : String) : Value Node → Except Fault (Dict (Value Node))
  | .dict d =>
    pixelEntries d [("top", property ++ "Top"), ("bottom", property ++ "Bottom"), ("left", property ++ "Left"),
      ("right", property ++ "Right")]
  | v => do return [(property, ← pixelLength v)]

/-- Sets the margin, or the margins by side. -/
def setMargin (tree : Node) (id : String) (v : Value Node) : Reply :=
  updateGiven tree id (sideStyles "margin" v)

/-- Sets the padding, or the paddings by side. -/
def setPadding (tree : Node) (id : String) (v : Value Node) : Reply :=
  updateGiven tree id (sideStyles "padding" v)

/-- Removes the style attribute of the element with the identity. -/
def clearStyles (tree : Node) (id : String) : Reply :=
  match tree.findId id with
  | .error f => .fault tree f
  | .ok none => .notFound tree id []
  | .ok (some v) =>
    let cleared (as : List Node) : List Node := (Node.attrIndex? as styleAttribute).elim as as.eraseIdx
    .succeeded (tree.modify (fun n => n.withAttributes (cleared n.attributes)) v.path)
      ("Styles cleared from \"" ++ id ++ "\"") []

/-- The styles of the element with the identity; none for an element without an object literal as style. -/
def getStyles (tree : Node) (id : String) : Except Fault (Option (Dict (Value Node))) := do
  match ← tree.findId id with
  | none => return none
  | some v =>
    match (v.node.attr? styleAttribute).bind styleObject? with
    | none => return some []
    | some object => return some (← stylesOf object)

end JsxEdit.Edit
