import JsxEdit.Build

/-
Nodes by the name of their kind, from a list of values and named fields. For kinds with a head of their own the first
value is the head, which has to fit the kind: names and strings are texts, truth values are truth values, and no head is
a node. All other values are children.
-/
set_option autoImplicit false

namespace JsxEdit.Construct

/-- The fields given for a node. -/
abbrev Fields := Dict (Value Node)

/-- The fields that a kind declares; other fields are of a wrong type for it. The remaining kinds declare none, and
lack the members that other fields would set. -/
def declared : String → Option (List String)
  | "Document" => some ["source"]
  | "Invalid" => some ["position"]
  | "Element" => some ["attributes", "self_closing", "space_end", "closing_name"]
  | "ExpressionSlot" => some ["lead", "trail"]
  | "Attribute" | "SpreadAttribute" => some ["space_before"]
  | "StringLiteral" | "AttributeString" => some ["quote"]
  | "ObjectExpression" => some ["trailing"]
  | "Property" => some ["space_before", "colon"]
  | _ => none

/-- Fails if a field is given that the kind with this name does not have. -/
def checkFields (name : String) (fields : Fields) : Except Fault Unit :=
  match declared name with
  | some names => if fields.all fun (k, _) => names.contains k then .ok () else .error .wrongType
  | none => if fields.isEmpty then .ok () else .error .noMember

/-- A text field, or its default. -/
def textField (fields : Fields) (name default : String) : Except Fault String :=
  match fields.get? name with
  | none => .ok default
  | some (.str s) => .ok s
  | some _ => .error .wrongType

/-- A text field that may be missing. -/
def optionalText (fields : Fields) (name : String) : Except Fault (Option String) :=
  match fields.get? name with
  | none | some .null => .ok none
  | some (.str s) => .ok (some s)
  | some _ => .error .wrongType

/-- A truth value that may be missing. -/
def optionalBool (fields : Fields) (name : String) : Except Fault (Option Bool) :=
  match fields.get? name with
  | none | some .null => .ok none
  | some (.bool b) => .ok (some b)
  | some _ => .error .wrongType

/-- A whole number that may be missing. -/
def optionalInt (fields : Fields) (name : String) : Except Fault (Option Int) :=
  match fields.get? name with
  | none | some .null => .ok none
  | some (.int n) => .ok (some n)
  | some _ => .error .wrongType

/-- The attributes of a new element: an attribute list, or a list of nodes. -/
def attributeNodes (fields : Fields) : Except Fault (List Node) :=
  match fields.get? "attributes" with
  | none => .ok []
  | some (.list vs) => .ok (vs.map Build.rawChild)
  | some (.node n) => .ok n.children
  | some _ => .error .wrongType

/-- A head that has to be a text. -/
def textHead (kind : String) : Value Node → Except Fault String
  | .str s => .ok s
  | v => .error (.invalidHead kind v.quotedText)

/-- A head that may be anything but a node; only texts have a meaning. -/
def looseHead (kind : String) : Value Node → Except Fault String
  | .str s => .ok s
  | .node n => .error (.invalidHead kind n.label)
  | _ => .error .wrongType

/-- The kind of a new node without a head of its own; nothing for other names. -/
def headless (name : String) (hasChildren : Bool) (fields : Fields) : Except Fault (Option Kind) := do
  match name with
  | "Document" => return some (.document (← optionalText fields "source"))
  | "Fragment" => return some .fragment
  | "ExpressionSlot" => return some (.slot (← textField fields "lead" "") (← textField fields "trail" ""))
  | "Attributes" => return some .attributes
  | "SpreadAttribute" => return some (.spread (← textField fields "space_before" " "))
  | "Script" => return some .script
  | "NullLiteral" => return some .null
  | "ObjectExpression" =>
    return some (.object ((← optionalText fields "trailing").getD (if hasChildren then " " else "")))
  | _ => return none

/-- A new element. Without children it closes itself unless told otherwise. -/
def element (name : String) (children : List Node) (fields : Fields) : Except Fault Node := do
  let attributes ← attributeNodes fields
  let selfClosing := (← optionalBool fields "self_closing").getD children.isEmpty
  let spaceEnd := (← optionalText fields "space_end").getD (if selfClosing then " " else "")
  let closingName ← optionalText fields "closing_name"
  return .mk (.element name selfClosing spaceEnd closingName) {} attributes children

/-- The kind of a new node with a head of its own that is no element. -/
def headed (name : String) (head : Value Node) (fields : Fields) : Except Fault Kind := do
  match name with
  | "Code" =>
    match head with
    | .null => return .code none
    | _ => return .code (some (← looseHead name head))
  | "Invalid" => return .invalid (← looseHead name head) (← optionalInt fields "position")
  | "Text" => return .text (← looseHead name head)
  | "Attribute" => return .attr (← textHead name head) (← textField fields "space_before" " ")
  | "Identifier" => return .identifier (← looseHead name head)
  | "MemberExpression" => return .member (← looseHead name head)
  | "StringLiteral" => return .string (← textHead name head) (← textField fields "quote" "'")
  | "AttributeString" => return .attributeString (← textHead name head) (← textField fields "quote" "\"")
  | "TemplateLiteral" => return .template (← looseHead name head)
  | "NumericLiteral" => return .number (← looseHead name head)
  | "BooleanLiteral" =>
    match head with
    | .bool b => return .boolean b
    | v => throw (.invalidHead name v.quotedText)
  | "Property" =>
    return .property (← textHead name head) (← textField fields "space_before" " ")
      (← textField fields "colon" ": ")
  | _ => throw .noMember

/-- Fails if the head does not fit the kind. -/
def checkHead (name : String) (head : Value Node) : Except Fault Unit :=
  let bad := Except.error (.invalidHead name head.quotedText)
  match name, head with
  | "BooleanLiteral", .bool _ => .ok ()
  | "BooleanLiteral", _ => bad
  | _, .str _ => .ok ()
  | _, .node _ => bad
  | _, _ =>
    if ["Element", "Attribute", "StringLiteral", "AttributeString", "Property"].contains name then bad else .ok ()

/-- A new node of the kind with this name. -/
def node (name : String) (values : List (Value Node)) (fields : Fields) : Except Fault Node := do
  let isHeadless := (← headless name false []).isSome
  match values with
  | [] => if !isHeadless then throw .wrongType
  | head :: _ => if !isHeadless then checkHead name head
  checkFields name fields
  match ← headless name (!values.isEmpty) fields, values with
  | some k, _ => return .new k (values.map Build.rawChild)
  | none, [] => throw .wrongType
  | none, head :: rest =>
    let children := rest.map Build.rawChild
    if name == "Element" then element (← textHead name head) children fields
    else return .new (← headed name head fields) children

/-- A literal of the kind with this name for a value; only strings take quotes. -/
def literal (name : String) (value : Value Node) (fields : Fields) : Except Fault Node := do
  let quotes := name == "StringLiteral" || name == "AttributeString"
  if !quotes && !(["TemplateLiteral", "NumericLiteral"].contains name) then throw .noMember
  if fields.any fun (k, _) => !(quotes && k == "quote") then throw .wrongType
  match name, value with
  | "StringLiteral", .str s => return .new (Literal.string s (← textField fields "quote" "'")) []
  | "AttributeString", .str s => return .new (← Literal.attributeString s (← textField fields "quote" "\"")) []
  | "AttributeString", _ => throw .wrongType
  | "TemplateLiteral", .str s => return .new (Literal.template s) []
  | "NumericLiteral", .int n => Build.number (.int n)
  | "NumericLiteral", .float d => Build.number (.float d)
  | "NumericLiteral", v => return .new (.number v.shownText) []
  | _, _ => throw .noMember

/-- A property by its key, from the value and the white space before it, which may also be given by name. -/
def property (key : Value Node) (values : List (Value Node)) (fields : Fields) : Except Fault Node := do
  let names := ["value", "space_before"]
  let given := names.zip values ++ fields
  if names.length < values.length then throw .wrongType
  if fields.any fun (k, _) => !names.contains k || (names.take values.length).contains k then throw .wrongType
  match key, Dict.get? given "value" with
  | .str name, some v => return Build.property name (← textField given "space_before" " ") (Build.rawChild v)
  | _, _ => throw .wrongType

end JsxEdit.Construct
