import JsxEdit.Edit.Style
import JsxEdit.Edit.Update
import JsxEdit.Node.Construct

/-
Fields of nodes by name, to be read and to be set one at a time.
-/
set_option autoImplicit false

namespace JsxEdit

/-- The kind with another head; kinds with a fixed head take none. -/
def Kind.withHead? : Kind → String → Option Kind
  | .code _, s => some (.code (some s))
  | .invalid _ p, s => some (.invalid s p)
  | .text _, s => some (.text s)
  | .element _ a b c, s => some (.element s a b c)
  | .attr _ a, s => some (.attr s a)
  | .identifier _, s => some (.identifier s)
  | .member _, s => some (.member s)
  | .string _ q, s => some (.string s q)
  | .attributeString _ q, s => some (.attributeString s q)
  | .template _, s => some (.template s)
  | .number _, s => some (.number s)
  | .property _ a b, s => some (.property s a b)
  | _, _ => none

/-- The kind with another text in a field. -/
def Kind.withText? : Kind → String → String → Option Kind
  | .document _, "source", s => some (.document (some s))
  | .element a b _ d, "space_end", s => some (.element a b s d)
  | .element a b c _, "closing_name", s => some (.element a b c (some s))
  | .slot _ b, "lead", s => some (.slot s b)
  | .slot a _, "trail", s => some (.slot a s)
  | .attr a _, "space_before", s => some (.attr a s)
  | .spread _, "space_before", s => some (.spread s)
  | .string a _, "quote", s => some (.string a s)
  | .attributeString a _, "quote", s => some (.attributeString a s)
  | .object _, "trailing", s => some (.object s)
  | .property a _ c, "space_before", s => some (.property a s c)
  | .property a b _, "colon", s => some (.property a b s)
  | k, "head", s => k.withHead? s
  | _, _, _ => none

namespace Node

/-- The value of a node in a field: nothing if it has none. -/
def asValue : Option Node → Value Node
  | some n => if let .foreign d := n.kind then .ofDatum d else .node n
  | none => .null

/-- The fields that only some kinds have. -/
def ownField? (n : Node) (name : String) : Option (Value Node) :=
  match n.kind, name with
  | .document s, "source" => some (.ofText? s)
  | .invalid _ p, "position" => some (.ofInt? p)
  | .text s, "is_whitespace" => some (.bool (Text.isBlank s))
  | .element s _ _ _, "tag_name" => some (.str s)
  | .element _ b _ _, "self_closing" => some (.bool b)
  | .element _ _ s _, "space_end" => some (.str s)
  | .element _ _ _ c, "closing_name" => some (.ofText? c)
  | .element .., "attributes" => some (.node n.attributeList)
  | .slot s _, "lead" => some (.str s)
  | .slot _ s, "trail" => some (.str s)
  | .slot .., "expression" => some (asValue n.value?)
  | .attr _ s, "space_before" => some (.str s)
  | .attr s _, "name" => some (.str s)
  | .attr .., "value" => some (asValue n.value?)
  | .spread s, "space_before" => some (.str s)
  | .string _ q, "quote" => some (.str q)
  | .attributeString _ q, "quote" => some (.str q)
  | .object s, "trailing" => some (.str s)
  | .property s _ _, "name" => some (.str (Kind.keyName s))
  | .property _ s _, "space_before" => some (.str s)
  | .property _ _ s, "colon" => some (.str s)
  | .property .., "value" => some (asValue n.value?)
  | _, _ => none

/-- The first node of a list with this name. All nodes before it need to have names, as properties and attributes
have. -/
def named (name : String) : List Node → Except Fault (Option Node)
  | [] => .ok none
  | n :: ns =>
    match n.kind with
    | .property key .. => if Kind.keyName key == name then .ok (some n) else named name ns
    | .attr s _ => if s == name then .ok (some n) else named name ns
    | _ => .error .noMember

/-- The attribute or property with this name in an attribute list or object literal. -/
def entry (n : Node) (name : String) : Except Fault (Option Node) :=
  match n.kind with
  | .object _ => named name n.children
  | .attributes => .ok (n.children.find? (·.kind.isAttr name))
  | _ => .error .noMember

/-- The values of an object literal by name. -/
def entries (n : Node) : Except Fault (Dict (Value Node)) :=
  match n.kind with
  | .object _ => Edit.stylesOf n
  | _ => .error .noMember

/-- The text of a script. -/
def scriptText (n : Node) : Except Fault String :=
  match n.kind with
  | .script => n.writeChecked
  | _ => .error .noMember

/-- The value of a node as that of an attribute. Properties have values as attributes have them. The value of a literal
is no node and cannot be read further, except that a missing one counts as `true`. -/
def readValue (n : Node) : Except Fault Datum :=
  match n.kind with
  | .attr .. | .property .. => n.attributeValue
  | .null => .ok (.bool true)
  | k => do
    let _ ← k.literalValue
    throw .noMember

/-- What is written after the children as a field; only kinds with a fixed end have one. -/
def tailField : Kind → Value Node
  | .fragment => .str "</>"
  | .slot .. | .spread _ | .object _ => .str "\x7d"
  | _ => .null

/-- The value of a field. -/
def field (n : Node) (name : String) : Except Fault (Value Node) := do
  match n.ownField? name with
  | some v => return v
  | none =>
    match name with
    | "identity" => if n.kind.isElement then return .ofText? (← n.identity) else throw .noMember
    | "head" => return .ofDatum n.kind.head
    | "tail" => return tailField n.kind
    | "pos" => return .ofInt? ((← n.start).map Int.ofNat)
    | "end" => return .ofInt? ((← n.stop).map Int.ofNat)
    | "value" => if n.kind.isLiteral then return .ofDatum (← n.kind.literalValue) else throw .noMember
    | _ => throw .noMember

/-- The children of an attribute or property with this value. -/
def valueChildren? (n : Node) (v : Value Node) : Option (List Node) :=
  match n.kind, v with
  | .attr .., .null => some []
  | .attr .., v => some [Build.rawChild v]
  | .property .., v => some [Build.rawChild v]
  | _, _ => none

/-- The node with another value of a field. -/
def setField (n : Node) (name : String) (v : Value Node) : Except Fault Node :=
  match name, v, n.kind with
  | "tag_name", .str s, .element .. => .ok (Edit.renamed s n)
  | "self_closing", .bool b, .element s _ e c => .ok (n.withKind (.element s b e c))
  | "closing_name", .null, .element s b e _ => .ok (n.withKind (.element s b e none))
  | "head", .bool b, .boolean _ => .ok (n.withKind (.boolean b))
  | "head", .null, .code _ => .ok (n.withKind (.code none))
  | "source", .null, .document _ => .ok (n.withKind (.document none))
  | "position", .int p, .invalid s _ => .ok (n.withKind (.invalid s (some p)))
  | "position", .null, .invalid s _ => .ok (n.withKind (.invalid s none))
  | "attributes", .node l, .element .. => .ok (n.withAttributes l.children)
  | "value", v, _ =>
    match n.valueChildren? v with
    | some cs => .ok (n.withChildren cs)
    | none => .error .noMember
  | name, .str s, k =>
    match k.withText? name s with
    | some k => .ok (n.withKind k)
    | none => .error .noMember
  | _, _, _ => .error .noMember

end Node
end JsxEdit
