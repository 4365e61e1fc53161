import JsxEdit.Node.Generate
import JsxEdit.Node.Label
import JsxEdit.Node.Literal
import JsxEdit.Source.Expression

/-
New nodes from values: texts, attribute values, style values and elements.
-/
set_option autoImplicit false

namespace JsxEdit.Build

/-- Whether the character cannot stand in text between tags. -/
def isMarkupChar (c : Char) : Bool := c == '<' || c == '>' || c == '\x7b' || c == '\x7d'

/-- A text between tags; one with characters of markup becomes a string in a slot. -/
def text (s : String) : Node :=
  if s.toList.any isMarkupChar then .slot (.new (Literal.string s "'") []) else .text s

/-- A number literal. -/
def number (n : Number) : Except Fault Node := do return .new (.number (← Literal.numberText n)) []

theorem number_eq_ok {n : Number} {e : Node} (h : number n = .ok e) :
    ∃ text, Literal.numberText n = .ok text ∧ e = .new (.number text) [] := by
  unfold number at h
  cases htext : Literal.numberText n with
  | error f =>
    rw [htext] at h
    cases h
  | ok text =>
    rw [htext] at h
    cases h
    exact ⟨text, rfl, rfl⟩

/-- The expression given as the value of the key `expression`, which has to be a text. -/
def expression (v : Value Node) : Except Fault Node :=
  match v with
  | .str s => .ok (Expression.ofText s)
  | _ => .error .noMember

/-- The value node of an attribute. `true` needs none; texts become attribute strings, all else stands in a
slot. -/
def attributeValue (v : Value Node) : Except Fault (Option Node) :=
  let refused := Except.error (.unusable v.quotedText "attribute value")
  match v with
  | .bool true => .ok none
  | .str s => do return some (.new (← Literal.attributeString s "\"") [])
  | .int n => do return some (.slot (← number (.int n)))
  | .float d => do return some (.slot (← number (.float d)))
  | .dict entries =>
    match Dict.get? entries "expression" with
    | some e => do return some (.slot (← expression e))
    | none => refused
  | .node n =>
    match n.kind with
    | .attributeString .. | .slot .. => .ok (some n)
    | _ => .ok (some (.slot n))
  | _ => refused

theorem slot_number_eq_ok {n : Number} {value : Option Node}
    (h : (do return some (.slot (← number n)) : Except Fault (Option Node)) = .ok value) :
    ∃ text, Literal.numberText n = .ok text ∧ value = some (.slot (.new (.number text) [])) := by
  cases hn : number n with
  | error f =>
    rw [hn] at h
    cases h
  | ok e =>
    rw [hn] at h
    cases h
    obtain ⟨text, htext, rfl⟩ := number_eq_ok hn
    exact ⟨text, htext, rfl⟩

/-- Whether the value stands for leaving an attribute out. -/
def isAbsent : Value Node → Bool
  | .null | .bool false => true
  | _ => false

/-- The expression for a style value. -/
def styleValue (v : Value Node) : Except Fault Node :=
  let refused := Except.error (.unusable v.quotedText "style value")
  match v with
  | .str s => .ok (.new (Literal.string s "'") [])
  | .int n => number (.int n)
  | .float d => number (.float d)
  | .dict entries =>
    match Dict.get? entries "expression" with
    | some e => expression e
    | none => refused
  | _ => refused

/-- A value put among nodes: texts become text nodes. -/
def child : Value Node → Node
  | .str s => text s
  | .node n => n
  | v => .foreign (v.bind fun n => .str n.write)

/-- A value put among nodes as it is. -/
def rawChild : Value Node → Node
  | .node n => n
  | v => .foreign (v.bind fun n => .str n.write)

/-- The attributes for a dictionary of values; absent ones are left out. -/
def attributes : Dict (Value Node) → Except Fault (List Node)
  | [] => .ok []
  | (name, v) :: rest => do
    if isAbsent v then attributes rest
    else
      let value ← attributeValue v
      return .attr name value :: (← attributes rest)

/-- An element with the given children and attributes. -/
def element (tag : String) (children : List (Value Node)) (attrs : Dict (Value Node)) : Except Fault Node := do
  let attrs ← attributes attrs
  return .element tag attrs (children.map child)

/-- The name under which makers of elements take the tag name; no attribute can have it. -/
def tagArgument : String := "tag_name"

/-- Names that the maker of an element takes for itself; no attribute can have them. -/
def isReserved (name : String) : Bool := name == "self" || name == "name"

/-- An element whose tag name is a value, which has to be a text. The attributes must not have reserved names. -/
def namedElement (tag : Value Node) (children : List (Value Node)) (attrs : Dict (Value Node)) :
    Except Fault Node := do
  if attrs.any fun (k, _) => isReserved k then throw .wrongType
  match tag with
  | .str s => element s children attrs
  | v =>
    let _ ← attributes attrs
    throw (.invalidHead "Element" v.quotedText)

/-- The children with a line feed and a blank margin before each of them, and a line feed after the last. -/
def onLines (children : List (Value Node)) : List (Value Node) :=
  let lines := children.flatMap fun c => [.node (.text "\n  "), c]
  if lines.isEmpty then [] else lines ++ [.node (.text "\n")]

/-- An element with every child on a line of its own. -/
def block (tag : String) (children : List (Value Node)) (attrs : Dict (Value Node)) : Except Fault Node :=
  element tag (onLines children) attrs

/-- A property; a key that is no identifier is quoted. -/
def property (name spaceBefore : String) (value : Node) : Node :=
  let key := if Text.isName .identifier name then name else "'" ++ name ++ "'"
  .new (.property key spaceBefore ": ") [value]

end JsxEdit.Build
