import JsxEdit.Text.Space
import JsxEdit.Value

/-
The kinds of nodes of a component source, with what each keeps besides its children.

A source is code with markup in it. Markup has elements and fragments, whose children are texts, slots for
expressions and markup again. Simple expressions have kinds of their own, all others are scripts made of
code and markup.
-/
set_option autoImplicit false

namespace JsxEdit

/-- The kind of a node. -/
inductive Kind where
  /-- A whole source file; `source` is the text it was read from. -/
  | document (source : Option String)
  /-- Script text, kept as it is. -/
  | code (text : Option String)
  /-- A place that could not be read as markup, with the reason. -/
  | invalid (reason : String) (position : Option Int)
  /-- Text between tags. -/
  | text (content : String)
  /-- `<name … />` or `<name …>…</name>`; `spaceEnd` stands before the end of the opening tag. -/
  | element (name : String) (selfClosing : Bool) (spaceEnd : String) (closingName : Option String)
  /-- `<>…</>`. -/
  | fragment
  /-- An expression in braces, with the white space inside them. -/
  | slot (lead trail : String)
  /-- The list of the attributes of an element. -/
  | attributes
  /-- An attribute; its value is its child, if it has one. -/
  | attr (name : String) (spaceBefore : String)
  /-- `{...props}` in a tag. -/
  | spread (spaceBefore : String)
  /-- An expression kept as code and markup. -/
  | script
  /-- A variable. -/
  | identifier (name : String)
  /-- A member access, `a.b?.c`. -/
  | member (text : String)
  /-- A string literal; `raw` is what stands between the quotes. -/
  | string (raw quote : String)
  /-- A string as the value of an attribute. -/
  | attributeString (raw quote : String)
  /-- A template literal without substitutions. -/
  | template (raw : String)
  /-- A number literal. -/
  | number (text : String)
  /-- `true` or `false`. -/
  | boolean (value : Bool)
  /-- `null`. -/
  | null
  /-- An object literal of properties; `trailing` stands before its closing brace. -/
  | object (trailing : String)
  /-- `key: value` in an object literal. -/
  | property (key spaceBefore colon : String)
  /-- A value put among the nodes although it is none. -/
  | foreign (value : Datum)

namespace Kind

/-- The name of the kind, as labels and reports show it. -/
def name : Kind → String
  | .document .. => "Document"
  | .code .. => "Code"
  | .invalid .. => "Invalid"
  | .text .. => "Text"
  | .element .. => "Element"
  | .fragment => "Fragment"
  | .slot .. => "ExpressionSlot"
  | .attributes => "Attributes"
  | .attr .. => "Attribute"
  | .spread .. => "SpreadAttribute"
  | .script => "Script"
  | .identifier .. => "Identifier"
  | .member .. => "MemberExpression"
  | .string .. => "StringLiteral"
  | .attributeString .. => "AttributeString"
  | .template .. => "TemplateLiteral"
  | .number .. => "NumericLiteral"
  | .boolean .. => "BooleanLiteral"
  | .null => "NullLiteral"
  | .object .. => "ObjectExpression"
  | .property .. => "Property"
  | .foreign .. => ""

/-- Whether a node of this kind counts under the name; attribute strings are string literals too. -/
def isNamed (k : Kind) (name : String) : Bool :=
  k.name == name || (name == "StringLiteral" && k.name == "AttributeString")

/-- The head: the text, name or delimiter that the node starts with. -/
def head : Kind → Datum
  | .document _ | .attributes | .script | .foreign _ => .null
  | .code s => .ofText? s
  | .invalid s _ => .str s
  | .text s => .str s
  | .element s .. => .str s
  | .fragment => .str "<>"
  | .slot .. | .spread _ | .object _ => .str "\x7b"
  | .attr s _ => .str s
  | .identifier s => .str s
  | .member s => .str s
  | .string s _ => .str s
  | .attributeString s _ => .str s
  | .template s => .str s
  | .number s => .str s
  | .boolean b => .bool b
  | .null => .str "null"
  | .property s .. => .str s

/-- Whether the node is a value that is no node at all. -/
def isForeign : Kind → Bool
  | .foreign _ => true
  | _ => false

/-- Whether the node stands for nothing at all. -/
def isNothing : Kind → Bool
  | .foreign .null => true
  | _ => false

/-- Elements. -/
def isElement : Kind → Bool
  | .element .. => true
  | _ => false

/-- Elements and fragments. -/
def isMarkup : Kind → Bool
  | .element .. | .fragment => true
  | _ => false

/-- Texts between tags. -/
def isText : Kind → Bool
  | .text _ => true
  | _ => false

/-- Texts between tags that consist of white space only. -/
def isWhitespace : Kind → Bool
  | .text s => Text.isBlank s
  | _ => false

/-- The raw text of a string literal or attribute string. -/
def isString : Kind → Bool
  | .string .. | .attributeString .. => true
  | _ => false

/-- The attribute with this name. -/
def isAttr (k : Kind) (wanted : String) : Bool :=
  match k with
  | .attr s _ => s == wanted
  | _ => false

end Kind
end JsxEdit
