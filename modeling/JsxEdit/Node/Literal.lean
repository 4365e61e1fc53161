import JsxEdit.Fault
import JsxEdit.Node.Write
import JsxEdit.Text.Entity

/-
Literals: the values they stand for, and the literals that stand for given values.

In string and template literals a backslash escapes the character after it. Attribute strings have no
escapes, but character references.
-/
set_option autoImplicit false

namespace JsxEdit

namespace Literal

/-- The character an escape with this letter stands for. -/
def escaped (c : Char) : Char :=
  match c with
  | 'n' => '\n'
  | 't' => '\t'
  | 'r' => '\r'
  | 'b' => '\x08'
  | 'f' => '\x0c'
  | 'v' => '\x0b'
  | '0' => '\x00'
  | c => c

/-- The characters that a raw text with escapes stands for; a backslash at the end stands for itself. -/
def unescape : List Char → List Char
  | [] => []
  | [c] => [c]
  | c :: d :: cs => if c == '\\' then escaped d :: unescape cs else c :: unescape (d :: cs)

/-- The text that a raw text with escapes stands for. -/
def unescapeText (raw : String) : String := .ofList (unescape raw.toList)

/-- The raw text of a string literal: backslashes, the quote and line feeds are escaped. -/
def rawString (value quote : String) : String :=
  Text.replace (Text.replace (Text.replace value "\\" "\\\\") quote ("\\" ++ quote)) "\n" "\\n"

/-- The raw text of a template literal: backslashes, backticks and the marks of substitutions are escaped. -/
def rawTemplate (value : String) : String :=
  Text.replace (Text.replace (Text.replace value "\\" "\\\\") "`" "\\`") "$\x7b" "\\$\x7b"

/-- The string literal for a value. -/
def string (value quote : String) : Kind := .string (rawString value quote) quote

/-- The template literal for a value. -/
def template (value : String) : Kind := .template (rawTemplate value)

/-- The text that the raw text of an attribute string stands for. -/
def references (raw : String) : Except Fault String :=
  match Text.decodeReferences? raw with
  | some s => .ok s
  | none => .error .badNumber

/-- The raw text and the quotes of the attribute string for a value without references. The other quote is used if it
fits better, and double quotes are written as references if none fits. -/
def quotedAttribute (value quote : String) : String × String :=
  if Text.contains value quote then
    let other := if quote == "\"" then "'" else "\""
    if Text.contains value other then (Text.replace value "\"" "&quot;", "\"") else (value, other)
  else (value, quote)

/-- The raw text and the quotes of the attribute string for a value. Ampersands are written as references only if the
value would be read differently without. -/
def attributeText (value quote : String) : Except Fault (String × String) := do
  let same := (← references value) == value
  return quotedAttribute (if same then value else Text.replace value "&" "&amp;") quote

/-- The attribute string for a value. -/
def attributeString (value quote : String) : Except Fault Kind := do
  let (raw, quote) ← attributeText value quote
  return .attributeString raw quote

/-- The text of a number literal for a number. A whole number of too many digits is not written out. -/
def numberText : Number → Except Fault String
  | .int n => if (Nat.toDigits 10 n.natAbs).length ≤ Text.maxDigits then .ok (intText n) else .error .badNumber
  | .float d => .ok d.text

theorem numberText_int_eq_ok {n : Int} {text : String} (h : numberText (.int n) = .ok text) :
    (Nat.toDigits 10 n.natAbs).length ≤ Text.maxDigits ∧ text = intText n := by
  rw [numberText] at h
  split at h
  · next hshort =>
    cases h
    exact ⟨hshort, rfl⟩
  · cases h

end Literal

namespace Kind

/-- The text a string literal or an attribute string stands for, nothing for other kinds. -/
def stringValue : Kind → Except Fault (Option String)
  | .string raw _ => .ok (some (Literal.unescapeText raw))
  | .attributeString raw _ => (Literal.references raw).map some
  | _ => .ok none

/-- The number a number text stands for. Underscores between the digits do not count. -/
def numberValue (s : String) : Except Fault Number :=
  match Number.read? (Text.replace s "_" "") with
  | some n => .ok n
  | none => .error .badNumber

/-- Whether the node is a literal. -/
def isLiteral : Kind → Bool
  | .string .. | .attributeString .. | .template _ | .number _ | .boolean _ | .null => true
  | _ => false

/-- The value a literal stands for, nothing for other kinds. -/
def literalValue : Kind → Except Fault Datum
  | .string raw _ => .ok (.str (Literal.unescapeText raw))
  | .attributeString raw _ => (Literal.references raw).map .str
  | .template raw => .ok (.str (Literal.unescapeText raw))
  | .number s => (numberValue s).map .ofNumber
  | .boolean b => .ok (.bool b)
  | _ => .ok .null

/-- The name of a property, without quotes. -/
def keyName (key : String) : String :=
  if Text.startsWith key "\"" || Text.startsWith key "'" then Text.inner key else key

end Kind

namespace Node

/-- The value of a literal; any other expression gives its text. -/
def expressionValue (n : Node) : Except Fault Datum := do
  let text ← n.writeChecked
  if n.kind.isLiteral then n.kind.literalValue else return .str text

/-- The name of a property. -/
def propertyName? (n : Node) : Option String :=
  match n.kind with
  | .property key .. => some (Kind.keyName key)
  | _ => none

/-- The value of a property: nothing if it has no child. -/
def propertyValue (n : Node) : Except Fault Datum :=
  match n.value? with
  | none => .ok .null
  | some v => v.expressionValue

/-- An expression that is no literal, as an attribute value. -/
def expressionEntry (text : String) : Datum := .dict [("expression", .str text)]

/-- The value of an attribute: `true` if it has none, the value of a literal, or the text of another
expression under the key `expression`. -/
def attributeValue (n : Node) : Except Fault Datum := do
  match n.value? with
  | none => return .bool true
  | some v =>
    let expression := match v.kind with
      | .slot .. => v.value?
      | _ => some v
    match ← v.kind.stringValue, expression with
    | some s, _ => return .str s
    | none, none => return expressionEntry ""
    | none, some e =>
      if e.kind.isLiteral then e.kind.literalValue else return expressionEntry (← e.writeChecked)

/-- The name of the attribute that identifies an element. -/
def identityName : String := "data-editable"

/-- The identity of an element: the text of its identity attribute, if that is a string. -/
def identity (n : Node) : Except Fault (Option String) :=
  match (n.attr? identityName).bind (·.value?) with
  | none => .ok none
  | some v => v.kind.stringValue

/-- The identity of an element, none for other nodes. -/
def elementIdentity (n : Node) : Except Fault (Option String) :=
  if n.kind.isElement then n.identity else .ok none

end Node
end JsxEdit
