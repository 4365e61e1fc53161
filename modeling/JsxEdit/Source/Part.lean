import JsxEdit.Source.Expression
import JsxEdit.Source.Piece

/-
Expressions between brackets. The pieces of a source become parts: tokens, finished nodes, and groups, which are
the bracketed parts of expressions and template literals.

For each group it is worked out once which expression its inside is, and whether it can be seen as an object
literal: properties with a plain key, a colon and a value, divided by commas.
-/
set_option autoImplicit false

namespace JsxEdit

/-- A token or a finished node. -/
inductive Leaf where
  | token (t : Token)
  | node (n : Node)

namespace Leaf

/-- The token, if it is one. -/
def token? : Leaf → Option Token
  | .token t => some t
  | .node _ => none

/-- The text of a list of tokens; nothing if there are nodes among them. -/
def tokenText? (leaves : List Leaf) : Option String :=
  (leaves.mapM token?).map fun ts => Text.join "" (ts.map (·.text))

/-- The piece of code made of the tokens. -/
def codeNode (tokens : List Token) : Node :=
  let span := do return ⟨(← tokens.head?).pos, (← tokens.getLast?).stop⟩
  .mk (.code (some (Text.join "" (tokens.map (·.text))))) { head := span } [] []

/-- Code and nodes: adjacent tokens make one piece of code. `pending` are the tokens of the current piece, last
one first. -/
def codeFrom (pending : List Token) : List Leaf → List Node
  | [] => if pending.isEmpty then [] else [codeNode pending.reverse]
  | .token t :: leaves => codeFrom (t :: pending) leaves
  | .node n :: leaves =>
    if pending.isEmpty then n :: codeFrom [] leaves
    else codeNode pending.reverse :: n :: codeFrom [] leaves

/-- Code and nodes: adjacent tokens make one piece of code. -/
def code (leaves : List Leaf) : List Node := codeFrom [] leaves

end Leaf

/-- An expression with the white space around it; there is no node if there is nothing but white space. -/
structure Reading where
  lead : String
  node : Option Node
  trail : String

/-- A bracketed part of an expression. -/
structure Group where
  head : Token
  inside : List Leaf
  tail : Option Token
  /-- The expression that the inside is. -/
  reading : Reading
  /-- The inside seen as an object literal. -/
  object : Option Node

/-- All tokens and nodes of a group, its brackets included. -/
def Group.leaves (g : Group) : List Leaf := .token g.head :: g.inside ++ (g.tail.map Leaf.token).toList

/-- A part of a source. -/
inductive Part where
  | leaf (l : Leaf)
  | group (g : Group)
  /-- What is between the tags of an element, and the closing tag. -/
  | content (nodes : List Node) (close : Option Token)

namespace Part

/-- The token, if the part is one. -/
def token? : Part → Option Token
  | .leaf l => l.token?
  | _ => none

/-- The tokens and nodes of the part. -/
def leaves : Part → List Leaf
  | .leaf l => [l]
  | .group g => g.leaves
  | .content .. => []

/-- The tokens and nodes of the parts. -/
def allLeaves (parts : List Part) : List Leaf := parts.flatMap leaves

/-- Whether the part is a token of white space only. -/
def isBlank (p : Part) : Bool := p.token?.any fun t => Text.isBlank t.text

/-- Whether the part is the separator. -/
def isSeparator (text : String) (p : Part) : Bool :=
  p.token?.any fun t => t.kind == .separator && t.text == text

/-- The object literal that the parts are, apart from white space. -/
def object? (parts : List Part) : Option Node :=
  match parts.filter fun p => !p.isBlank with
  | [.group g] => if g.head.text == "\x7b" && g.tail.isSome then g.object else none
  | _ => none

/-- The expression that the parts are. With markup in it, it is a script. -/
def reading (parts : List Part) : Reading :=
  match Leaf.tokenText? (allLeaves parts) with
  | none => ⟨"", some (.new .script (Leaf.code (allLeaves parts))), ""⟩
  | some text =>
    if Text.isBlank text then ⟨text, none, ""⟩
    else ⟨Text.lead text, some ((object? parts).getD (Expression.ofText text)), Text.trail text⟩

/-- The lists between the parts with the property. -/
def splitOn (p : Part → Bool) : List Part → List (List Part)
  | [] => [[]]
  | x :: xs =>
    if p x then [] :: splitOn p xs
    else
      match splitOn p xs with
      | [] => [[x]]
      | first :: rest => (x :: first) :: rest

/-- Whether the text is a quoted key: one pair of quotes with none of its kind between them. -/
def isQuotedKey (quote : Char) (cs : List Char) : Bool :=
  match cs with
  | [] => false
  | c :: rest => c == quote && rest.getLast? == some quote && !rest.dropLast.contains quote

/-- Whether the text can be the key of a property: a word or a quoted text. -/
def isKey (key : String) : Bool :=
  let cs := key.toList
  (!cs.isEmpty && cs.all Text.isNamePart) || isQuotedKey '"' cs || isQuotedKey '\'' cs

/-- The property that the parts are, and the white space after it. -/
def property? (parts : List Part) : Option (Node × String) := do
  let colon ← parts.findIdx? (isSeparator ":")
  let keyTokens ← (parts.take colon).mapM token?
  let keyText := Text.join "" (keyTokens.map (·.text))
  let key := Text.trim keyText
  if !isKey key then none
  let value := reading (parts.drop (colon + 1))
  let node ← value.node
  let between := Text.trail keyText ++ ":" ++ value.lead
  return (.new (.property key (Text.lead keyText) between) [node], value.trail)

/-- The properties between the commas, and what stands before the closing brace: the text after the last comma if
that is blank, or else the white space after the last property. -/
def asObject (parts : List Part) : Option Node := do
  let items := splitOn (isSeparator ",") parts
  let last := (items.getLast?.map allLeaves).bind Leaf.tokenText?
  let ended := last.filter Text.isBlank
  let items := if ended.isSome then items.dropLast else items
  let properties ← items.mapM property?
  let closing := match ended with
    | some space => (if items.isEmpty then "" else ",") ++ space
    | none => ""
  let trailing := if closing.isEmpty then (properties.getLast?.map (·.2)).getD "" else closing
  return .new (.object trailing) (properties.map (·.1))

/-- A group from its parts: the first is the opening bracket, the last may be a closing one. -/
def asGroup (closers : List String) (parts : List Part) : Part :=
  let tail := if parts.length > 1 then (parts.getLast?.bind token?).filter (closers.contains ·.text) else none
  let inside := if tail.isSome then (parts.drop 1).dropLast else parts.drop 1
  let head := (parts.head?.bind token?).getD ⟨.delimiter, 0, ""⟩
  .group ⟨head, allLeaves inside, tail, reading inside, asObject inside⟩

end Part
end JsxEdit
