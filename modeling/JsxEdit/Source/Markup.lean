import JsxEdit.Source.Part

/-
Elements, fragments and slots from their parts.

What cannot be read as markup becomes an invalid node with the reason and the position, in place of the element,
fragment or slot that it spoils.
-/
set_option autoImplicit false

namespace JsxEdit.Markup

/-- The range of the source from one token to another. -/
def spanOf (first last : Token) : Span := ⟨first.pos, last.stop⟩

/-- A place that is no markup. -/
def invalid (reason : String) (t : Token) : Node := .new (.invalid reason (some t.pos)) []

/-- The slot that a group in braces is. -/
def slot (g : Group) : Node :=
  match g.tail with
  | none => invalid "Unterminated expression" g.head
  | some tail =>
    .mk (.slot g.reading.lead g.reading.trail) ⟨some (spanOf g.head g.head), some (spanOf tail tail), none⟩ []
      g.reading.node.toList

/-- The spread attribute that a group in braces is. -/
def spread (space : String) (g : Group) : Except Node Node :=
  match g.tail with
  | none => .error (invalid "Unterminated expression" g.head)
  | some tail =>
    let text := (g.reading.node.map Node.write).getD ""
    if Text.startsWith text "..." then
      let script := match g.reading.node with
        | some n => if n.kind.name == "Script" then n else Expression.script text
        | none => Expression.script text
      .ok (.mk (.spread space) ⟨some (spanOf g.head g.head), some (spanOf tail tail), none⟩ [] [script])
    else .error (invalid "Expected '...' in spread attribute" g.head)

/-- The name in a closing tag. -/
def closingName (text : String) : String := Text.trim (.ofList ((Text.trim (Text.inner text)).toList.drop 1))

/-- What was read of an opening tag: the attributes, last one first, the white space and comments since then, and
whether the last attribute waits for its value. -/
structure Opening where
  attributes : List Node
  space : String
  waiting : Bool

/-- Gives the last attribute its value. -/
def Opening.giveValue (o : Opening) (value : Node) : Opening :=
  match o.attributes with
  | [] => { o with waiting := false }
  | a :: as => { o with attributes := a.withChildren (a.children ++ [value]) :: as, waiting := false }

/-- Whether an equals sign may follow: directly after the name of an attribute without value. -/
def Opening.takesValue (o : Opening) : Bool :=
  match o.attributes with
  | [] => false
  | a :: _ =>
    match a.kind with
    | .attr .. => a.children.isEmpty && o.space.isEmpty
    | _ => false

/-- A string as attribute value. -/
def stringValue (t : Token) : Node :=
  .mk (.attributeString (Text.inner t.text) (Text.first t.text)) { head := some (spanOf t t) } [] []

/-- Reads a token inside an opening tag. -/
def readToken (o : Opening) (t : Token) : Except Node Opening :=
  match t.kind with
  | .space | .comment => .ok { o with space := o.space ++ t.text }
  | .attrName =>
    if o.waiting then .error (invalid "Expected attribute value" t)
    else
      let attr : Node := .mk (.attr t.text o.space) { head := some (spanOf t t) } [] []
      .ok { o with attributes := attr :: o.attributes, space := "" }
  | .equals => if o.takesValue then .ok { o with waiting := true } else .error (invalid "Unexpected '='" t)
  | .doubleQuoted | .singleQuoted =>
    if o.waiting then .ok (o.giveValue (stringValue t)) else .error (invalid "Unexpected string" t)
  | _ =>
    if t.text == "/>" || t.text == ">" then
      if o.waiting then .error (invalid "Expected attribute value" t) else .ok o
    else .error (invalid ("Invalid character in tag: " ++ Text.quoted t.text) t)

/-- Goes through the parts of an element after its name. -/
def elementFrom (angle name : Token) (o : Opening) : List Part → Node
  | [] => invalid ("Unterminated tag <" ++ name.text ++ ">") angle
  | .leaf (.token t) :: parts =>
    match readToken o t with
    | .error node => node
    | .ok o =>
      if t.kind == .delimiter && t.text == "/>" then
        .mk (.element name.text true o.space none) ⟨some (spanOf angle name), some (spanOf t t), none⟩
          o.attributes.reverse []
      else elementFrom angle name o parts
  | .group g :: parts =>
    if o.waiting then elementFrom angle name (o.giveValue (slot g)) parts
    else
      match spread o.space g with
      | .error node => node
      | .ok attr => elementFrom angle name { o with attributes := attr :: o.attributes, space := "" } parts
  | .content nodes close :: _ =>
    match close with
    | none => invalid ("Unclosed element <" ++ name.text ++ ">") angle
    | some close =>
      if closingName close.text == name.text then
        .mk (.element name.text false o.space (some name.text))
          ⟨some (spanOf angle name), some (spanOf close close), none⟩ o.attributes.reverse nodes
      else invalid ("Expected closing tag </" ++ name.text ++ ">, found " ++ close.text) close
  | .leaf (.node _) :: parts => elementFrom angle name o parts

/-- The element that the parts are; they start with the angle and the name. -/
def element : List Part → Node
  | .leaf (.token angle) :: .leaf (.token name) :: parts => elementFrom angle name ⟨[], "", false⟩ parts
  | _ => .new (.invalid "" none) []

/-- The nodes between tags. -/
def contentNode : Part → List Node
  | .leaf (.token t) =>
    if t.kind == .text then [.mk (.text t.text) { head := some (spanOf t t) } [] []]
    else [invalid ("Unexpected " ++ Text.quoted t.text) t]
  | .leaf (.node n) => [n]
  | .group g => [slot g]
  | .content .. => []

/-- The closing tag, if the parts end with it. -/
def closeTag? (parts : List Part) : Option Token :=
  (parts.getLast?.bind Part.token?).filter (·.kind == .delimiter)

/-- The nodes between tags and the closing tag. -/
def content (parts : List Part) : List Node × Option Token :=
  match closeTag? parts with
  | some t => (parts.dropLast.flatMap contentNode, some t)
  | none => (parts.flatMap contentNode, none)

/-- The fragment that the parts are; they start with its opening tag. -/
def fragment : List Part → Node
  | .leaf (.token head) :: parts =>
    match content parts with
    | (_, none) => invalid "Unclosed fragment" head
    | (nodes, some close) =>
      if closingName close.text == "" then
        .mk .fragment ⟨some (spanOf head head), some (spanOf close close), none⟩ [] nodes
      else invalid ("Expected closing tag </>, found " ++ close.text) close
  | _ => .new (.invalid "" none) []

/-- The part that a stretch of the source is. -/
def assemble (mode : Mode) (parts : List Part) : Part :=
  match mode with
  | .tag => .leaf (.node (element parts))
  | .fragment => .leaf (.node (fragment parts))
  | .content => let (nodes, close) := content parts; .content nodes close
  | .braces => Part.asGroup ["\x7d"] parts
  | .group => Part.asGroup [")", "]"] parts
  | .template => Part.asGroup ["`"] parts
  | .script | .markup => .content [] none

mutual

/-- The part that a piece of the source is. -/
def part : Piece → Part
  | .token t => .leaf (.token t)
  | .stretch mode items => assemble mode (allParts items)

/-- The parts that pieces of the source are. -/
def allParts : List Piece → List Part
  | [] => []
  | p :: ps => part p :: allParts ps

end

/-- The children of the document for a source text: code and markup. -/
def nodes (text : String) : List Node := Leaf.code (Part.allLeaves (allParts (Piece.ofText text)))

end JsxEdit.Markup
