import JsxEdit.Build
import JsxEdit.Log
import JsxEdit.Source.Read
import JsxEdit.Text.Case

/-
Templates: new elements by name and options.

An element is specified by a node, by the name of a template, or by a markup snippet. Names of templates and
options may be written with capitals or with underscores.
-/
set_option autoImplicit false

namespace JsxEdit

/-- Options by name. -/
abbrev Options := Dict (Value Node)

/-- A new node, and the records on the way to it. -/
abbrev Built := Except Fault (Node × List Record)

/-- A template: its own name, the options it knows, and how it builds its node from those given. The first argument of
`build` makes nodes of texts that look like markup. -/
structure Template where
  name : String
  parameters : List String
  build : (String → Built) → Options → Built

/-- Templates by the names they are registered under. -/
abbrev Registry := Dict Template

namespace Template

/-- The value of an option, or its default. -/
def option (options : Options) (name : String) (default : Value Node) : Value Node :=
  (Dict.get? options name).getD default

/-- The identity attribute, if an identity is given. -/
def identity (v : Value Node) : Dict (Value Node) := if v.isTruthy then [(Node.identityName, v)] else []

/-- The value, or nothing if it does not count as given. -/
def given (v : Value Node) : Value Node := if v.isTruthy then v else .null

/-- A text with more text after it; only texts can be extended. -/
def extended (v : Value Node) (suffix : String) : Except Fault (Value Node) :=
  match v with
  | .str s => .ok (.str (s ++ suffix))
  | _ => .error .wrongType

/-- The identity made of a first part and the rest. -/
def partIdentity (v : Value Node) (suffix : String) : Except Fault (Dict (Value Node)) := do
  return identity (← extended v suffix)

/-- The items of a value that is gone through one by one. -/
def items : Value Node → Except Fault (List (Value Node))
  | .list vs => .ok vs
  | .str s => .ok (s.toList.map fun c => .str (.ofList [c]))
  | .dict entries => .ok (entries.map fun (k, _) => .str k)
  | .node n => .ok (n.children.map .node)
  | _ => .error .wrongType

/-- The element or fragment of a markup snippet. -/
def snippet (s : String) : Except Fault Node :=
  match Source.snippet s with
  | .ok n => .ok n
  | .error e => .error (.template ("Invalid markup snippet: " ++ e.message))

/-- Whether the text is meant as a markup snippet. -/
def looksLikeMarkup (s : String) : Bool := Text.startsWith (Text.trimStart s) "<"

/-- Whether the value is a level of headings. -/
def isLevel : Value Node → Bool
  | .int n => 1 ≤ n && n ≤ 6
  | .bool b => b
  | .float d => d.toInt?.any fun n => 1 ≤ n && n ≤ 6
  | _ => false

/-- A template that does not look into texts. -/
def plain (name : String) (parameters : List String) (build : Options → Except Fault Node) : Template where
  name := name
  parameters := parameters
  build _ options := do return (← build options, [])

/-- A heading of a level from 1 to 6. -/
def heading : Template :=
  plain "heading" ["text", "level", "editable_id"] fun options => do
    let level := option options "level" (.int 1)
    if !isLevel level then
      throw (.template ("Heading level must be between 1 and 6, not " ++ level.shownText))
    Build.element ("h" ++ level.shownText) [option options "text" (.str "Heading")]
      (identity (option options "editable_id" .null))

/-- An element that holds a text and nothing else. -/
def simple (name tag text : String) : Template :=
  plain name ["text", "editable_id"] fun options =>
    Build.element tag [option options "text" (.str text)] (identity (option options "editable_id" .null))

/-- A button. -/
def button : Template :=
  plain "button" ["text", "editable_id", "class_name"] fun options =>
    Build.element "button" [option options "text" (.str "Click me")]
      (("className", given (option options "class_name" .null)) ::
        identity (option options "editable_id" .null))

/-- A link. -/
def link : Template :=
  plain "link" ["text", "href", "editable_id"] fun options =>
    Build.element "a" [option options "text" (.str "Link text")]
      (("href", option options "href" (.str "#")) :: identity (option options "editable_id" .null))

/-- An image. -/
def image : Template :=
  plain "image" ["src", "alt", "editable_id"] fun options =>
    Build.element "img" []
      (("src", option options "src" (.str "/placeholder.jpg")) ::
        ("alt", option options "alt" (.str "Image")) :: identity (option options "editable_id" .null))

/-- The children of a container: texts that look like markup are made nodes, other texts stay texts, and all other values
stay as they are. -/
def containerChildren (make : String → Built) : List (Value Node) → Except Fault (List (Value Node) × List Record)
  | [] => .ok ([], [])
  | v :: vs => do
    let (child, log) ← match v with
      | .str s =>
        if looksLikeMarkup s then (make s).map fun (n, log) => (Value.node n, log)
        else .ok (.node (Build.text s), [])
      | v => .ok (v, [])
    let (rest, log') ← containerChildren make vs
    return (child :: rest, log ++ log')

/-- An element that holds given children. -/
def container (tag : String) : Template where
  name := tag
  parameters := ["children", "class_name", "editable_id"]
  build make options := do
    let (children, log) ← containerChildren make (← items (option options "children" (.list [])))
    let node ← Build.block tag children (("className", given (option options "class_name" .null)) ::
      identity (option options "editable_id" .null))
    return (node, log)

/-- A section with a title, a subtitle and a button. -/
def heroSection : Template :=
  plain "hero_section" ["title", "subtitle", "cta_text", "editable_prefix"] fun options => do
    let p := option options "editable_prefix" (.str "hero")
    let title ← Build.element "h1" [option options "title" (.str "Hero Title")] (← partIdentity p "Title")
    let subtitle ← Build.element "p" [option options "subtitle" (.str "Hero subtitle")]
      (← partIdentity p "Subtitle")
    let action ← Build.element "button" [option options "cta_text" (.str "Get Started")]
      (← partIdentity p "CTA")
    Build.block "section" [.node title, .node subtitle, .node action]
      (("className", .str "hero") :: (← partIdentity p "Section"))

/-- A box with a title and a description. -/
def card : Template :=
  plain "card" ["title", "description", "editable_prefix"] fun options => do
    let p := option options "editable_prefix" (.str "card")
    let title ← Build.element "h3" [option options "title" (.str "Card Title")] (← partIdentity p "Title")
    let description ← Build.element "p" [option options "description" (.str "Card description")]
      (← partIdentity p "Description")
    Build.block "div" [.node title, .node description] (("className", .str "card") :: identity p)

/-- A box with a title, a description and perhaps an icon before them. -/
def featureItem : Template :=
  plain "feature_item" ["title", "description", "icon", "editable_prefix"] fun options => do
    let p := option options "editable_prefix" (.str "feature")
    let title ← Build.element "h4" [option options "title" (.str "Feature")] (← partIdentity p "Title")
    let description ← Build.element "p" [option options "description" (.str "Feature description")]
      (← partIdentity p "Description")
    let icon := option options "icon" .null
    let children := [.node title, .node description]
    let children ← if icon.isTruthy then do
        let span ← Build.element "span" [icon] (("className", .str "feature-icon") :: (← partIdentity p "Icon"))
        pure (.node span :: children)
      else pure children
    Build.block "div" children (("className", .str "feature-item") :: identity p)

/-- Registers a template; without a name it goes under its own. -/
def register (registry : Registry) (name : Option String) (t : Template) : Registry :=
  let name := name.getD ""
  registry.put (Text.snakeCase (if name.isEmpty then t.name else name)) t

/-- The templates that are always there. -/
def builtin : Registry :=
  [heading, simple "paragraph" "p" "Paragraph text", simple "span" "span" "Span text", button, link, image,
    container "div", container "section", heroSection, card, featureItem].foldl (register · none ·) []

/-- The template with this name. -/
def get? (registry : Registry) (name : String) : Option Template := Dict.get? registry (Text.snakeCase name)

/-- The names of all templates in order. -/
def names (registry : Registry) : List String := (registry.map (·.1)).mergeSort (fun a b => !(b < a))

/-- The node a template builds; options it does not know are refused. -/
def call (make : String → Built) (spec : String) (t : Template) (options : Options) : Built := do
  let options := Dict.rename Text.snakeCase options
  match options.find? fun (k, _) => !t.parameters.contains k with
  | some (k, _) =>
    throw (.template ("Invalid options for template " ++ spec ++ ": got an unexpected keyword argument " ++
      Text.quoted k))
  | none =>
    let (node, log) ← t.build make options
    let message := "created <" ++ node.kind.head.shown ++ "> from template " ++ spec
    return (node, log ++ [⟨.debug, .templates, message⟩])

/-- The node for an element specification, where `make` makes nodes of the texts in its options that look like
markup. -/
def resolveWith (make : String → Built) (registry : Registry) (spec : Value Node) (options : Options) : Built :=
  match spec with
  | .node n => .ok (n, [])
  | .str s =>
    match get? registry s with
    | some t => call make s t options
    | none =>
      if looksLikeMarkup s then (snippet s).map (·, [])
      else .error (.template ("Unknown template: " ++ s))
  | v => .error (.template ("Can't create an element from " ++ v.quotedText))

/-- The node for a text within the options of a template. A template of that name is called without options, and so has
no texts to look into. -/
def resolvePart (registry : Registry) (s : String) : Built :=
  resolveWith (fun t => (snippet t).map (·, [])) registry (.str s) []

/-- The node for an element specification. -/
def resolve (registry : Registry) (spec : Value Node) (options : Options) : Built :=
  resolveWith (resolvePart registry) registry spec options

/-- An element by its tag name, which has to be valid. -/
def createElement (tag : Value Node) (children : List (Value Node)) (attrs : Dict (Value Node)) :
    Except Fault Node := do
  let bad := Fault.template ("Invalid tag name: " ++ tag.quotedText)
  if attrs.has Build.tagArgument then throw .wrongType
  match tag with
  | .str s => if isTagName s then Build.namedElement tag children attrs else throw bad
  | _ => throw bad

/-- An element with every child on a line of its own, by its tag name. -/
def createBlock (tag : Value Node) (children : List (Value Node)) (attrs : Dict (Value Node)) :
    Except Fault Node := do
  if attrs.has Build.tagArgument then throw .wrongType
  Build.namedElement tag (Build.onLines children) attrs

end Template
end JsxEdit
