import JsxEdit.Build
import JsxEdit.Edit.Insert
import JsxEdit.Edit.Outcome
import JsxEdit.Edit.Place

/-
Changing the text, the attributes, the tag name and the children of elements.
-/
set_option autoImplicit false

namespace JsxEdit.Edit

/-- The nodes for a text with white space around it. -/
def textNodes (s lead trail : String) : List Node :=
  let n := Build.text s
  if n.kind.isText then [.text (lead ++ s ++ trail)]
  else
    (if lead.isEmpty then [] else [.text lead]) ++ n :: (if trail.isEmpty then [] else [.text trail])

/-- What takes the place of a child that holds text, and the text it held; nothing for a child that holds none. -/
def replaceText (s : String) (n : Node) : Except Fault (Option (List Node × String)) :=
  match n.kind with
  | .text old =>
    if Text.isBlank old then .ok none
    else .ok (some (textNodes s (Text.lead old) (Text.trail old), Text.trim old))
  | .slot .. =>
    match n.children with
    | [] => .ok none
    | e :: rest =>
      let changed (k : Kind) : List Node := [n.withChildren (e.withKind k :: rest)]
      match e.kind with
      | .identifier _ | .member _ => do
        return some (textNodes s "" "", "\x7b" ++ (← e.writeChecked) ++ "\x7d")
      | .string raw quote =>
        .ok (some (changed (.string (Literal.rawString s quote) quote), Literal.unescapeText raw))
      | .attributeString raw quote => do
        let old ← Literal.references raw
        let (new, _) ← Literal.attributeText s quote
        return some (changed (.attributeString new quote), old)
      | .template raw => .ok (some (changed (.template (Literal.rawTemplate s)), Literal.unescapeText raw))
      | _ => .ok none
  | _ => .ok none

/-- The children with the first text among them replaced, and the old text. -/
def replaceFirstText (s : String) : List Node → Except Fault (Option (List Node × String))
  | [] => .ok none
  | n :: ns => do
    match ← replaceText s n with
    | some (new, old) => return some (new ++ ns, old)
    | none => return (← replaceFirstText s ns).map fun (ns, old) => (n :: ns, old)

/-- The tree with a text added to the element at the place: on a line of its own if there are line breaks between
the children. -/
def addText (tree : Node) (v : Visit) (s : String) : Except Fault Node := do
  let n := Build.text s
  if v.node.children.any (·.isLineBreak) then
    Indent.reachChild tree (some v.path) v.node
    return adopt tree v.path (appendChild Indent.defaultWidth tree (some v.path) v.node n).children
  else return adopt tree v.path (v.node.children ++ [n])

/-- Sets the text of the element with the identity. -/
def updateText (tree : Node) (id s : String) : Reply :=
  match tree.findId id with
  | .error f => .fault tree f
  | .ok none => .notFound tree id [("old_text", .null)]
  | .ok (some v) =>
    let done (tree : Node) (old : String) : Reply :=
      .succeeded tree ("Text updated for \"" ++ id ++ "\"") [("old_text", .str old)]
    match replaceFirstText s v.node.children with
    | .error f => .fault tree f
    | .ok (some (children, old)) => done (tree.modify (·.withChildren children) v.path) old
    | .ok none =>
      match addText tree v s with
      | .error f => .fault tree f
      | .ok tree => done tree ""

/-- What is wrong with an attribute value: it cannot be used, or it is an identity in use by another element than
the one at the place. -/
def valueProblem (tree : Node) (place : Path) (name : String) (v : Value Node) :
    Except Fault (Option String) := do
  if !Build.isAbsent v then
    match Build.attributeValue v with
    | .error (.unusable value role) => return some (Fault.unusable value role).message
    | .error f => throw f
    | .ok _ => pure ()
  match v with
  | .str s =>
    if name == Node.identityName then
      match ← tree.findId s with
      | some w =>
        if w.path != place then return some ("Duplicate " ++ name ++ " value: " ++ s) else return none
      | none => return none
    else return none
  | _ => return none

/-- The attributes with one set, added or removed, and its old value. -/
def setAttribute (as : List Node) (name : String) (v : Value Node) :
    Except Fault (List Node × Value Node) := do
  match Node.attrIndex? as name with
  | none =>
    if Build.isAbsent v then return (as, .null)
    else return (as ++ [.attr name (← Build.attributeValue v)], .null)
  | some i =>
    let old ← (as[i]?.getD default).attributeValue
    if Build.isAbsent v then return (as.eraseIdx i, .ofDatum old)
    else
      let new ← Build.attributeValue v
      return (as.modify i (·.withChildren new.toList), .ofDatum old)

/-- Sets the attributes one after the other. A fault leaves those set that came before it. -/
def setAttributes (as : List Node) (old : Dict (Value Node)) :
    Dict (Value Node) → List Node × Except Fault (Dict (Value Node))
  | [] => (as, .ok old)
  | (name, v) :: rest =>
    match setAttribute as name v with
    | .error f => (as, .error f)
    | .ok (as, value) => setAttributes as (old.put name value) rest

/-- The first problem with the attributes to set. -/
def attributesProblem (tree : Node) (place : Path) : Dict (Value Node) → Except Fault (Option String)
  | [] => .ok none
  | (name, v) :: rest => do
    if !isAttrName name then return some ("Invalid attribute name: " ++ Text.quoted name)
    match ← valueProblem tree place name v with
    | some problem => return some problem
    | none => attributesProblem tree place rest

/-- Sets, adds or removes an attribute of the element with the identity. -/
def updateAttribute (tree : Node) (id : String) (name : Value Node) (v : Value Node) : Reply :=
  match tree.findId id with
  | .error f => .fault tree f
  | .ok none => .notFound tree id [("old_value", .null)]
  | .ok (some w) =>
    let bad := Reply.invalid tree ("Invalid attribute name: " ++ name.quotedText) [("old_value", .null)]
    match name with
    | .str name =>
      if !isAttrName name then bad
      else
        match valueProblem tree w.path name v with
        | .error f => .fault tree f
        | .ok (some problem) => .invalid tree problem [("old_value", .null)]
        | .ok none =>
          match setAttribute w.node.attributes name v with
          | .error f => .fault tree f
          | .ok (as, old) =>
            let verb := if Build.isAbsent v then "\" removed from \"" else "\" updated on \""
            .succeeded (tree.modify (·.withAttributes as) w.path) ("Attribute \"" ++ name ++ verb ++ id ++ "\"")
              [("old_value", old)]
    | _ => bad

/-- Sets, adds or removes several attributes of the element with the identity. -/
def updateAttributes (tree : Node) (id : String) (values : Dict (Value Node)) : Reply :=
  let none' : Dict (Value Node) := [("old_values", .dict [])]
  match tree.findId id with
  | .error f => .fault tree f
  | .ok none => .notFound tree id none'
  | .ok (some w) =>
    match attributesProblem tree w.path values with
    | .error f => .fault tree f
    | .ok (some problem) => .invalid tree problem none'
    | .ok none =>
      let (as, old) := setAttributes w.node.attributes [] values
      let tree := tree.modify (·.withAttributes as) w.path
      match old with
      | .error f => .fault tree f
      | .ok old =>
        .succeeded tree ("Updated " ++ intText values.length ++ " attributes on \"" ++ id ++ "\"")
          [("old_values", .dict old)]

/-- The element under another tag name; the closing tag follows. -/
def renamed (name : String) (n : Node) : Node :=
  match n.kind with
  | .element _ selfClosing spaceEnd _ => n.withKind (.element name selfClosing spaceEnd none)
  | _ => n

/-- Changes the tag name of the element with the identity. -/
def updateTagName (tree : Node) (id : String) (name : Value Node) : Reply :=
  match tree.findId id with
  | .error f => .fault tree f
  | .ok none => .notFound tree id [("old_tag_name", .null)]
  | .ok (some v) =>
    let bad := Reply.invalid tree ("Invalid tag name: " ++ name.quotedText) [("old_tag_name", .null)]
    match name with
    | .str name =>
      if !isTagName name then bad
      else
        let old := v.node.kind.head
        .succeeded (tree.modify (renamed name) v.path)
          ("Tag name changed from \"" ++ old.shown ++ "\" to \"" ++ name ++ "\" on \"" ++ id ++ "\"")
          [("old_tag_name", .ofDatum old)]
    | _ => bad

/-- A new child: a text, or a node that can stand between tags. A node that is in the tree is copied. -/
def newChild (tree : Node) : Value Node → Option Node
  | .str s => some (Build.text s)
  | .node n =>
    match n.kind with
    | .element .. | .fragment | .text _ | .slot .. => some (fresh tree n)
    | _ => none
  | _ => none

/-- The new children, or the first value that cannot be one. -/
def newChildren (tree : Node) : List (Value Node) → Except (Value Node) (List Node)
  | [] => .ok []
  | v :: vs =>
    match newChild tree v with
    | none => .error v
    | some n => do return n :: (← newChildren tree vs)

/-- The places of the children of the visited node. -/
def childPlaces (v : Visit) : List Path :=
  (List.range v.node.children.length).map fun i => v.path ++ [.child i]

/-- Replaces the children of the element with the identity. -/
def replaceChildren (tree : Node) (id : String) (children : Value Node) : Reply :=
  match tree.findId id with
  | .error f => .fault tree f
  | .ok none => .notFound tree id []
  | .ok (some v) =>
    match Template.items children with
    | .error f => .fault tree f
    | .ok children =>
      match newChildren tree children with
      | .error bad => .invalid tree ("Can't use " ++ bad.quotedText ++ " as child") []
      | .ok nodes =>
        match identityConflicts tree nodes (childPlaces v) with
        | .error f => .fault tree f
        | .ok [] =>
          let tree := tree.modify (fun n => if nodes.isEmpty then n.withChildren [] else n.opened.withChildren nodes)
            v.path
          .succeeded tree ("Children replaced for \"" ++ id ++ "\"") []
        | .ok ids => .duplicate tree ids

end JsxEdit.Edit
