import JsxEdit.Node.Walk
import JsxEdit.Source.Markup
import JsxEdit.Text.Line

/-
Reading documents and snippets. Nodes of a document know where they were read; nodes of a snippet do not, since
they are to be put into other documents.
-/
set_option autoImplicit false

namespace JsxEdit.Source

/-- The document for a source text, with invalid nodes where it is not valid markup. -/
def document (text : String) : Node := .new (.document none) (Markup.nodes text)

/-- The same document without any record of where its nodes were read. -/
def plainDocument (text : String) : Node := (document text).withoutOrigin

/-- The first element or fragment of a document. -/
def firstMarkup? (document : Node) : Option Node := document.descendants.find? (·.kind.isMarkup)

/-- The error of an invalid node; the positions are those of `text` moved on by `offset`. -/
def errorOf (text : String) (offset : Nat) (reason : String) (position : Option Int) : ParseError :=
  ⟨reason, position.map fun (p : Int) =>
    let pos := (p - (offset : Int)).toNat
    ⟨pos, Text.lineColumn text (pos : Int)⟩⟩

/-- The error of the first invalid node below the tree. -/
def error? (text : String) (offset : Nat) (tree : Node) : Option ParseError :=
  tree.descendants.findSome? fun n =>
    match n.kind with
    | .invalid reason position => some (errorOf text offset reason position)
    | _ => none

/-- The document of a source text that is valid markup; it keeps the text. -/
def parse (text : String) : Except ParseError Node :=
  match error? text 0 (document text) with
  | some e => .error e
  | none => .ok ((document text).withKind (.document (some text)))

/-- The single element or fragment in the content of a fragment; only white space may stand beside it. -/
def singleRoot (nodes : List Node) : Except ParseError Node :=
  match nodes.filter fun n => !n.isWhitespace with
  | [] => .error ⟨"Snippet contains no markup", none⟩
  | [n] => if n.kind.isMarkup then .ok n else .error ⟨"Snippet root must be an element or fragment", none⟩
  | roots =>
    .error ⟨"Snippet must have a single root element, found " ++ intText roots.length, none⟩

/-- The single element or fragment of a snippet. The snippet is read as the content of a fragment. -/
def snippet (text : String) : Except ParseError Node :=
  let tree := plainDocument ("(<>" ++ text ++ "</>)")
  match error? text 3 tree with
  | some e => .error e
  | none =>
    match tree.children with
    | [a, b, c] =>
      match [a, b, c].filter fun n => n.kind.name == "Fragment" with
      | [f] => singleRoot f.children
      | _ => .error ⟨"Snippet is not valid markup", none⟩
    | _ => .error ⟨"Snippet is not valid markup", none⟩

end JsxEdit.Source
