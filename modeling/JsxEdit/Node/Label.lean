import JsxEdit.Node.Span

/-
Labels: one line that shows the kind of a node, its head, how many nodes are directly below it, and where it
was read.
-/
set_option autoImplicit false

namespace JsxEdit

/-- The head in a label; kinds with a fixed head show none. -/
def Kind.labelHead : Kind → Option String
  | .fragment | .slot .. | .spread _ | .null | .object _ => none
  | k =>
    match k.head with
    | .str s => some (Text.abbreviated s)
    | .bool b => some (if b then "True" else "False")
    | _ => none

namespace Node

/-- How many nodes are directly below, as a label shows it. -/
def labelCount (count : Nat) : Option String :=
  if count == 0 then none
  else some ("(" ++ intText count ++ (if count == 1 then " child)" else " children)"))

/-- A position in a label. -/
def labelSpan (first last : Option Nat) : Option String :=
  first.map fun a => "[" ++ intText a ++ ":" ++ (last.elim "None" fun b => intText b) ++ "]"

/-- The label; a position that cannot be found is left out. -/
def label (n : Node) : String :=
  match n.kind with
  | .foreign value => value.quoted
  | k =>
    let span := match n.start, n.stop with
      | .ok first, .ok last => labelSpan first last
      | _, _ => none
    let parts := [k.labelHead, labelCount (n.attributes.length + n.children.length), span]
    "<" ++ Text.join " " (("jsx." ++ k.name) :: parts.filterMap id) ++ ">"

/-- The label, or the fault met while looking for the position. -/
def labelChecked (n : Node) : Except Fault String := do
  if n.isForeign then return n.label
  let first ← n.start
  if first.isSome then let _ ← n.stop
  return n.label

end Node

/-- A value as messages quote it. -/
def Value.quotedText (v : Value Node) : String := v.quoted Node.label

/-- A value within a sentence. -/
def Value.shownText (v : Value Node) : String := v.shown Node.label

end JsxEdit
