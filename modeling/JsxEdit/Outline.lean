import JsxEdit.Fault
import JsxEdit.Node.Label
import JsxEdit.Text.Replace

/-
Outlines: trees of one-line labels, drawn with lines that show what is below what.
-/
set_option autoImplicit false

namespace JsxEdit

/-- A tree of labels. -/
inductive Outline where
  | mk (label : String) (below : List Outline)

namespace Outline

/-- How the lines are drawn: beside and after the items of a list, and before its items, the last one apart. -/
structure Style where
  beside : String
  beyond : String
  item : String
  lastItem : String
  deriving DecidableEq, Repr

/-- The styles by name. -/
def styles : Dict Style :=
  [("ascii", ⟨" | ", "   ", " |-", " `-"⟩),
   ("round", ⟨" │ ", "   ", " ├╴", " ╰╴"⟩),
   ("square", ⟨" │ ", "   ", " ├╴", " └╴"⟩),
   ("double", ⟨" ║ ", "   ", " ╠═", " ╚═"⟩),
   ("thick", ⟨" ┃ ", "   ", " ┣╸", " ┗╸"⟩),
   ("flat", ⟨"│", " ", "├", "╰"⟩)]

/-- The style with this name; without a name, the round one. -/
def style (name : String) : Except Fault Style :=
  match styles.get? (if name.isEmpty then "round" else name) with
  | some s => .ok s
  | none => .error .noEntry

mutual

/-- The lines of an item and of all below it, after the lines of the items around it. -/
def drawItem (style : Style) (margin : String) (last : Bool) : Outline → String
  | .mk label below =>
    margin ++ (if last then style.lastItem else style.item) ++ label ++ "\n" ++
      drawItems style (margin ++ if last then style.beyond else style.beside) below

/-- The lines of the items. -/
def drawItems (style : Style) (margin : String) : List Outline → String
  | [] => ""
  | [o] => drawItem style margin true o
  | o :: p :: os => drawItem style margin false o ++ drawItems style margin (p :: os)

end

/-- The drawing of the whole outline. -/
def draw (style : Style) : Outline → String
  | .mk label below => label ++ "\n" ++ drawItems style "" below

end Outline

namespace Node

mutual

/-- The labels of the node and of all below it. -/
def outline : Node → Except Fault Outline
  | .mk k i as cs => do
    if k.isForeign then throw .noMember
    let label ← labelChecked (.mk k i as cs)
    let attributes ← outlines as
    let children ← outlines cs
    return .mk label (attributes ++ children)

/-- The labels of the nodes and of all below them. -/
def outlines : List Node → Except Fault (List Outline)
  | [] => .ok []
  | n :: ns => do
    let first ← n.outline
    return first :: (← outlines ns)

end

/-- The drawing of the node and all below it. -/
def dump (n : Node) (styleName : String) : Except Fault String := do
  let style ← Outline.style styleName
  return (← n.outline).draw style

end Node
end JsxEdit
