import JsxEdit.Node.Basic
import JsxEdit.Text.Replace

/-
White space between nodes. Where two stretches of white space meet, the weightier is kept: the one with more line
feeds, or else with more blanks.
-/
set_option autoImplicit false

namespace JsxEdit

namespace Whitespace

/-- The weight of white space: its line feeds, then its blanks. -/
def weight (s : String) : Nat × Nat := (Text.count '\n' s, Text.count ' ' s)

/-- Whether the second white space outweighs the first. -/
def outweighed (s t : String) : Bool :=
  (weight s).1 < (weight t).1 || ((weight s).1 == (weight t).1 && (weight s).2 < (weight t).2)

/-- The weightier of two; the first if they weigh the same. -/
def heavier (s t : String) : String := if outweighed s t then t else s

/-- The first of the weightiest, empty if there is none. -/
def heaviest : List String → String
  | [] => ""
  | s :: ss => ss.foldl heavier s

end Whitespace

namespace Node

/-- Puts a node before a list; white space before white space takes it in. -/
def prepend (n : Node) : List Node → List Node
  | [] => [n]
  | m :: ms =>
    match n.kind, m.kind with
    | .text s, .text t =>
      if Text.isBlank s && Text.isBlank t then n.withKind (.text (Whitespace.heavier s t)) :: ms
      else n :: m :: ms
    | _, _ => n :: m :: ms

/-- Makes one node of every run of white space. -/
def mergeWhitespace (ns : List Node) : List Node := ns.foldr prepend []

end Node
end JsxEdit
