import JsxEdit.Source.Scan

/-
The nesting of a source text: tokens, and stretches of one mode that hold tokens and further stretches.

A stretch comes into being with its first token, so one that is entered at the very end of the text leaves
no trace. Stretches still open at the end of the text end there.
-/
set_option autoImplicit false

namespace JsxEdit

/-- A token or a stretch of the source. -/
inductive Piece where
  | token (t : Token)
  | stretch (mode : Mode) (items : List Piece)

namespace Piece

/-- Ends a stretch whose items are given last one first, and adds it to those of the stretch around it. -/
def close (mode : Mode) (items outer : List Piece) : List Piece :=
  if items.isEmpty then outer else .stretch mode items.reverse :: outer

/-- Ends all open stretches. -/
def closeAll (items : List Piece) : List (Mode × List Piece) → List Piece
  | [] => items.reverse
  | (mode, outer) :: frames => closeAll (close mode items outer) frames

/-- Nests events. `items` are those of the innermost open stretch, last one first; `frames` are the modes of the
open stretches, each with the items before it. -/
def nest (items : List Piece) (frames : List (Mode × List Piece)) : List Event → List Piece
  | [] => closeAll items frames
  | .token t :: es => nest (.token t :: items) frames es
  | .enter mode :: es => nest [] ((mode, items) :: frames) es
  | .leave :: es =>
    match frames with
    | [] => nest items [] es
    | (mode, outer) :: frames => nest (close mode items outer) frames es

/-- The pieces of a source text. -/
def ofText (text : String) : List Piece := nest [] [] (Scan.events text)

end Piece
end JsxEdit
