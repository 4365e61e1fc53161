import JsxEdit.ClassTree
import JsxEdit.Edit.ClassName
import JsxEdit.Edit.Move
import JsxEdit.Edit.Remove
import JsxEdit.Edit.Style
import JsxEdit.Editor
import JsxEdit.Node.Equal
import JsxEdit.Node.Field
import JsxEdit.Session
import JsxEdit.Proofs.Made
import JsxEdit.Proofs.Faithful
import JsxEdit.Proofs.Identity
import JsxEdit.Proofs.Flaw
import JsxEdit.Proofs.Discipline
import JsxEdit.Proofs.Upkeep
import JsxEdit.Proofs.PlainRun
import JsxEdit.Proofs.FlawlessSource
import JsxEdit.Proofs.FlawlessRun
import JsxEdit.Proofs.Locality
import JsxEdit.Proofs.Shift
import JsxEdit.Proofs.Closing
import JsxEdit.Proofs.Unclosed
import JsxEdit.Proofs.Enclosed
import JsxEdit.Proofs.Fragment
import JsxEdit.Proofs.Snippet
import JsxEdit.Proofs.Extent
import JsxEdit.Proofs.Steps
import JsxEdit.Proofs.Tile
import JsxEdit.Proofs.Standalone
import JsxEdit.Proofs.Seat
import JsxEdit.Proofs.Bracket
import JsxEdit.Proofs.Placed
import JsxEdit.Proofs.Positions
import JsxEdit.Proofs.Nesting
import JsxEdit.Proofs.Lines
import JsxEdit.Proofs.Innermost
import JsxEdit.Proofs.Recast
import JsxEdit.Proofs.Saving
import JsxEdit.Proofs.Restyle
import JsxEdit.Proofs.Likeness
import JsxEdit.Proofs.Siblings
import JsxEdit.Proofs.Reorder
import JsxEdit.Proofs.Insertion
import JsxEdit.Proofs.Adjacent
import JsxEdit.Proofs.Lookup
import JsxEdit.Proofs.Splice
import JsxEdit.Proofs.Prune
import JsxEdit.Proofs.Purge
import JsxEdit.Proofs.DocumentOrder
import JsxEdit.Proofs.Undo
import JsxEdit.Proofs.Exchange
import JsxEdit.Proofs.Transfer
import JsxEdit.Proofs.Embedded
import JsxEdit.Proofs.Retext
import JsxEdit.Proofs.Repetition
import JsxEdit.Proofs.Batch
import JsxEdit.Proofs.Restate
import JsxEdit.Proofs.Quoting
import JsxEdit.Proofs.Literal
import JsxEdit.Proofs.ClassNames
import JsxEdit.Proofs.StyleMerge
import JsxEdit.Proofs.StyleText
import JsxEdit.Proofs.Merged
import JsxEdit.Proofs.Traversal
import JsxEdit.Proofs.Copies
import JsxEdit.Proofs.Names
import JsxEdit.Proofs.Preceding
