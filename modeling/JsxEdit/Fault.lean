import JsxEdit.Node.Basic
import JsxEdit.Text.Line

/-
What can go wrong beyond the ordinary failures of an edit: causes, each with one wording.
-/
set_option autoImplicit false

namespace JsxEdit

/-- Where a source text is not valid markup. -/
structure ParsePlace where
  pos : Nat
  spot : Text.LineColumn
  deriving DecidableEq, Repr

/-- A source text that is not valid markup; some problems belong to no place of it. -/
structure ParseError where
  reason : String
  place : Option ParsePlace := none
  deriving DecidableEq, Repr

/-- The reason after its line and column. -/
def ParseError.message (e : ParseError) : String :=
  match e.place with
  | none => e.reason
  | some p => "Line " ++ intText p.spot.line ++ ", column " ++ intText p.spot.column ++ ": " ++ e.reason

/-- A tree that cannot be written, with the offending node. -/
structure GenerationError where
  message : String
  node : Node

/-- The name of the kind of the offending node. -/
def GenerationError.kind (e : GenerationError) : String := e.node.kind.name

/-- The head of the offending node. -/
def GenerationError.head (e : GenerationError) : Datum := e.node.kind.head

/-- What keeps a file from being opened. -/
inductive FileProblem where
  | missing
  | notDirectory
  | isDirectory
  | tooLong
  deriving DecidableEq, Repr

/-- A file that cannot be opened, under the name it was asked for. -/
structure FileError where
  problem : FileProblem
  name : String
  deriving DecidableEq, Repr

/-- The number and the text of the problem, and the quoted name. -/
def FileError.message (e : FileError) : String :=
  let text := match e.problem with
    | .missing => "[Errno 2] No such file or directory: "
    | .notDirectory => "[Errno 20] Not a directory: "
    | .isDirectory => "[Errno 21] Is a directory: "
    | .tooLong => "[Errno 36] File name too long: "
  text ++ Text.quoted e.name

/-- A fault that ends the computation it arises in. -/
inductive Fault where
  /-- A source text is not valid markup. -/
  | parse (e : ParseError)
  /-- A tree cannot be written. -/
  | generation (e : GenerationError)
  /-- An element specification cannot be turned into a node. -/
  | template (message : String)
  /-- A node of this kind cannot have this head. -/
  | invalidHead (kind value : String)
  /-- A value cannot be used in this role. -/
  | unusable (value role : String)
  /-- An operation met a value of a type it has no meaning for. -/
  | wrongType
  /-- A value has no such member, for instance because it is no node. -/
  | noMember
  /-- A number text is no number, or too long for one; or the text of a number is too long. -/
  | badNumber
  /-- A value has the right type, but is none of those allowed. -/
  | badValue
  /-- There is no entry under this key. -/
  | noEntry
  /-- There is no item at this index. -/
  | noItem
  /-- A file cannot be opened. -/
  | file (e : FileError)
  /-- Bytes are no text in the encoding. -/
  | undecodable
  /-- Bytes lack the mark that tells their order. -/
  | noByteOrder
  /-- A text has characters the encoding lacks. -/
  | unencodable

/-- The wording of a fault, empty for those that say no more than their kind. -/
def Fault.message : Fault → String
  | .parse e => e.message
  | .generation e => e.message
  | .template message => message
  | .invalidHead kind value => "invalid head value for " ++ kind ++ ": " ++ value
  | .unusable value role => "can't use " ++ value ++ " as " ++ role
  | .file e => e.message
  | _ => ""

end JsxEdit
