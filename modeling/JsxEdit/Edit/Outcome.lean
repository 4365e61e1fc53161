import JsxEdit.Fault
import JsxEdit.Log
import JsxEdit.Node.Label
import JsxEdit.Node.Literal

/-
What an edit gives back.

Ordinary failures, such as an element that is not there, are results with a kind of error. Only a fault keeps an
edit from giving a result. In each case the reply holds the tree as the edit leaves it.
-/
set_option autoImplicit false

namespace JsxEdit

/-- Why an edit failed. -/
inductive ErrorKind where
  | notFound
  | invalidOperation
  | template
  | generation
  deriving DecidableEq, Repr

/-- The name of the kind of error. -/
def ErrorKind.name : ErrorKind → String
  | .notFound => "not_found"
  | .invalidOperation => "invalid_operation"
  | .template => "template"
  | .generation => "generation"

/-- The result of an edit: the error if it failed, what happened in words, and further values by name. -/
structure Outcome where
  error : Option ErrorKind
  message : String
  extra : Dict (Value Node)

/-- Whether the edit succeeded. -/
def Outcome.success (o : Outcome) : Bool := o.error.isNone

/-- One line that shows the result. -/
def Outcome.label (o : Outcome) : String :=
  "<MutationResult " ++ o.error.elim "success" ErrorKind.name ++ " " ++ Text.quoted o.message ++ ">"

/-- The name under which a further value stands in for the kind of error. -/
def Outcome.errorName : String := "error"

/-- A member of the result by name: one of its own fields, or one of the further values. -/
def Outcome.field (o : Outcome) (tree : Node) (name : String) : Except Fault (Value Node) :=
  match name with
  | "success" => .ok (.bool o.success)
  | "tree" => .ok (.node tree)
  | "message" => .ok (.str o.message)
  | "error" => .ok ((o.extra.get? errorName).getD (.ofText? (o.error.map ErrorKind.name)))
  | "extra" => .ok (.dict (o.extra.filter fun (k, _) => k != errorName))
  | _ =>
    match o.extra.get? name with
    | some v => .ok v
    | none => .error .noMember

/-- The tree after an edit, the result or the fault that ended it, and the records it left. -/
structure Reply where
  tree : Node
  log : List Record
  result : Except Fault Outcome

namespace Reply

/-- An edit that succeeded. -/
def succeeded (tree : Node) (message : String) (extra : Dict (Value Node)) : Reply :=
  ⟨tree, [⟨.debug, .edit, message⟩], .ok ⟨none, message, extra⟩⟩

/-- An edit that succeeded, with further values under names that are free to choose. The names of the tree and of the
message are taken from the start; those of the result itself turn out to be taken once the record is made. -/
def succeededWith (tree : Node) (message : String) (extra : Dict (Value Node)) : Reply :=
  if extra.has "tree" || extra.has "message" then ⟨tree, [], .error .wrongType⟩
  else
    let reply := succeeded tree message extra
    if extra.has "success" || extra.has "self" then { reply with result := .error .wrongType } else reply

/-- An edit that failed. -/
def failed (tree : Node) (kind : ErrorKind) (message : String) (extra : Dict (Value Node)) : Reply :=
  ⟨tree, [⟨.warning, .edit, message⟩], .ok ⟨some kind, message, extra⟩⟩

/-- The wording for an identity that no element has. -/
def notFoundMessage (id : String) : String :=
  "Element with " ++ Node.identityName ++ "=\"" ++ id ++ "\" not found"

/-- No element has the identity. -/
def notFound (tree : Node) (id : String) (extra : Dict (Value Node)) : Reply :=
  failed tree .notFound (notFoundMessage id) extra

/-- The operation is impossible with this tree. -/
def invalid (tree : Node) (message : String) (extra : Dict (Value Node)) : Reply :=
  failed tree .invalidOperation message extra

/-- The new nodes have identities that are in use. -/
def duplicate (tree : Node) (ids : List String) : Reply :=
  invalid tree ("Duplicate " ++ Node.identityName ++ " values: " ++ Text.join ", " ids) []

/-- A fault that left the tree as given. -/
def fault (tree : Node) (f : Fault) : Reply := ⟨tree, [], .error f⟩

/-- The reply with earlier records before its own. -/
def after (log : List Record) (r : Reply) : Reply := { r with log := log ++ r.log }

end Reply
end JsxEdit
