import JsxEdit.Edit.ClassName
import JsxEdit.Edit.Move
import JsxEdit.Edit.Remove
import JsxEdit.Edit.Style

/-
All edits as one type of commands, so that a property of every edit is one statement, and a run of edits is a list.

The first such property is that a command that fails leaves the tree alone: whatever is checked is checked before
anything is changed. A fault is no failure in this sense; it may come in the middle of a change.
-/
set_option autoImplicit false

namespace JsxEdit.Edit

/-- An edit with its arguments. -/
inductive Command where
  | insert (id position : String) (request : Request)
  | insertAtRoot (position : String) (component : Option String) (request : Request)
  | remove (id : String) (keepChildren : Bool)
  | removeAll (ids : List String)
  | clearChildren (id : String)
  | updateText (id text : String)
  | updateAttribute (id : String) (name value : Value Node)
  | updateAttributes (id : String) (values : Dict (Value Node))
  | updateTagName (id : String) (name : Value Node)
  | replaceChildren (id : String) (children : Value Node)
  | addClassName (id name : String)
  | removeClassName (id name : String)
  | moveUp (id : String)
  | moveDown (id : String)
  | moveToIndex (id : String) (index : Value Node)
  | moveInto (source destination : String) (width : Int)
  | swap (id id' : String)
  | updateStyles (id : String) (styles : Dict (Value Node))
  | setSpacing (id : String) (spacing : Dict (Value Node))
  | setMargin (id : String) (value : Value Node)
  | setPadding (id : String) (value : Value Node)
  | clearStyles (id : String)

namespace Command

/-- Carries out the edit. -/
def run (tree : Node) : Command → Reply
  | .insert id position request => Edit.insert tree id position request
  | .insertAtRoot position component request => Edit.insertAtRoot tree position component request
  | .remove id keepChildren => Edit.remove tree id keepChildren
  | .removeAll ids => Edit.removeAll tree ids
  | .clearChildren id => Edit.clearChildren tree id
  | .updateText id text => Edit.updateText tree id text
  | .updateAttribute id name value => Edit.updateAttribute tree id name value
  | .updateAttributes id values => Edit.updateAttributes tree id values
  | .updateTagName id name => Edit.updateTagName tree id name
  | .replaceChildren id children => Edit.replaceChildren tree id children
  | .addClassName id name => Edit.addClassName tree id name
  | .removeClassName id name => Edit.removeClassName tree id name
  | .moveUp id => Edit.moveUp tree id
  | .moveDown id => Edit.moveDown tree id
  | .moveToIndex id index => Edit.moveToIndex tree id index
  | .moveInto source destination width => Edit.moveInto tree source destination width
  | .swap id id' => Edit.swap tree id id'
  | .updateStyles id styles => Edit.updateStyles tree id styles
  | .setSpacing id spacing => Edit.setSpacing tree id spacing
  | .setMargin id value => Edit.setMargin tree id value
  | .setPadding id value => Edit.setPadding tree id value
  | .clearStyles id => Edit.clearStyles tree id

/-- The tree after the edits, one after the other; what they reply is not looked at. -/
def runAll (tree : Node) (commands : List Command) : Node :=
  commands.foldl (fun tree command => (command.run tree).tree) tree

end Command

end JsxEdit.Edit

namespace JsxEdit.Reply

/-- The reply is no failure, or the tree in it is the given one. -/
def FailsSafely (tree : Node) (r : Reply) : Prop :=
  ∀ o, r.result = .ok o → o.success = false → r.tree = tree

theorem succeeded_safe (tree tree' : Node) (message : String) (extra : Dict (Value Node)) :
    FailsSafely tree (succeeded tree' message extra) := by
  intro o h hf
  cases h
  cases hf

theorem failed_safe (tree : Node) (kind : ErrorKind) (message : String) (extra : Dict (Value Node)) :
    FailsSafely tree (failed tree kind message extra) :=
  fun _ _ _ => rfl

theorem invalid_safe (tree : Node) (message : String) (extra : Dict (Value Node)) :
    FailsSafely tree (invalid tree message extra) :=
  failed_safe tree _ message extra

theorem notFound_safe (tree : Node) (id : String) (extra : Dict (Value Node)) :
    FailsSafely tree (notFound tree id extra) :=
  failed_safe tree _ _ extra

theorem fault_safe (tree tree' : Node) (f : Fault) : FailsSafely tree (fault tree' f) := by
  intro o h
  cases h

theorem after_safe {tree : Node} {r : Reply} (log : List Record) (h : FailsSafely tree r) :
    FailsSafely tree (after log r) := h

end JsxEdit.Reply

namespace JsxEdit.Edit
open Reply

/-- Without a new node, the reply is a failure or a fault that left the tree alone. -/
theorem newNode_safe {tree : Node} {request : Request} {r : Reply} (h : newNode tree request = .error r) :
    FailsSafely tree r := by
  unfold newNode at h
  split at h
  · cases h
    exact failed_safe tree _ _ _
  · cases h
    exact fault_safe tree _ _
  · split at h
    · cases h
      exact after_safe _ (fault_safe tree _ _)
    · cases h
    · cases h
      exact after_safe _ (invalid_safe tree _ _)

theorem insert_safe (tree : Node) (id position : String) (request : Request) :
    FailsSafely tree (insert tree id position request) := by
  unfold insert
  split
  · exact invalid_safe tree _ _
  · split
    · exact fault_safe tree _ _
    · exact notFound_safe tree _ _
    · split
      · exact invalid_safe tree _ _
      · split
        · next h => exact newNode_safe h
        · exact after_safe _ (succeeded_safe tree _ _ _)

theorem insertAtRoot_safe (tree : Node) (position : String) (component : Option String) (request : Request) :
    FailsSafely tree (insertAtRoot tree position component request) := by
  unfold insertAtRoot
  split
  · exact invalid_safe tree _ _
  · split
    · exact fault_safe tree _ _
    · exact failed_safe tree _ _ _
    · split
      · next h => exact newNode_safe h
      · exact after_safe _ (succeeded_safe tree _ _ _)

theorem remove_safe (tree : Node) (id : String) (keepChildren : Bool) :
    FailsSafely tree (remove tree id keepChildren) := by
  unfold remove
  split
  · exact fault_safe tree _ _
  · exact notFound_safe tree _ _
  · split
    · exact invalid_safe tree _ _
    · exact succeeded_safe tree _ _ _

theorem removeAll_safe (tree : Node) (ids : List String) : FailsSafely tree (removeAll tree ids) := by
  unfold removeAll
  split
  · exact fault_safe tree _ _
  · split
    · dsimp only
      split
      · exact fault_safe tree _ _
      · exact succeeded_safe tree _ _ _
    · exact failed_safe tree _ _ _

theorem clearChildren_safe (tree : Node) (id : String) : FailsSafely tree (clearChildren tree id) := by
  unfold clearChildren
  split
  · exact fault_safe tree _ _
  · exact notFound_safe tree _ _
  · exact succeeded_safe tree _ _ _

theorem updateText_safe (tree : Node) (id s : String) : FailsSafely tree (updateText tree id s) := by
  unfold updateText
  split
  · exact fault_safe tree _ _
  · exact notFound_safe tree _ _
  · dsimp only
    split
    · exact fault_safe tree _ _
    · exact succeeded_safe tree _ _ _
    · split
      · exact fault_safe tree _ _
      · exact succeeded_safe tree _ _ _

theorem updateAttribute_safe (tree : Node) (id : String) (name value : Value Node) :
    FailsSafely tree (updateAttribute tree id name value) := by
  unfold updateAttribute
  split
  · exact fault_safe tree _ _
  · exact notFound_safe tree _ _
  · dsimp only
    split
    · split
      · exact invalid_safe tree _ _
      · split
        · exact fault_safe tree _ _
        · exact invalid_safe tree _ _
        · split
          · exact fault_safe tree _ _
          · exact succeeded_safe tree _ _ _
    · exact invalid_safe tree _ _

theorem updateAttributes_safe (tree : Node) (id : String) (values : Dict (Value Node)) :
    FailsSafely tree (updateAttributes tree id values) := by
  unfold updateAttributes
  dsimp only
  split
  · exact fault_safe tree _ _
  · exact notFound_safe tree _ _
  · split
    · exact fault_safe tree _ _
    · exact invalid_safe tree _ _
    · split
      · exact fault_safe tree _ _
      · exact succeeded_safe tree _ _ _

theorem updateTagName_safe (tree : Node) (id : String) (name : Value Node) :
    FailsSafely tree (updateTagName tree id name) := by
  unfold updateTagName
  split
  · exact fault_safe tree _ _
  · exact notFound_safe tree _ _
  · dsimp only
    split
    · split
      · exact invalid_safe tree _ _
      · exact succeeded_safe tree _ _ _
    · exact invalid_safe tree _ _

theorem replaceChildren_safe (tree : Node) (id : String) (children : Value Node) :
    FailsSafely tree (replaceChildren tree id children) := by
  unfold replaceChildren
  split
  · exact fault_safe tree _ _
  · exact notFound_safe tree _ _
  · split
    · exact fault_safe tree _ _
    · split
      · exact invalid_safe tree _ _
      · split
        · exact fault_safe tree _ _
        · exact succeeded_safe tree _ _ _
        · exact invalid_safe tree _ _

theorem updateClassNames_safe (tree : Node) (id message : String)
    (change : List String → Option (List String)) :
    FailsSafely tree (updateClassNames tree id message change) := by
  unfold updateClassNames
  split
  · exact fault_safe tree _ _
  · exact notFound_safe tree _ _
  · split
    · exact fault_safe tree _ _
    · exact invalid_safe tree _ _
    · exact succeeded_safe tree _ _ _

/-- What goes on with a movable element decides. -/
theorem withMovable_safe {tree : Node} {id : String} {go : Visit → Reply}
    (h : ∀ v, FailsSafely tree (go v)) : FailsSafely tree (withMovable tree id go) := by
  unfold withMovable
  split
  · exact fault_safe tree _ _
  · exact notFound_safe tree _ _
  · split
    · exact h _
    · exact invalid_safe tree _ _

theorem moveUp_safe (tree : Node) (id : String) : FailsSafely tree (moveUp tree id) := by
  apply withMovable_safe
  intro v
  dsimp only
  split
  · exact invalid_safe tree _ _
  · exact succeeded_safe tree _ _ _

theorem moveDown_safe (tree : Node) (id : String) : FailsSafely tree (moveDown tree id) := by
  apply withMovable_safe
  intro v
  dsimp only
  split
  · exact succeeded_safe tree _ _ _
  · exact invalid_safe tree _ _

theorem moveToIndex_safe (tree : Node) (id : String) (index : Value Node) :
    FailsSafely tree (moveToIndex tree id index) := by
  apply withMovable_safe
  intro v
  dsimp only
  split
  · exact invalid_safe tree _ _
  · split
    · exact succeeded_safe tree _ _ _
    · exact invalid_safe tree _ _

theorem moveInto_safe (tree : Node) (source destination : String) (width : Int) :
    FailsSafely tree (moveInto tree source destination width) := by
  unfold moveInto
  split
  · exact fault_safe tree _ _
  · exact failed_safe tree _ _ _
  · split
    · exact fault_safe tree _ _
    · exact failed_safe tree _ _ _
    · split
      · exact fault_safe tree _ _
      · exact invalid_safe tree _ _
      · split
        · exact invalid_safe tree _ _
        · split
          · exact fault_safe tree _ _
          · exact succeeded_safe tree _ _ _

theorem swap_safe (tree : Node) (id id' : String) : FailsSafely tree (swap tree id id') := by
  unfold swap
  split
  · exact fault_safe tree _ _
  · exact notFound_safe tree _ _
  · split
    · exact fault_safe tree _ _
    · exact notFound_safe tree _ _
    · split
      · exact invalid_safe tree _ _
      · split
        · exact invalid_safe tree _ _
        · split
          · exact succeeded_safe tree _ _ _
          · split
            · exact fault_safe tree _ _
            · exact invalid_safe tree _ _
            · exact succeeded_safe tree _ _ _

theorem updateStyles_safe (tree : Node) (id : String) (styles : Dict (Value Node)) :
    FailsSafely tree (updateStyles tree id styles) := by
  unfold updateStyles
  split
  · exact fault_safe tree _ _
  · exact notFound_safe tree _ _
  · split
    · exact invalid_safe tree _ _
    · split
      · exact invalid_safe tree _ _
      · exact fault_safe tree _ _
      · dsimp only
        split
        · exact fault_safe tree _ _
        · exact succeeded_safe tree _ _ _

theorem updateGiven_safe (tree : Node) (id : String) (styles : Except Fault (Dict (Value Node))) :
    FailsSafely tree (updateGiven tree id styles) := by
  unfold updateGiven
  split
  · exact fault_safe tree _ _
  · exact updateStyles_safe tree id _

theorem clearStyles_safe (tree : Node) (id : String) : FailsSafely tree (clearStyles tree id) := by
  unfold clearStyles
  split
  · exact fault_safe tree _ _
  · exact notFound_safe tree _ _
  · exact succeeded_safe tree _ _ _

namespace Command

/-- An edit that replies with a failure has left the tree exactly as it was. -/
theorem failed_run_tree (c : Command) (tree : Node) (o : Outcome)
    (h : (c.run tree).result = .ok o) (hf : o.success = false) : (c.run tree).tree = tree := by
  suffices safe : FailsSafely tree (c.run tree) from safe o h hf
  cases c with
  | insert id position request => exact insert_safe tree id position request
  | insertAtRoot position component request => exact insertAtRoot_safe tree position component request
  | remove id keepChildren => exact remove_safe tree id keepChildren
  | removeAll ids => exact removeAll_safe tree ids
  | clearChildren id => exact clearChildren_safe tree id
  | updateText id text => exact updateText_safe tree id text
  | updateAttribute id name value => exact updateAttribute_safe tree id name value
  | updateAttributes id values => exact updateAttributes_safe tree id values
  | updateTagName id name => exact updateTagName_safe tree id name
  | replaceChildren id children => exact replaceChildren_safe tree id children
  | addClassName id name => exact updateClassNames_safe tree id _ _
  | removeClassName id name => exact updateClassNames_safe tree id _ _
  | moveUp id => exact moveUp_safe tree id
  | moveDown id => exact moveDown_safe tree id
  | moveToIndex id index => exact moveToIndex_safe tree id index
  | moveInto source destination width => exact moveInto_safe tree source destination width
  | swap id id' => exact swap_safe tree id id'
  | updateStyles id styles => exact updateStyles_safe tree id styles
  | setSpacing id spacing => exact updateGiven_safe tree id _
  | setMargin id value => exact updateGiven_safe tree id _
  | setPadding id value => exact updateGiven_safe tree id _
  | clearStyles id => exact clearStyles_safe tree id

/-- An element with an identity. -/
def identified (tag id : String) (children : List Node) : Node :=
  .element tag [.attr Node.identityName (some (.new (.attributeString id "\"") []))] children

/-- A box with a list that has one item. -/
def nested : Node :=
  .new (.document none) [identified "div" "box" [identified "ul" "list" [identified "li" "item" []]]]

set_option maxRecDepth 10000 in
theorem failed_swap_nested :
    ((Command.swap "list" "item").run nested).result =
        .ok ⟨some .invalidOperation, "Cannot swap an element with its own descendant", []⟩ ∧
      ((Command.swap "list" "item").run nested).tree = nested :=
  ⟨by rfl, failed_run_tree (.swap "list" "item") nested _ (by rfl) rfl⟩

end Command
end JsxEdit.Edit
