import JsxEdit.Node.Literal

/-
When two nodes say the same. Kinds, heads, attributes and children have to agree; white space inside tags and
the spelling of strings and numbers do not count. Comparing number literals fails if one is no number.
-/
set_option autoImplicit false

namespace JsxEdit

/-- The number a datum counts as; truth values count as 0 and 1. -/
def Datum.number? : Datum → Option Number
  | .int n => some (.int n)
  | .float d => some (.float d)
  | .bool b => some (.int (if b then 1 else 0))
  | _ => none

/-- Whether two data are both nothing, the same text, or equal as numbers. -/
def Datum.same (d d' : Datum) : Bool :=
  match d, d' with
  | .null, .null => true
  | .str s, .str t => s == t
  | d, d' =>
    match d.number?, d'.number? with
    | some m, some n => m.same n
    | _, _ => false

namespace Kind

/-- Whether the heads agree; a value that is no node has no head. -/
def sameHead (k k' : Kind) : Except Fault Bool :=
  if k'.isForeign then .error .noMember else .ok (k.head.same k'.head)

/-- Whether the values of literals agree. The value of an attribute or property is a node, which equals no value
of a literal; other kinds have no value. -/
def sameValue (k k' : Kind) : Except Fault Bool := do
  let value ← k.literalValue
  match k' with
  | .attr .. | .property .. => return false
  | _ => if k'.isLiteral then return value.same (← k'.literalValue) else throw .noMember

/-- Whether a node with this name agrees with one of another kind; only attributes and properties have names. -/
def sameName (name : String) : Kind → Except Fault Bool
  | .property key .. => .ok (name == keyName key)
  | .attr s _ => .ok (name == s)
  | _ => .error .noMember

/-- Whether an element agrees with a node of another kind in name and in closing itself. -/
def sameTag (name : String) (selfClosing : Bool) : Kind → Except Fault Bool
  | .element name' selfClosing' _ _ => .ok (name == name' && selfClosing == selfClosing')
  | k => do if ← sameHead (.text name) k then throw .noMember else return false

/-- Whether two nodes of these kinds say the same, children and attributes aside. -/
def bodySame : Kind → Kind → Except Fault Bool
  | .element name selfClosing _ _, k => sameTag name selfClosing k
  | .property key .., k => sameName (keyName key) k
  | .number s, k => sameValue (.number s) k
  | .string raw quote, k => sameValue (.string raw quote) k
  | .attributeString raw quote, k => sameValue (.attributeString raw quote) k
  | .document _, _ | .fragment, _ | .slot .., _ | .attributes, _ | .spread _, _ | .script, _ => .ok true
  | .null, _ | .object _, _ => .ok true
  | k, k' => sameHead k k'

end Kind

namespace Node

mutual

/-- Whether the two nodes say the same. -/
def equals : Node → Node → Except Fault Bool
  | .mk k _ as cs, .mk k' _ as' cs' =>
    if k.isForeign then .error .noMember
    else if k.name != k'.name || cs.length != cs'.length then .ok false
    else
      match k.bodySame k' with
      | .ok true =>
        match equalsAll as as' with
        | .ok true => equalsAll cs cs'
        | other => other
      | other => other

/-- Whether two lists of nodes say the same, node by node. -/
def equalsAll : List Node → List Node → Except Fault Bool
  | [], [] => .ok true
  | n :: ns, m :: ms =>
    if ns.length != ms.length then .ok false
    else
      match n.equals m with
      | .ok true => equalsAll ns ms
      | other => other
  | _, _ => .ok false

end

/-- Whether the two nodes say the same, children aside. -/
def bodyEquals (n m : Node) : Except Fault Bool := do
  if (← n.kind.bodySame m.kind) then equalsAll n.attributes m.attributes else return false

/-- Whether a node is of the same kind as a sample and says the same, children aside. -/
def resembles (n sample : Node) : Except Fault Bool :=
  if n.kind.name == sample.kind.name then n.bodyEquals sample else .ok false

end Node
end JsxEdit
