import JsxEdit.Fault
import JsxEdit.Node.Basic

/-
Where a node stands in the source it was read from.

A node starts where its own opening part was read, or else where the first node below it starts. It stops
where its closing part was read, or else where the last node below it stops. The search ends with a fault
when it meets a value that is no node.
-/
set_option autoImplicit false

namespace JsxEdit.Node

mutual

/-- The position the node starts at, if it or a node below it was read from a source. -/
def start : Node → Except Fault (Option Nat)
  | .mk _ i as cs =>
    match i.head with
    | some span => .ok (some span.start)
    | none =>
      match firstStart as with
      | .ok none => firstStart cs
      | found => found

/-- The first position at which one of the nodes starts. -/
def firstStart : List Node → Except Fault (Option Nat)
  | [] => .ok none
  | n :: ns =>
    if n.isForeign then .error .noMember
    else
      match n.start with
      | .ok none => firstStart ns
      | found => found

end

mutual

/-- The position the node stops at, if it or a node below it was read from a source. -/
def stop : Node → Except Fault (Option Nat)
  | .mk _ i as cs =>
    match i.tail with
    | some span => .ok (some span.stop)
    | none =>
      match lastStop cs with
      | .ok none =>
        match lastStop as with
        | .ok none => .ok (i.head.map (·.stop))
        | found => found
      | found => found

/-- The last position at which one of the nodes stops. -/
def lastStop : List Node → Except Fault (Option Nat)
  | [] => .ok none
  | n :: ns =>
    match lastStop ns with
    | .ok none => if n.isForeign then .error .noMember else n.stop
    | found => found

end

end JsxEdit.Node
