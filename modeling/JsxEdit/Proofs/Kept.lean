import JsxEdit.Source.Read

/-
What of a source text is kept when it is read and written again.

Not everything is. White space before a comma in an object literal and around the expression of a spread attribute has
no place in the nodes, nor has a second equals sign, white space around the name in a closing tag, or a lone backslash
at the end of an open template literal. White space between an equals sign and the value is written after the value.
And two kinds of expressions are recognised by their beginning only. `keeps` says that a text has none of these.
-/
set_option autoImplicit false

namespace JsxEdit

namespace Scan

/-- The characters that are in no token: the unmatched ones in a mode that has no tokens for them. -/
def unreadFrom (stack : List Mode) (before : Option Char) (pos skip : Nat) (pending : List Char) :
    List Char → List Char
  | [] => if (rest? (current stack)).isNone then pending.reverse else []
  | c :: cs =>
    match skip with
    | skip + 1 => unreadFrom stack (some c) (pos + 1) skip pending cs
    | 0 =>
      let stack := settle (c :: cs) stack
      match match? (current stack) (pos == 0) before (c :: cs) with
      | some m =>
        (if (rest? (current stack)).isNone then pending.reverse else []) ++
          unreadFrom (m.move.apply stack) (some c) (pos + 1) (m.length - 1) [] cs
      | none => unreadFrom stack (some c) (pos + 1) 0 (c :: pending) cs

/-- The characters of a source text that are in no token. -/
def unread (text : String) : List Char := unreadFrom [] none 0 0 [] text.toList

end Scan

namespace Piece

mutual

/-- The text of a piece of the source. -/
def source : Piece → String
  | .token t => t.text
  | .stretch _ items => allSource items

/-- The text of pieces of the source. -/
def allSource : List Piece → String
  | [] => ""
  | p :: ps => p.source ++ allSource ps

end

end Piece

namespace Expression

/-- Whether an expression is written as it was read. One that starts with `true` is taken for a truth value, and one
that starts with a string in double quotes for that string, whatever follows. -/
def keeps (text : String) : Bool :=
  let cs := text.toList
  if "true".toList.isPrefixOf cs then text == "true"
  else !startsWithDouble cs || cs.getLast? == some '"'

end Expression

/-- A part of a source with its text, and what of it is written as it was read: the markup in it, the expression inside
its brackets, and the object literal that it can be seen as. -/
structure Judged where
  part : Part
  source : String
  markup : Bool
  reading : Bool
  object : Bool

namespace Judged

/-- The parts alone. -/
def parts (xs : List Judged) : List Part := xs.map (·.part)

/-- The text of the parts. -/
def allSource : List Judged → String
  | [] => ""
  | x :: xs => x.source ++ allSource xs

/-- Whether the expression that the parts are is kept. -/
def keepsExpression (xs : List Judged) : Bool :=
  match Leaf.tokenText? (Part.allLeaves (parts xs)) with
  | none => xs.all (·.markup)
  | some text =>
    Text.isBlank text ||
      match Part.object? (parts xs) with
      | some _ => xs.all fun x => x.part.isBlank || x.object
      | none => Expression.keeps (Text.trim text)

/-- The lists between the parts with the property. -/
def splitOn (p : Part → Bool) : List Judged → List (List Judged)
  | [] => [[]]
  | x :: xs =>
    if p x.part then [] :: splitOn p xs
    else
      match splitOn p xs with
      | [] => [[x]]
      | first :: rest => (x :: first) :: rest

/-- The parts after the colon of a property. -/
def value (xs : List Judged) : List Judged :=
  match xs.findIdx? (·.part.isSeparator ":") with
  | some i => xs.drop (i + 1)
  | none => []

/-- Whether the object literal that the parts are is kept: the values of its properties are, and there is no white space
before a comma. -/
def keepsObject (xs : List Judged) : Bool :=
  let items := splitOn (Part.isSeparator ",") xs
  items.all (fun item => keepsExpression (value item)) &&
    items.dropLast.all fun item => (Part.reading (parts (value item))).trail.isEmpty

/-- Whether the part is an equals sign. -/
def isEquals (x : Judged) : Bool := x.part.token?.any (·.kind == .equals)

/-- Whether the part of an opening tag is kept. The value of an attribute has to follow the equals sign at once, and there
must be no white space inside the braces of a spread attribute. -/
def keepsInTag (name : String) (afterEquals : Bool) (x : Judged) : Bool :=
  match x.part with
  | .leaf (.token t) => !afterEquals || t.kind == .doubleQuoted || t.kind == .singleQuoted
  | .leaf (.node _) => true
  | .group g => x.reading && (afterEquals || (g.reading.lead.isEmpty && g.reading.trail.isEmpty))
  | .content _ close => x.markup && close.all fun t => t.text == "</" ++ name ++ ">"

/-- Whether the parts of an element after its name are kept. -/
def keepsTag (name : String) (afterEquals : Bool) : List Judged → Bool
  | [] => true
  | x :: xs => keepsInTag name afterEquals x && keepsTag name x.isEquals xs

/-- Whether the part of a list between tags is kept. -/
def keepsInContent (x : Judged) : Bool :=
  match x.part with
  | .group _ => x.reading
  | _ => x.markup

/-- Whether an element is kept. -/
def keepsElement : List Judged → Bool
  | _ :: ⟨.leaf (.token name), _, _, _, _⟩ :: xs => keepsTag name.text false xs
  | _ => true

/-- Whether a fragment is kept. -/
def keepsFragment (xs : List Judged) : Bool :=
  xs.all keepsInContent && (Markup.closeTag? (parts (xs.drop 1))).all fun t => t.text == "</>"

/-- The parts between the brackets of a group. -/
def inside (closers : List String) (xs : List Judged) : List Judged :=
  let tail := if xs.length > 1 then (xs.getLast?.bind (·.part.token?)).filter (closers.contains ·.text) else none
  if tail.isSome then (xs.drop 1).dropLast else xs.drop 1

/-- What is kept of a group. -/
def ofGroup (part : Part) (closers : List String) (xs : List Judged) : Judged where
  part := part
  source := allSource xs
  markup := xs.all (·.markup)
  reading := keepsExpression (inside closers xs)
  object := keepsObject (inside closers xs)

/-- What is kept of a stretch of the source. -/
def ofStretch (mode : Mode) (xs : List Judged) : Judged :=
  let part := Markup.assemble mode (parts xs)
  match mode with
  | .tag => ⟨part, allSource xs, keepsElement xs, true, true⟩
  | .fragment => ⟨part, allSource xs, keepsFragment xs, true, true⟩
  | .content => ⟨part, allSource xs, xs.all keepsInContent, true, true⟩
  | .braces => ofGroup part ["\x7d"] xs
  | .group => ofGroup part [")", "]"] xs
  | .template => ofGroup part ["`"] xs
  | .script | .markup => ⟨part, allSource xs, true, true, true⟩

end Judged

mutual

/-- What is kept of a piece of the source. -/
def judge : Piece → Judged
  | .token t => ⟨.leaf (.token t), t.text, true, true, true⟩
  | .stretch mode items => .ofStretch mode (judgeAll items)

/-- What is kept of pieces of the source. -/
def judgeAll : List Piece → List Judged
  | [] => []
  | p :: ps => judge p :: judgeAll ps

end

/-- Whether all of a source text is written as it was read. -/
def keeps (text : String) : Bool :=
  (Scan.unread text).isEmpty && (judgeAll (Piece.ofText text)).all (·.markup)

end JsxEdit
