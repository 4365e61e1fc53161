import JsxEdit.Node.Literal
import JsxEdit.Text.Name

/-
Recognising simple expressions by their text.

Truth values, `null`, variables, member accesses, numbers, strings and template literals without substitutions
have node kinds of their own; every other expression is a script with the text as its code. The forms are
tried in this order, and two of them look at the beginning of the text only: `true`, and a string in double
quotes.
-/
set_option autoImplicit false

namespace JsxEdit.Expression

/-- The length of a quoted literal after its opening quote, including the closing one. The characters before
the closing quote are plain ones or escapes; `lineFeeds` says whether an escape may be of a line feed. -/
def quotedLength? (lineFeeds : Bool) (quote : Char) : List Char → Option Nat
  | [] => none
  | [c] => if c == quote then some 1 else none
  | c :: d :: cs =>
    if c == quote then some 1
    else if c == '\\' then
      if d == '\n' && !lineFeeds then none else (quotedLength? lineFeeds quote cs).map (· + 2)
    else if c == '\n' then none
    else (quotedLength? lineFeeds quote (d :: cs)).map (· + 1)

/-- Whether the text starts with a complete string in double quotes. -/
def startsWithDouble : List Char → Bool
  | '"' :: cs => (quotedLength? true '"' cs).isSome
  | _ => false

/-- Whether the text is one string in single quotes. -/
def isSingle : List Char → Bool
  | '\'' :: cs => quotedLength? true '\'' cs == some cs.length
  | _ => false

/-- Whether the characters after the opening backtick are the rest of one template literal without
substitutions. -/
def templateRest : List Char → Bool
  | [] => false
  | [c] => c == '`'
  | c :: d :: cs =>
    if c == '`' then false
    else if c == '\\' then templateRest cs
    else if c == '$' && d == '\x7b' then false
    else templateRest (d :: cs)

/-- Whether the text is one template literal without substitutions. -/
def isTemplate : List Char → Bool
  | '`' :: cs => templateRest cs
  | _ => false

/-- Digits of a number in another base; their fit to the base is not looked at. -/
def isBaseDigit (c : Char) : Bool := Text.isDecimal c || Text.isHex c || c == '_'

/-- Whether the rest of a number is an exponent or nothing. -/
def isExponent : List Char → Bool
  | [] => true
  | e :: cs =>
    let ds := match cs with
      | '-' :: ds => ds
      | '+' :: ds => ds
      | ds => ds
    (e == 'e' || e == 'E') && !ds.isEmpty && ds.all Text.isDecimal

/-- Whether the text is a decimal number without sign. -/
def isDecimalNumber (cs : List Char) : Bool :=
  match cs with
  | [] => false
  | c :: rest =>
    if Text.isDecimal c then
      match rest.dropWhile fun d => Text.isDecimal d || d == '_' with
      | '.' :: part => isExponent (part.dropWhile Text.isDecimal)
      | rest => isExponent rest
    else if c == '.' then
      (rest.head?.any Text.isDecimal) && isExponent (rest.dropWhile Text.isDecimal)
    else false

/-- Whether the text is a number without sign. -/
def isUnsignedNumber : List Char → Bool
  | '0' :: mark :: cs =>
    (['x', 'X', 'o', 'O', 'b', 'B'].contains mark && !cs.isEmpty && cs.all isBaseDigit) ||
      isDecimalNumber ('0' :: mark :: cs)
  | cs => isDecimalNumber cs

/-- Whether the text is a number. -/
def isNumber : List Char → Bool
  | '-' :: cs => isUnsignedNumber cs
  | cs => isUnsignedNumber cs

/-- Whether the text is a chain of member accesses after a first variable; `fuel` bounds their number, and
`first` says that no access was seen yet. -/
def isMemberChain (first : Bool) : Nat → List Char → Bool
  | 0, _ => false
  | fuel + 1, cs =>
    match Text.nameLength? .identifier cs with
    | none => false
    | some n =>
      match cs.drop n with
      | [] => !first
      | '.' :: rest => isMemberChain false fuel rest
      | '?' :: '.' :: rest => isMemberChain false fuel rest
      | _ => false

/-- Whether the text is a member access. -/
def isMember (cs : List Char) : Bool := isMemberChain true cs.length cs

/-- Whether the text is an identifier and nothing else. -/
def isIdentifier (cs : List Char) : Bool := Text.nameLength? .identifier cs == some cs.length

/-- The kind of node for the text of an expression without white space around it; none if the text has no
simple form. -/
def kind? (text : String) : Option Kind :=
  let cs := text.toList
  if "true".toList.isPrefixOf cs || text == "false" then some (.boolean (text == "true"))
  else if text == "null" then some .null
  else if isIdentifier cs then some (.identifier text)
  else if isMember cs then some (.member text)
  else if isNumber cs then some (.number text)
  else if startsWithDouble cs || isSingle cs then some (.string (Text.inner text) (Text.first text))
  else if isTemplate cs then some (.template (Text.inner text))
  else none

/-- A script of one piece of code. -/
def script (text : String) : Node := .new .script [.code text]

/-- The node for the text of an expression; white space around it is dropped. -/
def ofText (text : String) : Node :=
  let text := Text.trim text
  match kind? text with
  | some k => .new k []
  | none => script text

end JsxEdit.Expression
