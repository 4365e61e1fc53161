import JsxEdit.Source.Expression
import JsxEdit.Source.Token
import JsxEdit.Text.Name
import JsxEdit.Text.Space

/-
Cutting a source text into tokens.

Only markup is looked at closely. Script text is read as far as needed to know where markup starts: strings,
comments and template literals are passed over, and markup is expected at the start of the text and where an
expression can start. Every mode has its rules, which are tried in order at every position; text between two
matches becomes one token, or is no token at all in a template literal.
-/
set_option autoImplicit false

namespace JsxEdit.Scan

/-- How the open modes change after a match. -/
inductive Move where
  | stay
  | enter (mode : Mode)
  | leave (count : Nat)
  deriving DecidableEq, Repr

/-- A match at a position: the tokens it consists of, with their lengths, and what follows. -/
structure Match where
  parts : List (TokenKind × Nat)
  move : Move
  deriving DecidableEq, Repr

/-- The number of characters matched. -/
def Match.length (m : Match) : Nat := m.parts.foldr (fun part n => part.2 + n) 0

/-- A match of one token. -/
def one (kind : TokenKind) (length : Nat) (move : Move) : Option Match := some ⟨[(kind, length)], move⟩

/-- The length of the white space the text starts with. -/
def spaceLength (cs : List Char) : Nat := (cs.takeWhile Text.isSpace).length

/-- Whether an opening tag or a fragment starts here. -/
def startsMarkup : List Char → Bool
  | '<' :: c :: _ => Text.isNameStart c || c == '>'
  | _ => false

/-- Whether a word ends before the position. -/
def atWordStart (before : Option Char) : Bool := !before.any Text.isWord

/-- Single characters after which markup may start. -/
def isLeadChar (c : Char) : Bool := ['(', '[', ',', ';', ':', '?', '=', '&', '|', '!'].contains c

/-- The length of what announces markup: a keyword, an arrow or a punctuation mark, if markup follows after
optional white space. -/
def leadLength? (before : Option Char) (cs : List Char) : Option Nat :=
  let announced (n : Nat) : Bool := startsMarkup ((cs.drop n).dropWhile Text.isSpace)
  if atWordStart before && "return".toList.isPrefixOf cs && announced 6 then some 6
  else if atWordStart before && "yield".toList.isPrefixOf cs && announced 5 then some 5
  else if "=>".toList.isPrefixOf cs && announced 2 then some 2
  else if cs.head?.any isLeadChar && announced 1 then some 1
  else none

/-- The start of an opening tag: the angle and the name. -/
def openingTag? : List Char → Option Match
  | '<' :: cs => (Text.nameLength? .tag cs).map fun n => ⟨[(.delimiter, 1), (.tagName, n)], .enter .tag⟩
  | _ => none

/-- The length of a closing tag; white space is allowed around the slash and the name, and the name may be
missing. -/
def closingTagLength? : List Char → Option Nat
  | '<' :: cs =>
    let a := spaceLength cs
    match cs.drop a with
    | '/' :: cs =>
      let b := spaceLength cs
      let n := (Text.nameLength? .tag (cs.drop b)).getD 0
      let c := spaceLength (cs.drop (b + n))
      if (cs.drop (b + n + c)).head? == some '>' then some (a + b + n + c + 3) else none
    | _ => none
  | _ => none

/-- The length of the rest of a block comment, including its end. -/
def blockCommentRest? : List Char → Option Nat
  | [] => none
  | [_] => none
  | c :: d :: cs => if c == '*' && d == '/' then some 2 else (blockCommentRest? (d :: cs)).map (· + 1)

/-- A comment to the end of the line or between its marks. -/
def comment? : List Char → Option Match
  | '/' :: '/' :: cs => one .comment ((cs.takeWhile (· != '\n')).length + 2) .stay
  | '/' :: '*' :: cs =>
    match blockCommentRest? cs with
    | some n => one .comment (n + 2) .stay
    | none => none
  | _ => none

/-- A string of the script. -/
def scriptString? : List Char → Option Match
  | '"' :: cs => (Expression.quotedLength? false '"' cs).bind fun n => one .doubleQuoted (n + 1) .stay
  | '\'' :: cs => (Expression.quotedLength? false '\'' cs).bind fun n => one .singleQuoted (n + 1) .stay
  | _ => none

/-- A string as an attribute value, up to the next quote of its kind. -/
def attributeString? : List Char → Option Match
  | '"' :: cs =>
    if cs.contains '"' then one .doubleQuoted ((cs.takeWhile (· != '"')).length + 2) .stay else none
  | '\'' :: cs =>
    if cs.contains '\'' then one .singleQuoted ((cs.takeWhile (· != '\'')).length + 2) .stay else none
  | _ => none

/-- What announces markup, as a match. -/
def lead? (before : Option Char) (cs : List Char) : Option Match :=
  (leadLength? before cs).bind fun n => one .delimiter n (.enter .markup)

/-- Strings, template literals and comments of the script. -/
def literal? (cs : List Char) : Option Match :=
  scriptString? cs <|> (if cs.head? == some '`' then one .template 1 (.enter .template) else none) <|>
    comment? cs

/-- A fragment or an opening tag. -/
def markup? (cs : List Char) : Option Match :=
  if "<>".toList.isPrefixOf cs then one .delimiter 2 (.enter .fragment) else openingTag? cs

/-- Markup at the very start of the text, or the white space before it. -/
def firstMarkup? (cs : List Char) : Option Match :=
  let n := spaceLength cs
  if 0 < n && startsMarkup (cs.drop n) then one .space n (.enter .markup) else markup? cs

/-- A name of an attribute. -/
def attrName? (cs : List Char) : Option Match :=
  (Text.nameLength? .attr cs).bind fun n => one .attrName n .stay

/-- The rules inside an opening tag. -/
def tag? (cs : List Char) : Option Match :=
  match cs with
  | [] => none
  | c :: _ =>
    if Text.isSpace c then one .space (spaceLength cs) .stay
    else if "/>".toList.isPrefixOf cs then one .delimiter 2 (.leave 1)
    else if c == '>' then one .delimiter 1 (.enter .content)
    else if c == '=' then one .equals 1 .stay
    else if c == '\x7b' then one .delimiter 1 (.enter .braces)
    else attrName? cs <|> attributeString? cs <|> comment? cs

/-- The rules between tags; a closing tag leaves `count` modes. -/
def content? (count : Nat) (cs : List Char) : Option Match :=
  match closingTagLength? cs with
  | some n => one .delimiter n (.leave count)
  | none =>
    markup? cs <|>
      match cs with
      | [] => none
      | c :: _ =>
        if c == '\x7b' then one .delimiter 1 (.enter .braces)
        else if c == '<' then one .invalid 1 .stay
        else one .text (cs.takeWhile fun d => d != '<' && d != '\x7b').length .stay

/-- The rules inside expressions, where `closers` end the mode. -/
def expression? (closers : List Char) (before : Option Char) (cs : List Char) : Option Match :=
  match cs with
  | [] => none
  | c :: _ =>
    if closers.contains c then one .delimiter 1 (.leave 1)
    else
      lead? before cs <|>
        if c == '\x7b' then one .delimiter 1 (.enter .braces)
        else if c == '(' || c == '[' then one .delimiter 1 (.enter .group)
        else if c == ',' || c == ':' then one .separator 1 .stay
        else literal? cs

/-- The rules inside a template literal. -/
def template? : List Char → Option Match
  | [] => none
  | '`' :: _ => one .template 1 (.leave 1)
  | '$' :: '\x7b' :: _ => one .delimiter 2 (.enter .braces)
  | '$' :: _ => one .template 1 .stay
  | '\\' :: [] => none
  | '\\' :: _ :: _ => one .template 2 .stay
  | cs => one .template (cs.takeWhile fun c => c != '`' && c != '\\' && c != '$').length .stay

/-- The match at a position of the text in this mode. -/
def match? (mode : Mode) (atStart : Bool) (before : Option Char) (cs : List Char) : Option Match :=
  match mode with
  | .script => (if atStart then firstMarkup? cs else none) <|> lead? before cs <|> literal? cs
  | .markup => if spaceLength cs == 0 then markup? cs else one .space (spaceLength cs) .stay
  | .tag => tag? cs
  | .content => content? 2 cs
  | .fragment => content? 1 cs
  | .braces => expression? ['\x7d'] before cs
  | .group => expression? [')', ']'] before cs
  | .template => template? cs

/-- What unmatched text is in this mode. -/
def rest? : Mode → Option TokenKind
  | .script | .braces | .group => some .text
  | .tag => some .invalid
  | _ => none

/-- The open modes, innermost first, with those left in which announced markup is over. -/
def settle (cs : List Char) : List Mode → List Mode
  | .markup :: stack => if (match? .markup false none cs).isSome then .markup :: stack else settle cs stack
  | stack => stack

/-- The innermost mode; outside all others there is script. -/
def current (stack : List Mode) : Mode := stack.head?.getD .script

/-- The open modes after a match. -/
def Move.apply (stack : List Mode) : Move → List Mode
  | .stay => stack
  | .enter mode => mode :: stack
  | .leave count => stack.drop count

/-- The tokens of a match at a position. -/
def tokens (pos : Nat) (cs : List Char) : List (TokenKind × Nat) → List Event
  | [] => []
  | (kind, n) :: parts => .token ⟨kind, pos, .ofList (cs.take n)⟩ :: tokens (pos + n) (cs.drop n) parts

/-- The events of a match. The tokens that start a stretch belong to it, except that the content of an element
begins after its tag. Announced markup is no stretch of its own. -/
def Match.events (m : Match) (pos : Nat) (cs : List Char) : List Event :=
  let ts := tokens pos cs m.parts
  match m.move with
  | .stay => ts
  | .enter .markup => ts
  | .enter .content => ts ++ [.enter .content]
  | .enter mode => .enter mode :: ts
  | .leave count => ts ++ List.replicate count .leave

/-- The token of the unmatched characters before `pos`, which are given last one first. -/
def pendingToken (mode : Mode) (pos : Nat) (pending : List Char) : List Event :=
  match rest? mode with
  | some kind =>
    if pending.isEmpty then [] else [.token ⟨kind, pos - pending.length, .ofList pending.reverse⟩]
  | none => []

/-- The events of the rest of a text. The first `skip` characters belong to a match already made, and `pending`
are the unmatched characters before the position, last one first. -/
def eventsFrom (stack : List Mode) (before : Option Char) (pos skip : Nat) (pending : List Char) :
    List Char → List Event
  | [] => pendingToken (current stack) pos pending
  | c :: cs =>
    match skip with
    | skip + 1 => eventsFrom stack (some c) (pos + 1) skip pending cs
    | 0 =>
      let stack := settle (c :: cs) stack
      match match? (current stack) (pos == 0) before (c :: cs) with
      | some m =>
        pendingToken (current stack) pos pending ++ m.events pos (c :: cs) ++
          eventsFrom (m.move.apply stack) (some c) (pos + 1) (m.length - 1) [] cs
      | none => eventsFrom stack (some c) (pos + 1) 0 (c :: pending) cs

/-- The events of a source text. -/
def events (text : String) : List Event := eventsFrom [] none 0 0 [] text.toList

end JsxEdit.Scan
