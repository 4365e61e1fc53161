import JsxEdit.Dict
import JsxEdit.Encoding
import JsxEdit.Source.Read

/-
Files as a map from names to bytes, beside the names of the directories that are there.

A name is looked up step by step from the current directory. Text is read and written in an encoding; in reading,
a return with or without a line feed after it counts as a line feed.
-/
set_option autoImplicit false

namespace JsxEdit

namespace Text

/-- The characters with every return, and a line feed after it, made one line feed. -/
def unifyNewlines : List Char → List Char
  | [] => []
  | [c] => [if c == '\r' then '\n' else c]
  | c :: d :: cs =>
    if c == '\r' then if d == '\n' then '\n' :: unifyNewlines cs else '\n' :: unifyNewlines (d :: cs)
    else c :: unifyNewlines (d :: cs)

/-- The parts of a name between slashes; `part` is the current one, last character first. -/
def partsFrom (part : List Char) : List Char → List String
  | [] => [.ofList part.reverse]
  | c :: cs => if c == '/' then .ofList part.reverse :: partsFrom [] cs else partsFrom (c :: part) cs

/-- The parts of a name between slashes. -/
def nameParts (name : String) : List String := partsFrom [] name.toList

end Text

/-- Files by their names from the current directory, and the directories in it. -/
structure Files where
  contents : Dict ByteArray
  directories : List String

/-- What a name leads to. -/
inductive Target where
  | directory
  | file (key : String)
  | absent (key : String)
  deriving DecidableEq, Repr

namespace Files

/-- The key of a file or directory from the parts of its name. -/
def key (parts : List String) : String := Text.join "/" parts

/-- The most bytes that a part of a name has. -/
def maxPart : Nat := 255

/-- The most bytes that a name has. -/
def maxName : Nat := 4095

/-- What a last part of a name leads to in a directory. -/
def target (fs : Files) (directory : List String) (part : String) : Target :=
  if part == "" || part == "." || part == ".." then .directory
  else
    let k := key (directory ++ [part])
    if fs.directories.contains k then .directory
    else if fs.contents.has k then .file k
    else .absent k

/-- The directory around a directory; those around the current one are not known, and the root is its own. -/
def up (directory : List String) : List String :=
  match directory.getLast? with
  | none | some ".." => directory ++ [".."]
  | some "/" => directory
  | some _ => directory.dropLast

/-- The directory in which a name starts. -/
def base (name : String) : List String := if Text.startsWith name "/" then ["/"] else []

/-- Follows the parts of a name from a directory. -/
def follow (fs : Files) (directory : List String) : List String → Except FileProblem Target
  | [] => .ok .directory
  | [part] => if maxPart < part.utf8ByteSize then .error .tooLong else .ok (fs.target directory part)
  | part :: parts =>
    if maxPart < part.utf8ByteSize then .error .tooLong
    else if part == "" || part == "." then fs.follow directory parts
    else if part == ".." then fs.follow (up directory) parts
    else
      match fs.target directory part with
      | .directory => fs.follow (directory ++ [part]) parts
      | .file _ => .error .notDirectory
      | .absent _ => .error .missing

/-- What the name leads to. -/
def lookup (fs : Files) (name : String) : Except FileError Target :=
  if name.isEmpty then .error ⟨.missing, name⟩
  else if maxName < name.utf8ByteSize then .error ⟨.tooLong, name⟩
  else
    match fs.follow (base name) (Text.nameParts name) with
    | .ok t => .ok t
    | .error problem => .error ⟨problem, name⟩

/-- The bytes of the file. -/
def bytes (fs : Files) (name : String) : Except FileError ByteArray := do
  match ← fs.lookup name with
  | .directory => throw ⟨.isDirectory, name⟩
  | .absent _ => throw ⟨.missing, name⟩
  | .file k => return (fs.contents.get? k).getD ByteArray.empty

/-- Whether the name ends with a slash, which only a directory has. -/
def namesDirectory (name : String) : Bool := name.toList.getLast? == some '/'

/-- The parts of the name up to the directory that the last one is in. -/
def around (name : String) : List String :=
  ((Text.nameParts name).reverse.dropWhile (·.isEmpty)).reverse.dropLast

/-- The key under which the file can be written. A name that ends with a slash is refused as soon as the directory
around it is found. -/
def writable (fs : Files) (name : String) : Except FileError String :=
  if namesDirectory name && name.utf8ByteSize ≤ maxName then
    match fs.follow (base name) (around name ++ ["."]) with
    | .error problem => .error ⟨problem, name⟩
    | .ok _ => .error ⟨.isDirectory, name⟩
  else
    match fs.lookup name with
    | .error e => .error e
    | .ok .directory => .error ⟨.isDirectory, name⟩
    | .ok (.file k) => .ok k
    | .ok (.absent k) => .ok k

/-- Fails for a name that no file can have. -/
def checkName (name : String) : Except Fault Unit :=
  if name.toList.contains '\x00' then .error .badValue else .ok ()

/-- The bytes of the file, or the fault in reading it. -/
def content (fs : Files) (name : String) : Except Fault ByteArray := do
  checkName name
  match fs.bytes name with
  | .error e => throw (.file e)
  | .ok bytes => return bytes

/-- The text of the file, with line feeds for all newlines. -/
def read (fs : Files) (encoding : Encoding) (name : String) : Except Fault String := do
  return .ofList (Text.unifyNewlines (← encoding.decode (← fs.content name)).toList)

/-- The files after writing the text. The file is emptied before the text is encoded, so it is left empty if the
encoding lacks a character. -/
def write (fs : Files) (encoding : Encoding) (name text : String) : Files × Except Fault Unit :=
  match checkName name, fs.writable name with
  | .error f, _ => (fs, .error f)
  | .ok (), .error e => (fs, .error (.file e))
  | .ok (), .ok k =>
    match encoding.encode? text with
    | some bytes => ({ fs with contents := fs.contents.put k bytes }, .ok ())
    | none => ({ fs with contents := fs.contents.put k ByteArray.empty }, .error .unencodable)

/-- A name without needless parts: the slashes it starts with, how far it leads up, and the parts from there. -/
structure Address where
  root : String
  ups : Nat
  parts : List String
  deriving DecidableEq, Repr

/-- An address one part further. -/
def Address.step (a : Address) (part : String) : Address :=
  if part == "" || part == "." then a
  else if part == ".." then
    if a.parts.isEmpty then { a with ups := if a.root.isEmpty then a.ups + 1 else 0 }
    else { a with parts := a.parts.dropLast }
  else { a with parts := a.parts ++ [part] }

/-- The slashes that count at the start of a name: two are kept, any other number is one. -/
def rootOf (name : String) : String :=
  match (name.toList.takeWhile (· == '/')).length with
  | 0 => ""
  | 2 => "//"
  | _ => "/"

/-- The address that a name stands for; names of one address are names of one file. -/
def address (name : String) : Address :=
  (Text.nameParts name).foldl Address.step ⟨rootOf name, 0, []⟩

/-- The shortest name of an address. -/
def Address.name (a : Address) : String :=
  let path := key (List.replicate a.ups ".." ++ a.parts)
  if a.root.isEmpty && path.isEmpty then "." else a.root ++ path

/-- The ways to ask for newlines as they are. -/
def newlineNames : List String := ["", "\n", "\r", "\r\n"]

/-- The text of the file at the address of the name, whatever way the name takes. The bytes tell their encoding, or are
UTF-8. Newlines are made line feeds unless they are asked for as they are. -/
def load (fs : Files) (newline : Option String) (name : String) : Except Fault String := do
  let bytes ← fs.content (address name).name
  if newline.any fun s => !newlineNames.contains s then throw .badValue
  let s ← Encoding.detect .utf8 bytes
  return if newline.isSome then s else .ofList (Text.unifyNewlines s.toList)

/-- The text of the file and its document, unchecked; an empty file has none. -/
def loadDocument (fs : Files) (newline : Option String) (name : String) : Except Fault (String × Node) := do
  let s ← fs.load newline name
  if s.isEmpty then throw .noMember
  return (s, Source.document s)

end Files
end JsxEdit
