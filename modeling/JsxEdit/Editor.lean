import JsxEdit.Edit.Outcome
import JsxEdit.Files
import JsxEdit.Node.Generate
import JsxEdit.Source.Read

/-
Edits on source texts and on files.

The source is read, the operation is carried out on the document, and the document is written again. A file is
written only after all of this has succeeded; its old text may be saved in a backup first.
-/
set_option autoImplicit false

namespace JsxEdit

/-- The result for a source text: the new text if all went well, what happened in words, and the result of the
operation if it was reached. -/
structure EditResult where
  code : Option String
  message : String
  result : Option Outcome

/-- Whether all went well. -/
def EditResult.success (r : EditResult) : Bool := r.code.isSome

/-- An operation on a document. -/
abbrev Operation := Node → Reply

/-- A result, or a fault, and the records on the way. -/
structure Logged (α : Type) where
  log : List Record
  result : Except Fault α

/-- Carries out the operation on a source text. -/
def editText (text : String) (operation : Operation) : Logged EditResult :=
  match Source.parse text with
  | .error e =>
    ⟨[⟨.warning, .files, "parse error: " ++ e.message⟩], .ok ⟨none, "Parse error: " ++ e.message, none⟩⟩
  | .ok tree =>
    let reply := operation tree
    match reply.result with
    | .error f => ⟨reply.log, .error f⟩
    | .ok outcome =>
      if !outcome.success then ⟨reply.log, .ok ⟨none, outcome.message, some outcome⟩⟩
      else
        match reply.tree.generate true with
        | .ok code => ⟨reply.log, .ok ⟨some code, outcome.message, some outcome⟩⟩
        | .error (.generation e) =>
          let failure := Reply.failed reply.tree .generation ("Generation error: " ++ e.message) []
          ⟨reply.log ++ failure.log,
            failure.result.map fun o => ⟨none, o.message, some o⟩⟩
        | .error f => ⟨reply.log, .error f⟩

/-- How files are edited. -/
structure Editor where
  backup : Bool := true
  backupSuffix : String := ".bak"
  encoding : Encoding := .utf8

namespace Editor

/-- The text of the file. -/
def read (e : Editor) (fs : Files) (name : String) : Except Fault String := fs.read e.encoding name

/-- The files after writing the text. -/
def write (e : Editor) (fs : Files) (name text : String) : Files × Except Fault Unit :=
  fs.write e.encoding name text

/-- Carries out the operation on the text of the file without writing it; also gives that text. -/
def processText (e : Editor) (fs : Files) (name : String) (operation : Operation) :
    Logged (EditResult × String) :=
  match e.read fs name with
  | .error (.file problem) =>
    ⟨[⟨.warning, .files, "can't read " ++ name ++ ": " ++ problem.message⟩],
      .ok (⟨none, "Error reading file: " ++ problem.message, none⟩, "")⟩
  | .error f => ⟨[], .error f⟩
  | .ok text =>
    let edited := editText text operation
    ⟨edited.log, edited.result.map (·, text)⟩

/-- Carries out the operation on the text of the file without writing it. -/
def process (e : Editor) (fs : Files) (name : String) (operation : Operation) : Logged EditResult :=
  let edited := e.processText fs name operation
  ⟨edited.log, edited.result.map (·.1)⟩

/-- Writes the backup, if one is wanted, and then the file. -/
def store (e : Editor) (fs : Files) (name old new : String) : Files × Except Fault Unit :=
  if e.backup then
    match e.write fs (name ++ e.backupSuffix) old with
    | (fs, .error f) => (fs, .error f)
    | (fs, .ok ()) => e.write fs name new
  else e.write fs name new

/-- Carries out the operation on the file and writes the new text. -/
def processAndWrite (e : Editor) (fs : Files) (name : String) (operation : Operation) :
    Files × Logged EditResult :=
  let edited := e.processText fs name operation
  match edited.result with
  | .error f => (fs, ⟨edited.log, .error f⟩)
  | .ok (result, text) =>
    match result.code with
    | none => (fs, ⟨edited.log, .ok result⟩)
    | some code =>
      match e.store fs name text code with
      | (fs, .ok ()) =>
        (fs, ⟨edited.log ++ [⟨.info, .files, "wrote " ++ name ++ ": " ++ result.message⟩], .ok result⟩)
      | (fs, .error (.file problem)) =>
        (fs, ⟨edited.log ++ [⟨.warning, .files, "can't write " ++ name ++ ": " ++ problem.message⟩],
          .ok ⟨none, "Error writing file: " ++ problem.message, result.result⟩⟩)
      | (fs, .error f) => (fs, ⟨edited.log, .error f⟩)

/-- What an editor can be asked for: to try an operation on a file, or to carry it out and write the new text. -/
inductive Request where
  | process (operation : Operation)
  | processAndWrite (operation : Operation)

/-- Serves a request on a file: the files after it, and the result. -/
def serve (e : Editor) (fs : Files) (name : String) : Request → Files × Logged EditResult
  | .process operation => (fs, e.process fs name operation)
  | .processAndWrite operation => e.processAndWrite fs name operation

end Editor
end JsxEdit
