import JsxEdit.Edit.Update
import JsxEdit.Proofs.Storage

/-
What an edit leaves in the files.

An edit writes nothing before it has the new text. So if it does not succeed, no file is changed, with one exception: a
new text with a character that the encoding lacks is only noticed when the file has been emptied. If it succeeds, the file
holds the new text, and the backup holds the old one, which are the old bytes unless reading or writing changes them.
-/
set_option autoImplicit false

namespace JsxEdit

/-- Whether there is a result that tells of success. -/
def Logged.succeeds (answer : Logged EditResult) : Bool :=
  match answer.result with
  | .ok r => r.success
  | .error _ => false

@[simp] theorem Logged.succeeds_error (log : List Record) (f : Fault) :
    (⟨log, .error f⟩ : Logged EditResult).succeeds = false := rfl

@[simp] theorem Logged.succeeds_ok (log : List Record) (r : EditResult) :
    (⟨log, .ok r⟩ : Logged EditResult).succeeds = r.code.isSome := rfl

theorem Logged.succeeds_of_code {answer : Logged EditResult} {r : EditResult} {code : String} (hr : answer.result = .ok r)
    (hcode : r.code = some code) : answer.succeeds = true := by
  obtain ⟨log, result⟩ := answer
  obtain rfl : result = .ok r := hr
  rw [succeeds_ok, hcode, Option.isSome_some]

theorem Logged.exists_code {answer : Logged EditResult} (h : answer.succeeds = true) :
    ∃ r code, answer.result = .ok r ∧ r.code = some code := by
  obtain ⟨log, result⟩ := answer
  cases result with
  | error f => cases h
  | ok r =>
    obtain ⟨code, hcode⟩ := Option.isSome_iff_exists.mp h
    exact ⟨r, code, rfl, hcode⟩

namespace Editor

/-- The text of an edited file, as it would be written. -/
def newText? (e : Editor) (fs : Files) (name : String) (operation : Operation) : Option String :=
  match (e.process fs name operation).result with
  | .ok r => r.code
  | .error _ => none

/-- The name of the backup of a file. -/
def backupName (e : Editor) (name : String) : String := name ++ e.backupSuffix

/-- What storing a text finds and leaves: the backup cannot be written, the encoding lacks a character of the new text, or
both texts are written. -/
inductive Stored (e : Editor) (fs : Files) (name old new : String) : Files × Except Fault Unit → Prop where
  | refused (f : Fault) : Stored e fs name old new (fs, .error f)
  | emptied {fs' : Files} (lacks : ∃ c ∈ new.toList, e.encoding.has c = false)
      (empty : fs'.bytes name = .ok ByteArray.empty) : Stored e fs name old new (fs', .error .unencodable)
  | plain {k : String} {written : ByteArray} (backup : e.backup = false) (place : fs.lookup name = .ok (.file k))
      (text : e.encoding.encode? new = some written) : Stored e fs name old new (fs.put k written, .ok ())
  | saved {k k' : String} {written saved : ByteArray} (backup : e.backup = true)
      (place : fs.lookup name = .ok (.file k)) (beside : fs.writable (e.backupName name) = .ok k')
      (copy : e.encoding.encode? old = some saved) (text : e.encoding.encode? new = some written) :
      Stored e fs name old new ((fs.put k' saved).put k written, .ok ())

theorem exists_lacking {e : Encoding} {s : String} (h : e.encode? s = none) : ∃ c ∈ s.toList, e.has c = false := by
  have hall := e.isSome_encode? s
  rw [h, Option.isSome_none] at hall
  obtain ⟨c, hc, hlacks⟩ := List.all_eq_false.mp hall.symm
  exact ⟨c, hc, Bool.not_eq_true _ ▸ hlacks⟩

/-- A file that can be found is written, or emptied. -/
theorem write_found {e : Editor} {fs : Files} {name k : String} (hname : Files.checkName name = .ok ())
    (hk : fs.lookup name = .ok (.file k)) (text : String) :
    (∃ b, e.encoding.encode? text = some b ∧ e.write fs name text = (fs.put k b, .ok ())) ∨
      (∃ c ∈ text.toList, e.encoding.has c = false) ∧
        e.write fs name text = (fs.put k ByteArray.empty, .error .unencodable) := by
  have hwritable := Files.writable_of_file hk
  rcases fs.write_cases e.encoding name text with ⟨f, -, hf | ⟨p, hp, -⟩⟩ | ⟨-, k', hk', hwrite⟩
  · rw [hname] at hf
    cases hf
  · rw [hwritable] at hp
    cases hp
  · rw [hwritable] at hk'
    obtain rfl := Except.ok.inj hk'
    cases htext : e.encoding.encode? text with
    | some b => exact .inl ⟨b, rfl, by rw [write, hwrite, htext]⟩
    | none => exact .inr ⟨exists_lacking htext, by rw [write, hwrite, htext]⟩

/-- A text whose characters the encoding has can be encoded. -/
theorem exists_encoded {e : Encoding} {s : String} (h : ∀ c ∈ s.toList, e.has c = true) : ∃ b, e.encode? s = some b :=
  Option.isSome_iff_exists.mp ((e.isSome_encode? s).trans (List.all_eq_true.mpr h))

theorem stored {e : Editor} {fs : Files} {name k old : String} (hname : Files.checkName name = .ok ())
    (hk : fs.lookup name = .ok (.file k)) (hold : ∀ c ∈ old.toList, e.encoding.has c = true) (new : String) :
    Stored e fs name old new (e.store fs name old new) := by
  unfold store
  cases hbackup : e.backup with
  | false =>
    rw [if_neg Bool.false_ne_true]
    rcases write_found hname hk new with ⟨b, hb, hwrite⟩ | ⟨hlacks, hwrite⟩
    · rw [hwrite]
      exact .plain hbackup hk hb
    · rw [hwrite]
      exact .emptied hlacks (Files.bytes_written (Files.writable_of_file hk) _)
  | true =>
    rw [if_pos rfl]
    obtain ⟨saved, hsaved⟩ := exists_encoded hold
    rcases fs.write_cases e.encoding (e.backupName name) old with ⟨f, hwrite, -⟩ | ⟨-, k', hk', hwrite⟩
    · rw [write, ← backupName, hwrite]
      exact .refused f
    · rw [hsaved] at hwrite
      have hkept : (fs.put k' saved).lookup name = .ok (.file k) := Files.lookup_put k' saved hk
      rw [write, ← backupName, hwrite]
      change Stored e fs name old new (e.write (fs.put k' saved) name new)
      rcases write_found (e := e) hname hkept new with ⟨b, hb, hnew⟩ | ⟨hlacks, hnew⟩
      · rw [hnew]
        exact .saved hbackup hk hk' hsaved hb
      · rw [hnew]
        exact .emptied hlacks (Files.bytes_written (Files.writable_of_file hkept) _)

/-- The text that was read from a file can be written. -/
theorem has_of_read {e : Editor} {fs : Files} {name old : String} (h : e.read fs name = .ok old) :
    ∀ c ∈ old.toList, e.encoding.has c = true := by
  obtain ⟨-, b, text, -, htext, rfl⟩ := Files.read_eq_ok h
  intro c hc
  rw [String.toList_ofList] at hc
  rcases Text.mem_unifyNewlines hc with ⟨hmem, -⟩ | rfl
  · exact Encoding.has_of_decode htext c hmem
  · exact Encoding.has_newline _

/-- A new text comes with the text that the file held. -/
theorem processText_code {e : Editor} {fs : Files} {name old code : String} {operation : Operation} {r : EditResult}
    (h : (e.processText fs name operation).result = .ok (r, old)) (hcode : r.code = some code) :
    e.read fs name = .ok old := by
  unfold processText at h
  split at h
  · obtain ⟨rfl, -⟩ := Prod.mk.inj (Except.ok.inj h)
    cases hcode
  · cases h
  · next text hread =>
    dsimp only at h
    cases hedited : (editText text operation).result with
    | error f =>
      rw [hedited] at h
      cases h
    | ok r' =>
      rw [hedited] at h
      obtain ⟨-, rfl⟩ := Prod.mk.inj (Except.ok.inj h)
      exact hread

/-- What carrying out an operation on a file can come to: nothing is written; the file is emptied; or the new text is
stored. -/
inductive Performed (e : Editor) (fs : Files) (name : String) (operation : Operation) : Files × Logged EditResult → Prop where
  | stopped {answer : Logged EditResult} (fails : answer.succeeds = false) : Performed e fs name operation (fs, answer)
  | emptied {fs' : Files} {log : List Record} {code : String} (new : e.newText? fs name operation = some code)
      (lacks : ∃ c ∈ code.toList, e.encoding.has c = false) (empty : fs'.bytes name = .ok ByteArray.empty) :
      Performed e fs name operation (fs', ⟨log, .error .unencodable⟩)
  | written {fs' : Files} {log : List Record} {old code : String} {r : EditResult} (read : e.read fs name = .ok old)
      (new : r.code = some code) (kept : Stored e fs name old code (fs', .ok ())) :
      Performed e fs name operation (fs', ⟨log, .ok r⟩)

theorem performed (e : Editor) (fs : Files) (name : String) (operation : Operation) :
    Performed e fs name operation (e.processAndWrite fs name operation) := by
  unfold processAndWrite
  dsimp only
  cases hresult : (e.processText fs name operation).result with
  | error f => exact .stopped (Logged.succeeds_error _ f)
  | ok answer =>
    obtain ⟨r, old⟩ := answer
    dsimp only
    cases hcode : r.code with
    | none =>
      refine .stopped ?_
      rw [Logged.succeeds_ok, hcode, Option.isSome_none]
    | some code =>
      have hread := processText_code hresult hcode
      obtain ⟨hname, b, -, hbytes, -⟩ := Files.read_eq_ok hread
      obtain ⟨k, hk, -⟩ := Files.bytes_eq_ok hbytes
      have hnew : e.newText? fs name operation = some code := by
        rw [newText?, process, hresult]
        exact hcode
      have hstored := stored hname hk (has_of_read hread) code
      dsimp only
      generalize e.store fs name old code = after at hstored ⊢
      cases hstored with
      | refused f =>
        cases f with
        | file problem => exact .stopped (Logged.succeeds_ok _ _)
        | _ => exact .stopped (Logged.succeeds_error _ _)
      | emptied lacks empty => exact .emptied hnew lacks empty
      | plain backup place text => exact .written hread hcode (.plain backup place text)
      | saved backup place beside copy text => exact .written hread hcode (.saved backup place beside copy text)

/-- A request that does not succeed leaves all files as they were, unless the new text has a character that the encoding
lacks. Then the call fails when the file has been emptied already. Trying an operation changes no file. The encoding of the
editor is any of the eleven that there are. -/
theorem serve_unsuccessful (e : Editor) (fs : Files) (name : String) (operation : Operation) :
    (e.serve fs name (.process operation)).1 = fs ∧
    ((e.serve fs name (.processAndWrite operation)).2.succeeds = false →
      (e.serve fs name (.processAndWrite operation)).1 = fs ∨
      (∃ code, e.newText? fs name operation = some code ∧ ∃ c ∈ code.toList, e.encoding.has c = false) ∧
        (e.serve fs name (.processAndWrite operation)).2.result = .error .unencodable ∧
        (e.serve fs name (.processAndWrite operation)).1.bytes name = .ok ByteArray.empty) := by
  refine ⟨rfl, fun hfails => ?_⟩
  have hperformed : Performed e fs name operation (e.serve fs name (.processAndWrite operation)) :=
    e.performed fs name operation
  generalize e.serve fs name (.processAndWrite operation) = after at hfails hperformed ⊢
  cases hperformed with
  | stopped fails => exact .inl rfl
  | emptied new lacks empty => exact .inr ⟨⟨_, new, lacks⟩, rfl, empty⟩
  | written read new kept =>
    rw [Logged.succeeds_of_code rfl new] at hfails
    cases hfails

/-- A page with a paragraph and an end of line. -/
def page (ending : String) : String := "<p data-editable=\"t\">Old</p>" ++ ending

/-- The page in a file. -/
def pageFiles (ending : String) : Files := ⟨[("page.jsx", (page ending).toUTF8)], []⟩

/-- Gives the paragraph another text. -/
def renewal (text : String) : Operation := (Edit.updateText · "t" text)

theorem bytes_page (ending : String) : (pageFiles ending).bytes "page.jsx" = .ok (page ending).toUTF8 := rfl

theorem decode_page (ending : String) : Encoding.utf8.decode (page ending).toUTF8 = .ok (page ending) :=
  Encoding.decode_encode? (congrArg some (Encoding.mk_toList _))

/-- An editor that writes ASCII. -/
def asciiEditor : Editor := { encoding := .ascii }

/-- ASCII has no accents: with one in the new text the page is lost. -/
theorem accent_empties : (asciiEditor.serve (pageFiles "") "page.jsx" (.processAndWrite (renewal "é"))).2.succeeds = false ∧
    (pageFiles "").bytes "page.jsx" = .ok (page "").toUTF8 ∧
    (asciiEditor.serve (pageFiles "") "page.jsx" (.processAndWrite (renewal "é"))).1.bytes "page.jsx" = .ok ByteArray.empty := by
  have hfails : (asciiEditor.serve (pageFiles "") "page.jsx" (.processAndWrite (renewal "é"))).2.succeeds = false := by decide +kernel
  refine ⟨hfails, bytes_page "", ?_⟩
  rcases (serve_unsuccessful _ _ _ _).2 hfails with hsame | ⟨-, -, hempty⟩
  · have hchanged : (asciiEditor.serve (pageFiles "") "page.jsx" (.processAndWrite (renewal "é"))).1.contents ≠ (pageFiles "").contents := by
      decide +kernel
    exact absurd (congrArg Files.contents hsame) hchanged
  · exact hempty

/-- Bytes that were read come back if they have the mark of the encoding and no returns. -/
theorem encode?_unified {e : Encoding} {bytes saved : ByteArray} {text : String} (htext : e.decode bytes = .ok text)
    (hsaved : e.encode? (.ofList (Text.unifyNewlines text.toList)) = some saved) :
    saved = bytes ↔ e.mark <+: bytes.toList ∧ '\r' ∉ text.toList := by
  rw [← Text.unifyNewlines_eq_self, ← Encoding.encode?_decode htext]
  constructor
  · rintro rfl
    have hread := (Encoding.decode_encode? hsaved).symm.trans htext
    have hsame : String.ofList (Text.unifyNewlines text.toList) = text := Except.ok.inj hread
    exact ⟨hsame ▸ hsaved, String.toList_ofList.symm.trans (congrArg String.toList hsame)⟩
  · rintro ⟨hbytes, hsame⟩
    rw [hsame, String.ofList_toList, hbytes] at hsaved
    exact (Option.some.inj hsaved).symm

/-- After success the file holds the new text. The backup, if its name leads to another place, holds the old text as it was
read: these are the old bytes exactly if they have the mark of the encoding and no returns. The encoding of the editor is
any of the eleven that there are. -/
theorem backup_holds {e : Editor} {fs : Files} {name code : String} {operation : Operation} {r : EditResult}
    (hbackup : e.backup = true) (hr : (e.serve fs name (.processAndWrite operation)).2.result = .ok r)
    (hcode : r.code = some code) : ∃ bytes text saved written,
      fs.bytes name = .ok bytes ∧ e.encoding.decode bytes = .ok text ∧
      e.encoding.encode? (.ofList (Text.unifyNewlines text.toList)) = some saved ∧
      (saved = bytes ↔ e.encoding.mark <+: bytes.toList ∧ '\r' ∉ text.toList) ∧
      e.encoding.encode? code = some written ∧
      (e.serve fs name (.processAndWrite operation)).1.bytes name = .ok written ∧
      (fs.writable (e.backupName name) ≠ fs.writable name →
        (e.serve fs name (.processAndWrite operation)).1.bytes (e.backupName name) = .ok saved) ∧
      (fs.writable (e.backupName name) = fs.writable name →
        (e.serve fs name (.processAndWrite operation)).1.bytes (e.backupName name) = .ok written) := by
  have hperformed : Performed e fs name operation (e.serve fs name (.processAndWrite operation)) :=
    e.performed fs name operation
  generalize e.serve fs name (.processAndWrite operation) = after at hr hperformed ⊢
  cases hperformed with
  | stopped fails =>
    rw [Logged.succeeds_of_code hr hcode] at fails
    cases fails
  | emptied => cases hr
  | written read new kept =>
    obtain rfl := Except.ok.inj hr
    obtain rfl := Option.some.inj (new.symm.trans hcode)
    obtain ⟨-, bytes, text, hbytes, htext, rfl⟩ := Files.read_eq_ok read
    cases kept with
    | plain backup =>
      rw [hbackup] at backup
      cases backup
    | @saved k k' written saved backup place beside copy encoded =>
      have hplace : (fs.put k' saved).lookup name = .ok (.file k) := Files.lookup_put k' saved place
      have hbeside := Files.lookup_written beside saved
      have hwritable : fs.writable name = .ok k := Files.writable_of_file place
      refine ⟨bytes, text, saved, written, hbytes, htext, copy, encode?_unified htext copy, encoded,
        Files.bytes_written (Files.writable_of_file hplace) written, fun hne => ?_, fun heq => ?_⟩
      · have hkeys : k' ≠ k := fun h => hne (by rw [beside, hwritable, h])
        rw [Files.bytes_put_of_ne hbeside hkeys, Files.bytes_written beside]
      · rw [beside, hwritable] at heq
        obtain rfl := Except.ok.inj heq
        exact Files.bytes_written (Files.writable_of_file hbeside) written

/-- The backup of a page is the page if its line ends with a line feed, but not if a return comes before that. -/
theorem return_missing :
    (serve {} (pageFiles "\n") "page.jsx" (.processAndWrite (renewal "New"))).1.bytes "page.jsx.bak" =
      .ok (page "\n").toUTF8 ∧
    (serve {} (pageFiles "\r\n") "page.jsx" (.processAndWrite (renewal "New"))).1.bytes "page.jsx.bak" ≠
      .ok (page "\r\n").toUTF8 := by
  have hkept (ending : String)
      (h : (serve {} (pageFiles ending) "page.jsx" (.processAndWrite (renewal "New"))).2.succeeds = true) : ∃ saved,
        (serve {} (pageFiles ending) "page.jsx" (.processAndWrite (renewal "New"))).1.bytes "page.jsx.bak" = .ok saved ∧
        (saved = (page ending).toUTF8 ↔ '\r' ∉ (page ending).toList) := by
    obtain ⟨r, code, hr, hcode⟩ := Logged.exists_code h
    obtain ⟨bytes, text, saved, -, hbytes, htext, -, hsaved, -, -, hbeside, -⟩ := backup_holds rfl hr hcode
    obtain rfl := Except.ok.inj (hbytes.symm.trans (bytes_page ending))
    obtain rfl := Except.ok.inj (htext.symm.trans (decode_page ending))
    exact ⟨saved, hbeside nofun, hsaved.trans (and_iff_right List.nil_prefix)⟩
  constructor
  · obtain ⟨saved, hbytes, hsaved⟩ := hkept "\n" (by decide +kernel)
    rw [hbytes, hsaved.mpr (by decide +kernel)]
  · obtain ⟨saved, hbytes, hsaved⟩ := hkept "\r\n" (by decide +kernel)
    rw [hbytes]
    intro hsame
    exact absurd (hsaved.mp (Except.ok.inj hsame)) (by decide +kernel)

end Editor
end JsxEdit
