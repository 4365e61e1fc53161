import JsxEdit.Editor
import JsxEdit.Proofs.Transcoding

/-
What an editor does to files.

A name that leads to a file goes on leading to it whatever is written, so that the file an edit was read from can be
written again. The one thing that can go wrong at that point is a character that the encoding lacks, and by then the file
is empty. The backup holds the text that was read, written again: these are the bytes that the file held if they had the
mark of the encoding and no returns, since in reading returns are taken for line feeds.
-/
set_option autoImplicit false

namespace JsxEdit

/-! ## Newlines -/

namespace Text

theorem mem_unifyNewlines {c : Char} {cs : List Char} (h : c ∈ unifyNewlines cs) : c ∈ cs ∧ c ≠ '\r' ∨ c = '\n' := by
  fun_induction unifyNewlines cs with
  | case1 => cases h
  | case2 d => grind
  | case3 c d cs hc hd ih => grind
  | case4 c d cs hc hd ih => grind
  | case5 c d cs hc ih => grind

theorem unifyNewlines_eq_self {cs : List Char} : unifyNewlines cs = cs ↔ '\r' ∉ cs := by
  constructor
  · intro h hr
    rw [← h] at hr
    rcases mem_unifyNewlines hr with ⟨-, hne⟩ | heq
    · exact hne rfl
    · cases heq
  · intro h
    fun_induction unifyNewlines cs with
    | case1 => rfl
    | case2 c => grind
    | case3 c d cs hc hd ih => grind
    | case4 c d cs hc hd ih => grind
    | case5 c d cs hc ih => grind

end Text

/-! ## Names of files -/

theorem Dict.has_put {α : Type} (d : Dict α) (key other : String) (value : α) :
    (d.put key value).has other = (key == other || d.has other) := by
  induction d with
  | nil => simp [put, has]
  | cons e rest ih =>
    obtain ⟨k, v⟩ := e
    simp only [has] at ih
    by_cases hk : k = key
    · simp [put, has, hk]
    · simp [put, has, hk, ih, Bool.or_left_comm]

namespace Files

/-- The files with other bytes under a key. -/
def put (fs : Files) (k : String) (bytes : ByteArray) : Files := { fs with contents := fs.contents.put k bytes }

/-- What leads to a key leads to a file once there is one. -/
def filled (k : String) : Target → Target
  | .absent k' => if k == k' then .file k' else .absent k'
  | t => t

theorem target_put (fs : Files) (k : String) (bytes : ByteArray) (directory : List String) (part : String) :
    (fs.put k bytes).target directory part = filled k (fs.target directory part) := by
  unfold target
  split
  · rfl
  · simp only [put, Dict.has_put]
    split
    · rfl
    · cases hk : k == key (directory ++ [part]) <;> cases fs.contents.has (key (directory ++ [part])) <;> simp [filled, hk]

/-- Directories stay, so a name that leads somewhere leads to the same place. -/
theorem follow_put {fs : Files} (k : String) (bytes : ByteArray) {directory parts : List String} {t : Target}
    (h : fs.follow directory parts = .ok t) : (fs.put k bytes).follow directory parts = .ok (filled k t) := by
  fun_induction fs.follow directory parts with
  | case1 =>
    cases h
    rfl
  | case2 => cases h
  | case3 directory part hlen =>
    cases h
    rw [follow, if_neg hlen, target_put]
  | case4 => cases h
  | case5 directory part parts hparts hlen hblank ih =>
    rw [follow, if_neg hlen, if_pos hblank]
    · exact ih h
    · exact hparts
  | case6 directory part parts hparts hlen hblank hup ih =>
    rw [follow, if_neg hlen, if_neg hblank, if_pos hup]
    · exact ih h
    · exact hparts
  | case7 directory part parts hparts hlen hblank hup htarget ih =>
    rw [follow, if_neg hlen, if_neg hblank, if_neg hup, target_put, htarget]
    · exact ih h
    · exact hparts
  | case8 => cases h
  | case9 => cases h

theorem lookup_put {fs : Files} (k : String) (bytes : ByteArray) {name : String} {t : Target} (h : fs.lookup name = .ok t) :
    (fs.put k bytes).lookup name = .ok (filled k t) := by
  unfold lookup at h ⊢
  split at h
  · cases h
  · next hempty =>
    split at h
    · cases h
    · next hlen =>
      rw [if_neg hempty, if_neg hlen]
      split at h
      · next t' ht =>
        cases h
        rw [follow_put k bytes ht]
      · cases h

/-- A last part without characters leads to no file. -/
theorem not_file_of_blank {fs : Files} {directory parts : List String} {k : String} (hlast : parts.getLast? = some "") :
    fs.follow directory parts ≠ .ok (.file k) := by
  fun_induction fs.follow directory parts with
  | case1 => cases hlast
  | case2 => exact nofun
  | case3 directory part =>
    obtain rfl : part = "" := Option.some.inj hlast
    exact nofun
  | case4 => exact nofun
  | case5 directory part parts hparts hlen hblank ih => exact ih (by rwa [List.getLast?_cons_of_ne_nil hparts] at hlast)
  | case6 directory part parts hparts hlen hblank hup ih =>
    exact ih (by rwa [List.getLast?_cons_of_ne_nil hparts] at hlast)
  | case7 directory part parts hparts hlen hblank hup htarget ih =>
    exact ih (by rwa [List.getLast?_cons_of_ne_nil hparts] at hlast)
  | case8 => exact nofun
  | case9 => exact nofun

/-- After a last slash comes a part without characters. -/
theorem getLast?_partsFrom {part cs : List Char} (h : cs.getLast? = some '/') :
    (Text.partsFrom part cs).getLast? = some "" := by
  fun_induction Text.partsFrom part cs with
  | case1 => cases h
  | case2 part c cs hc ih =>
    cases cs with
    | nil => rfl
    | cons d ds =>
      rw [List.getLast?_cons_cons] at h
      rw [List.getLast?_cons, ih h]
      rfl
  | case3 part c cs hc ih =>
    cases cs with
    | nil => exact absurd (beq_iff_eq.mpr (Option.some.inj h)) hc
    | cons d ds =>
      rw [List.getLast?_cons_cons] at h
      exact ih h

/-- A file that can be found can be written, under the same key. -/
theorem writable_of_file {fs : Files} {name k : String} (h : fs.lookup name = .ok (.file k)) : fs.writable name = .ok k := by
  have hslash : namesDirectory name = false := by
    rw [← Bool.not_eq_true]
    intro hslash
    have hlast : (Text.nameParts name).getLast? = some "" := getLast?_partsFrom (eq_of_beq hslash)
    unfold lookup at h
    split at h
    · cases h
    · split at h
      · cases h
      · split at h
        · next t ht =>
          cases h
          exact not_file_of_blank hlast ht
        · cases h
  rw [writable, hslash, Bool.false_and, if_neg Bool.false_ne_true, h]

/-- A name that can be written leads to its file from then on. -/
theorem lookup_written {fs : Files} {name k : String} (h : fs.writable name = .ok k) (bytes : ByteArray) :
    (fs.put k bytes).lookup name = .ok (.file k) := by
  unfold writable at h
  split at h
  · split at h <;> cases h
  · split at h
    · cases h
    · cases h
    · next k' hk =>
      obtain rfl := Except.ok.inj h
      rw [lookup_put k' bytes hk]
      rfl
    · next k' hk =>
      obtain rfl := Except.ok.inj h
      rw [lookup_put k' bytes hk, filled, if_pos (beq_self_eq_true k')]

theorem bytes_of_file {fs : Files} {name k : String} (h : fs.lookup name = .ok (.file k)) :
    fs.bytes name = .ok ((fs.contents.get? k).getD ByteArray.empty) := by
  rw [bytes, h]
  rfl

theorem bytes_eq_ok {fs : Files} {name : String} {b : ByteArray} (h : fs.bytes name = .ok b) :
    ∃ k, fs.lookup name = .ok (.file k) ∧ (fs.contents.get? k).getD ByteArray.empty = b := by
  unfold bytes at h
  cases ht : fs.lookup name with
  | error e =>
    rw [ht] at h
    cases h
  | ok t =>
    rw [ht] at h
    cases t with
    | directory => cases h
    | absent k => cases h
    | file k => exact ⟨k, rfl, Except.ok.inj h⟩

/-! ## Reading and writing -/

/-- What a text that was read from a file is made of. -/
theorem read_eq_ok {fs : Files} {e : Encoding} {name s : String} (h : fs.read e name = .ok s) :
    checkName name = .ok () ∧ ∃ b text, fs.bytes name = .ok b ∧ e.decode b = .ok text ∧
      s = .ofList (Text.unifyNewlines text.toList) := by
  unfold read content at h
  cases hname : checkName name with
  | error f =>
    rw [hname] at h
    cases h
  | ok u =>
    cases hb : fs.bytes name with
    | error e' =>
      rw [hname, hb] at h
      cases h
    | ok b =>
      cases htext : e.decode b with
      | error f =>
        rw [hname, hb] at h
        simp only [bind, Except.bind, pure, Except.pure, htext] at h
        cases h
      | ok text =>
        rw [hname, hb] at h
        simp only [bind, Except.bind, pure, Except.pure, htext] at h
        exact ⟨rfl, b, text, rfl, htext, (Except.ok.inj h).symm⟩

/-- What writing does: nothing if the name cannot be written; otherwise the file gets the bytes of the text, or no bytes at
all if it has none. -/
theorem write_cases (fs : Files) (e : Encoding) (name text : String) :
    (∃ f, fs.write e name text = (fs, .error f) ∧
        (checkName name = .error f ∨ ∃ p, fs.writable name = .error p ∧ f = .file p)) ∨
      checkName name = .ok () ∧ ∃ k, fs.writable name = .ok k ∧ fs.write e name text =
        match e.encode? text with
        | some b => (fs.put k b, .ok ())
        | none => (fs.put k ByteArray.empty, .error .unencodable) := by
  unfold write
  cases hname : checkName name with
  | error f => exact .inl ⟨f, rfl, .inl rfl⟩
  | ok u =>
    cases hk : fs.writable name with
    | error p => exact .inl ⟨.file p, rfl, .inr ⟨p, rfl, rfl⟩⟩
    | ok k => exact .inr ⟨rfl, k, rfl, rfl⟩

theorem bytes_written {fs : Files} {name k : String} (h : fs.writable name = .ok k) (b : ByteArray) :
    (fs.put k b).bytes name = .ok b := by
  rw [bytes_of_file (lookup_written h b), put, Dict.get?_put_self]
  rfl

/-- Writing under another key leaves a file as it was. -/
theorem bytes_put_of_ne {fs : Files} {name k other : String} (h : fs.lookup name = .ok (.file k)) (hne : k ≠ other)
    (b : ByteArray) : (fs.put other b).bytes name = fs.bytes name := by
  have hlookup := lookup_put other b h
  rw [bytes_of_file hlookup, bytes_of_file h, put, Dict.get?_put_of_ne _ _ hne]

end Files
end JsxEdit
