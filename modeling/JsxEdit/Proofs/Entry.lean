import JsxEdit.Proofs.Listing
import JsxEdit.Proofs.Names
import JsxEdit.Proofs.Restyle

/-
Properties that are made for styles.

Their keys and their values are plain text, so that they are read as what they are wherever they stand, if their name can
be written as a key.
-/
set_option autoImplicit false

namespace JsxEdit

open Scan (Spelled isMute)

/-- White space before a text is all there is around it. -/
theorem Text.edges_of_solid {space s : String} (hspace : isBlank space = true) (hs : Solid s.toList) :
    isBlank (space ++ s) = false ∧ lead (space ++ s) = space ∧ trim (space ++ s) = s ∧ trail (space ++ s) = "" := by
  have htext : space ++ s = .ofList (space.toList ++ s.toList ++ []) := by
    rw [List.append_nil, String.ofList_append, String.ofList_toList, String.ofList_toList]
  have hempty : ([] : List Char).all isSpace = true := rfl
  refine ⟨?_, ?_, ?_, ?_⟩
  · obtain ⟨c, rest, hcs, hc⟩ := hs.starts
    simp [isBlank, hcs, hc]
  · rw [htext, lead_of_solid hspace hs, String.ofList_toList]
  · rw [htext, trim_of_solid hspace hempty hs, String.ofList_toList]
  · rw [htext, trail_of_solid hempty hs, String.ofList_nil]

namespace Edit

/-! ## Values -/

theorem isMute_intText {n : Int} : ∀ c ∈ (intText n).toList, isMute c = true := by
  obtain ⟨sign, ds, htext, hsign, -, hds⟩ := Number.toList_intText n
  have hdigits : Number.digitChars.all isMute = true := by decide
  rw [htext, List.forall_mem_append]
  refine ⟨?_, fun c hc => List.all_eq_true.mp hdigits c (Number.mem_digitChars (hds c hc).digit)⟩
  rcases hsign with rfl | rfl
  · exact List.forall_mem_nil _
  · exact List.forall_mem_singleton.mpr (by decide)

/-- What is written for the value is plain text that is read as that value. -/
structure IsPlainText (e : Node) : Prop where
  spelled : Spelled e.write.toList
  solid : Text.Solid e.write.toList
  plain : Expression.plain e.write = e

theorem isPlainText_string {q : Char} {raw : String} (hq : Text.IsQuote q) (hraw : Literal.IsBody q raw) :
    IsPlainText (.new (.string raw (.ofList [q])) []) := by
  have hwrite : (Node.new (.string raw (.ofList [q])) []).write = .ofList (q :: (raw.toList ++ [q])) := by
    refine String.toList_inj.mp ?_
    simp [Node.new, Node.write, Node.writeAll, Kind.opening, Kind.closing]
  have hspace : Text.isSpace q = false := by rcases hq with rfl | rfl <;> decide
  refine ⟨?_, ?_, ?_⟩
  · rw [hwrite, String.toList_ofList]
    exact .string hq hraw
  · rw [hwrite, String.toList_ofList]
    exact ⟨⟨_, _, rfl, hspace⟩, q, q :: _, rfl, hspace⟩
  · rw [hwrite, Expression.plain, Expression.kind?_string hq hraw]

/-- The value of a style is plain text. -/
theorem IsStyleNode.isPlainText {v : Value Node} {e : Node} (h : IsStyleNode v e) : IsPlainText e := by
  cases h with
  | str s => exact isPlainText_string (.inr rfl) (Literal.isBody_rawString (.inr rfl) s)
  | int n hn =>
    have hwrite : (Node.new (.number (intText n)) []).write = intText n :=
      Expression.write_word rfl rfl rfl
    refine ⟨?_, ?_, ?_⟩
    · rw [hwrite]
      exact .mute isMute_intText
    · rw [hwrite]
      exact .of_noSpace (Number.intText_ne_nil n) fun c hc => (Number.inNumeral_of_mem hc).solid
    · rw [hwrite, Expression.plain, Expression.kind?_intText]

/-! ## Keys -/

theorem isNamePart_of_nameTail {w : List Char} (h : Text.nameTail .identifier w = w.length) :
    ∀ c ∈ w, Text.isNamePart c = true := by
  induction w with
  | nil => exact List.forall_mem_nil _
  | cons c w ih =>
    cases hc : Text.isNamePart c with
    | true =>
      rw [Scan.nameTail_cons hc] at h
      exact List.forall_mem_cons.mpr ⟨hc, ih (Nat.succ.inj h)⟩
    | false => cases w <;> simp [Text.nameTail, hc, Text.NameKind.divides] at h

theorem isMute_of_isNamePart {c : Char} (h : Text.isNamePart c = true) : isMute c = true := by
  have hne (d : Char) (hd : Text.isNamePart d = false) : c ≠ d := by
    rintro rfl
    rw [hd] at h
    cases h
  simp [isMute, Scan.isLeadChar, hne '(' (by decide), hne '[' (by decide), hne ',' (by decide), hne ';' (by decide),
    hne ':' (by decide), hne '?' (by decide), hne '=' (by decide), hne '&' (by decide), hne '|' (by decide),
    hne '!' (by decide), hne '\x7b' (by decide), hne '\x7d' (by decide), hne '"' (by decide), hne '\'' (by decide),
    hne '`' (by decide), hne '/' (by decide), hne '<' (by decide)]

theorem isNamePart_of_isFullName {name : String} (h : Text.IsFullName .identifier name) :
    ∀ c ∈ name.toList, Text.isNamePart c = true := by
  obtain ⟨c, w, hw, hstart, -⟩ := h.starts
  rw [Text.IsFullName, hw, Text.nameLength?, if_pos hstart] at h
  rw [hw]
  exact List.forall_mem_cons.mpr ⟨Text.isNamePart_of_isNameStart hstart,
    isNamePart_of_nameTail (Nat.succ.inj (Option.some.inj h))⟩

/-- What is written for a name as the key of a property is read as that key. -/
def IsKeyName (name : String) : Prop :=
  Text.IsFullName .identifier name ∨
    Text.isName .identifier name = false ∧ Literal.IsBody '\'' name ∧ '\'' ∉ name.toList

theorem IsKeyName.key {name : String} (h : IsKeyName name) {space : String} {value : Node} : ∃ key,
    Build.property name space value = .new (.property key space ": ") [value] ∧ Spelled key.toList ∧
      Text.Solid key.toList ∧ Part.isKey key = true := by
  rcases h with hname | ⟨hother, hbody, hquote⟩
  · obtain ⟨c, w, hw, -⟩ := hname.starts
    have hparts := isNamePart_of_isFullName hname
    have hne : name.toList ≠ [] := by simp [hw]
    refine ⟨name, by rw [Build.property, if_pos hname.isName], .mute fun d hd => isMute_of_isNamePart (hparts d hd),
      .of_noSpace hne hname.noSpace, ?_⟩
    simp [Part.isKey, List.isEmpty_eq_false_iff.mpr hne, List.all_eq_true.mpr hparts]
  · have htext : ("'" ++ name ++ "'").toList = '\'' :: (name.toList ++ ['\'']) := by simp
    refine ⟨"'" ++ name ++ "'", by rw [Build.property, hother]; rfl, ?_, ?_, ?_⟩
    · rw [htext]
      exact .string (.inr rfl) hbody
    · rw [htext]
      exact ⟨⟨_, _, rfl, by decide⟩, '\'', '\'' :: _, rfl, by decide⟩
    · rw [Part.isKey, htext]
      simp [Part.isQuotedKey, hquote]

/-! ## Properties -/

/-- A property with a key that stands in the source, and with a value that is plain text. -/
theorem clause_of_key {k : List Char} (hk : Spelled k) (hkey : Part.isKey (Text.trim (.ofList k)) = true) {e : Node}
    (he : IsPlainText e) {space : String} (hspace : Text.isBlank space = true) :
    Clause (.new (.property (Text.trim (.ofList k)) (Text.lead (.ofList k)) (Text.trail (.ofList k) ++ ":" ++ space)) [e]) := by
  obtain ⟨hblank, hlead, htrim, htrail⟩ := Text.edges_of_solid hspace he.solid
  have htext : String.ofList (space.toList ++ e.write.toList) = space ++ e.write := by
    rw [String.ofList_append, String.ofList_toList, String.ofList_toList]
  have hclause := Clause.of_spelled hk ((Spelled.blank hspace).append he.spelled) hkey
  rw [htext] at hclause
  have hof : Expression.ofText (space ++ e.write) = e := by rw [Expression.ofText_eq, htrim, he.plain]
  have hkeeps : Expression.keeps (Text.trim (space ++ e.write)) = true := by
    refine (Expression.ofText_agrees _).iff.mp ?_
    rw [hof, htrim]
  have h := hclause hblank htrail hkeeps
  rwa [hlead, hof] at h

/-- A property that is added for a style. -/
theorem clause_property {name : String} (hname : IsKeyName name) {v : Value Node} {e : Node} (he : IsStyleNode v e)
    {space : String} (hspace : Text.isBlank space = true) : Clause (Build.property name space e) := by
  obtain ⟨key, hproperty, hspelled, hsolid, hkey⟩ := @IsKeyName.key name hname space e
  obtain ⟨-, hlead, htrim, htrail⟩ := Text.edges_of_solid hspace hsolid
  have htext : String.ofList (space.toList ++ key.toList) = space ++ key := by
    rw [String.ofList_append, String.ofList_toList, String.ofList_toList]
  have h := clause_of_key ((Spelled.blank hspace).append hspelled) (by rw [htext, htrim]; exact hkey) he.isPlainText
    (show Text.isBlank " " = true from rfl)
  rw [htext, hlead, htrim, htrail] at h
  rw [hproperty]
  exact h

end Edit
end JsxEdit
