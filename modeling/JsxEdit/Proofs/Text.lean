import JsxEdit.Text.Replace

/-
Replacing and finding single characters, in terms of the characters alone.
-/
set_option autoImplicit false

namespace JsxEdit.Text

/-- What becomes of a character when one character is replaced. -/
def substitute (old : Char) (new : List Char) (c : Char) : List Char := if c = old then new else [c]

theorem substitute_self (c : Char) (new : List Char) : substitute c new c = new := if_pos rfl

theorem substitute_of_ne {old c : Char} (h : c ≠ old) (new : List Char) : substitute old new c = [c] := if_neg h

theorem replaceFrom_singleton (old : Char) (new cs : List Char) :
    replaceFrom [old] new 0 cs = cs.flatMap (substitute old new) := by
  induction cs with
  | nil => rfl
  | cons c cs ih =>
    rw [replaceFrom, List.flatMap_cons, List.length_singleton, Nat.sub_self, ih]
    by_cases h : c = old
    · subst h
      simp [substitute]
    · simp [substitute, h, Ne.symm h]

/-- Replacing a single character replaces each occurrence of it. -/
theorem replace_singleton (s : String) (old : Char) (new : String) :
    replace s (.ofList [old]) new = .ofList (s.toList.flatMap (substitute old new.toList)) := by
  have hne : (String.ofList [old]).isEmpty = false := by simp
  rw [replace, hne, String.toList_ofList, replaceFrom_singleton]
  rfl

/-- A character that does not occur is not replaced. -/
theorem flatMap_substitute_of_not_mem {old : Char} {cs : List Char} (h : old ∉ cs) (new : List Char) :
    cs.flatMap (substitute old new) = cs := by
  induction cs with
  | nil => rfl
  | cons c cs ih =>
    rw [List.mem_cons, not_or] at h
    rw [List.flatMap_cons, ih h.2, substitute_of_ne (Ne.symm h.1)]
    rfl

theorem occursIn_singleton (c : Char) (cs : List Char) : occursIn [c] cs = cs.contains c := by
  induction cs with
  | nil => rfl
  | cons d cs ih =>
    rw [occursIn, ih, List.contains_cons]
    simp [List.isPrefixOf]

/-- A single character is contained in a text if it is one of its characters. -/
theorem contains_singleton (s : String) (c : Char) : contains s (.ofList [c]) = s.toList.contains c := by
  rw [contains, String.toList_ofList, occursIn_singleton]

end JsxEdit.Text
