import JsxEdit.Proofs.Made

/-
Attribute strings stand for the texts they are made for, whatever quotes are asked for, and are single tokens of an
opening tag.

The only texts without an attribute string are those with a decimal reference that is too long to be read: whether a
text can stand as it is, is found out by decoding it. No reference has an ampersand in it, so that such a reference is
always come upon, and nothing before it can hide it.
-/
set_option autoImplicit false

namespace JsxEdit

/-! ## Texts that cannot be decoded -/

namespace Text

/-- There is a decimal reference with more digits than can be read. -/
def Overlong (cs : List Char) : Prop := ∃ before after, cs = before ++ '&' :: after ∧ isTooLong after = true

/-- Characters that are no ampersands take no part in that. -/
theorem overlong_append {xs : List Char} (h : '&' ∉ xs) (cs : List Char) : Overlong (xs ++ cs) ↔ Overlong cs := by
  constructor
  · rintro ⟨before, after, he, hlong⟩
    rcases List.append_eq_append_iff.mp he with ⟨ys, rfl, hcs⟩ | ⟨ys, rfl, hys⟩
    · exact ⟨ys, after, hcs, hlong⟩
    · cases ys with
      | nil => exact ⟨[], after, hys.symm, hlong⟩
      | cons y ys =>
        obtain ⟨rfl, -⟩ := List.cons.inj hys
        exact absurd (by simp) h
  · rintro ⟨before, after, rfl, hlong⟩
    exact ⟨xs ++ before, after, by simp, hlong⟩

theorem overlong_amp (cs : List Char) : Overlong ('&' :: cs) ↔ isTooLong cs = true ∨ Overlong cs := by
  constructor
  · rintro ⟨before, after, he, hlong⟩
    cases before with
    | nil =>
      obtain ⟨-, rfl⟩ := List.cons.inj he
      exact .inl hlong
    | cons c before => exact .inr ⟨before, after, (List.cons.inj he).2, hlong⟩
  · rintro (hlong | ⟨before, after, rfl, hlong⟩)
    · exact ⟨[], cs, rfl, hlong⟩
    · exact ⟨'&' :: before, after, rfl, hlong⟩

/-- What follows does not make such a reference any shorter. -/
theorem Overlong.append {xs : List Char} (h : Overlong xs) (ys : List Char) : Overlong (xs ++ ys) := by
  obtain ⟨before, after, rfl, hlong⟩ := h
  refine ⟨before, after ++ ys, by simp, ?_⟩
  unfold isTooLong at hlong
  split at hlong
  · next cs =>
    have hle : (cs.takeWhile Char.isDigit).length ≤ ((cs ++ ys).takeWhile Char.isDigit).length := by
      rw [List.takeWhile_append]
      split
      · next hall =>
        rw [List.length_append, hall]
        exact Nat.le_add_right _ _
      · exact Nat.le_refl _
    exact decide_eq_true (Nat.lt_of_lt_of_le (of_decide_eq_true hlong) hle)
  · cases hlong

theorem amp_not_mem_numeric {base : Nat} {isDigit : Char → Bool} {cs out : List Char} {n : Nat}
    (hamp : isDigit '&' = false) (h : numericReference? base isDigit cs = some (n, out)) : '&' ∉ cs.take n := by
  have hdigits : '&' ∉ cs.takeWhile isDigit := fun hmem => by
    rw [List.all_eq_true.mp List.all_takeWhile _ hmem] at hamp
    cases hamp
  obtain ⟨rest, hrest⟩ := List.takeWhile_prefix (l := cs) isDigit
  unfold numericReference? at h
  dsimp only at h
  split at h
  · cases h
  · cases h
    rw [drop_of_append hrest]
    generalize cs.takeWhile isDigit = digits at hdigits hrest
    subst hrest
    rw [List.take_length_add_append]
    -- what may follow the digits is a semicolon
    cases rest with
    | nil => simpa using hdigits
    | cons c rest =>
      split
      · next hc =>
        obtain rfl : c = ';' := by simpa using hc
        simpa using hdigits
      · simpa using hdigits

theorem amp_not_mem_reference {cs out : List Char} {n : Nat} (h : reference? cs = some (n, out)) :
    '&' ∉ cs.take n := by
  unfold reference? at h
  split at h
  · next cs =>
    split at h
    · next hn =>
      cases h
      simpa using amp_not_mem_numeric (by decide) hn
    · split at h
      · next x cs _ =>
        split at h
        · next hx =>
          obtain ⟨⟨m, out'⟩, hn, he⟩ := Option.map_eq_some_iff.mp h
          cases he
          have hne : '&' ≠ x := by
            rintro rfl
            cases hx
          simpa [hne] using amp_not_mem_numeric (by decide) hn
        · cases h
      · cases h
  · -- a reference by name is as long as the name and its semicolon
    have hwhole : cs.take (wholeOf cs).length = wholeOf cs := (List.prefix_iff_eq_take.mp (wholeOf_isPrefix cs)).symm
    rw [namedReference?_eq] at h
    split at h
    · cases h
    · split at h <;> cases h <;> rw [hwhole] <;> exact amp_not_mem_wholeOf cs

/-- Decoding fails exactly if there is a decimal reference that is too long. -/
theorem decodeFrom_eq_none (cs : List Char) : decodeFrom 0 cs = none ↔ Overlong cs := by
  induction hn : cs.length using Nat.strongRecOn generalizing cs with
  | _ n ih =>
    cases cs with
    | nil => simp [decodeFrom, Overlong]
    | cons c cs =>
      rw [List.length_cons] at hn
      by_cases hc : c = '&'
      · subst hc
        rw [decodeFrom, if_pos (beq_self_eq_true '&'), overlong_amp]
        cases hlong : isTooLong cs with
        | true => exact iff_of_true rfl (.inl rfl)
        | false =>
          rw [if_neg (by simp), or_iff_right (by simp)]
          split
          · next m out hr =>
            rw [Option.map_eq_none_iff, decodeFrom_skip, ih (cs.drop m).length (by rw [List.length_drop]; omega) _ rfl,
              ← overlong_append (amp_not_mem_reference hr) (cs.drop m), List.take_append_drop]
          · rw [Option.map_eq_none_iff, ih cs.length (by omega) _ rfl]
      · have hplain : '&' ∉ [c] := by simpa using Ne.symm hc
        rw [decodeFrom_cons hc, Option.map_eq_none_iff, ih cs.length (by omega) _ rfl]
        exact (overlong_append hplain cs).symm

theorem overlong_longReference : Overlong longReference.toList := by
  rw [← decodeFrom_eq_none]
  simpa [decodeReferences?] using decodeReferences?_long

end Text

/-! ## Attribute strings -/

namespace Literal
open Text

/-- Attribute strings can be made for all texts but those with a decimal reference that is too long. -/
theorem attributeString_eq_error (value quote : String) :
    attributeString value quote = .error .badNumber ↔ Overlong value.toList := by
  rw [← decodeFrom_eq_none, attributeString, attributeText, references, decodeReferences?]
  cases decodeFrom 0 value.toList with
  | none => exact iff_of_true rfl rfl
  | some cs =>
    refine iff_of_false (fun h => ?_) fun h => ?_
    · cases h
    · cases h

theorem attributeString_of_readable {value : String} (h : ¬ Overlong value.toList) (quote : String) :
    ∃ k, attributeString value quote = .ok k := by
  rw [← decodeFrom_eq_none] at h
  obtain ⟨cs, hcs⟩ := Option.ne_none_iff_exists'.mp h
  exact ⟨_, by rw [attributeString, attributeText, references, decodeReferences?, hcs]; rfl⟩

/-- The attribute string for a text stands for it, is in quotes that the text between them does not have, and so is
written as one token of the tag, whatever follows. Only a text with a decimal reference that is too long has none. -/
theorem attribute_string_decodes (value : String) {q : Char} (hq : IsQuote q) :
    (Overlong value.toList → attributeString value (.ofList [q]) = .error .badNumber) ∧
      (¬ Overlong value.toList → ∃ raw q',
        attributeString value (.ofList [q]) = .ok (.attributeString raw (.ofList [q'])) ∧
        (Kind.attributeString raw (.ofList [q'])).stringValue = .ok (some value) ∧ IsQuote q' ∧ q' ∉ raw.toList ∧
        (Node.new (.attributeString raw (.ofList [q'])) []).write.toList = q' :: (raw.toList ++ [q']) ∧
        ∀ atStart before rest, Scan.match? .tag atStart before (q' :: (raw.toList ++ [q']) ++ rest) =
          some ⟨[(Scan.quotedKind q', raw.toList.length + 2)], .stay⟩) := by
  refine ⟨(attributeString_eq_error value _).mpr, fun h => ?_⟩
  obtain ⟨k, hk⟩ := attributeString_of_readable h (.ofList [q])
  obtain ⟨raw, q', rfl, hq', hraw, hvalue⟩ := attributeString_spec hq hk
  refine ⟨raw, q', hk, ?_, hq', hraw, ?_, fun atStart before rest => ?_⟩
  · rw [Kind.stringValue, hvalue]
    rfl
  · simp [Node.new, Node.write, Node.writeAll, Kind.opening, Kind.closing]
  · rw [List.cons_append, List.append_assoc, List.singleton_append]
    exact Scan.tag?_string hq' hraw

/-- A text with both quotes, an ampersand and a reference. -/
def remark : String := "it's \"R&D\" &amp; more"

theorem remark_decodes : ¬ Overlong remark.toList ∧ ∃ raw q',
    attributeString remark (.ofList ['\'']) = .ok (.attributeString raw (.ofList [q'])) ∧
      (Kind.attributeString raw (.ofList [q'])).stringValue = .ok (some remark) ∧ IsQuote q' ∧ q' ∉ raw.toList := by
  have hread : ¬ Overlong remark.toList := by
    rw [← decodeFrom_eq_none]
    decide +kernel
  obtain ⟨raw, q', hk, hvalue, hq', hraw, -⟩ := (attribute_string_decodes remark (q := '\'') (.inr rfl)).2 hread
  exact ⟨hread, raw, q', hk, hvalue, hq', hraw⟩

theorem longReference_has_no_string : Overlong longReference.toList ∧
    ¬ ∃ k, attributeString longReference "\"" = .ok k ∧ k.stringValue = .ok (some longReference) := by
  refine ⟨overlong_longReference, ?_⟩
  rintro ⟨k, hk, -⟩
  rw [(attributeString_eq_error longReference "\"").mpr overlong_longReference] at hk
  cases hk

end Literal
end JsxEdit
