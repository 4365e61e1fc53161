import JsxEdit.Proofs.Agree

/-
What an expression is written as.

Most expressions are recognised by the whole of their text, or not at all, and are written as they stand. Two forms are
recognised by their beginning: what starts with `true` becomes a truth value, and what starts with a string in double
quotes becomes one string from its first character to its last. So these are the only expressions that change, and only
if something else follows.
-/
set_option autoImplicit false

namespace JsxEdit.Expression

/-- The text that an expression without white space around it is written as. -/
def recast (text : String) : String :=
  if "true".toList.isPrefixOf text.toList then if text == "true" then text else "false"
  else if startsWithDouble text.toList then .ofList (text.toList.dropLast ++ ['"'])
  else text

/-- What starts with `true` is written as the truth value for the whole text. -/
theorem write_plain_of_true {text : String} (h : "true".toList.isPrefixOf text.toList = true) :
    (plain text).write = if text == "true" then text else "false" := by
  have hplain : plain text = .new (.boolean (text == "true")) [] := by
    unfold plain kind?
    dsimp only
    rw [h, Bool.true_or, if_pos rfl]
  rw [hplain, write_word rfl rfl rfl, Kind.opening]
  split
  · next heq => exact (eq_of_beq heq).symm
  · rfl

/-- What starts with a string in double quotes is written with such a quote at its end. -/
theorem write_plain_of_double {text : String} (htrue : "true".toList.isPrefixOf text.toList = false)
    (h : startsWithDouble text.toList = true) :
    (plain text).write = .ofList (text.toList.dropLast ++ ['"']) := by
  obtain ⟨mid, d, hmid⟩ := startsWithDouble_spec h
  obtain ⟨hfirst, hinner⟩ := Text.first_append_inner hmid
  have hdrop : text.toList.dropLast = '"' :: mid := by rw [hmid, ← List.cons_append, List.dropLast_concat]
  rw [plain_of_double htrue h, write_word rfl rfl rfl, Kind.opening, hfirst, hinner, hdrop, ← String.ofList_append,
    ← String.ofList_append]
  rfl

theorem write_plain (text : String) : (plain text).write = recast text := by
  unfold recast
  cases htrue : "true".toList.isPrefixOf text.toList with
  | true => exact write_plain_of_true htrue
  | false =>
    cases hdouble : startsWithDouble text.toList with
    | true => exact write_plain_of_double htrue hdouble
    | false =>
      have hkeeps : keeps text = true := by
        unfold keeps
        dsimp only
        rw [htrue, hdouble]
        rfl
      exact (plain_agrees text).iff.mpr hkeeps

/-- An expression is kept unless it goes on after `true`, or after a string in double quotes up to something other than
such a quote. -/
theorem keeps_iff (text : String) : keeps text = true ↔
    ("true".toList <+: text.toList → text = "true") ∧
      (startsWithDouble text.toList = true → text.toList.getLast? = some '"') := by
  unfold keeps
  dsimp only
  rw [← List.isPrefixOf_iff_prefix]
  cases htrue : "true".toList.isPrefixOf text.toList with
  | true =>
    have hdouble : startsWithDouble text.toList = false := by
      obtain ⟨rest, hrest⟩ := List.isPrefixOf_iff_prefix.mp htrue
      rw [← hrest]
      rfl
    simp [hdouble]
  | false => cases hdouble : startsWithDouble text.toList <;> simp

/-- What an expression is written as: the text without the white space around it, except that a text that starts with
`true` is written as `false` if it goes on, and that one that starts with a string in double quotes gets such a quote as
its last character. -/
theorem ofText_write (text : String) : (ofText text).write = recast (Text.trim text) ∧
    ((ofText text).write = Text.trim text ↔
      ("true".toList <+: (Text.trim text).toList → Text.trim text = "true") ∧
        (startsWithDouble (Text.trim text).toList = true → (Text.trim text).toList.getLast? = some '"')) := by
  constructor
  · rw [ofText_eq, write_plain]
  · rw [(ofText_agrees text).iff, keeps_iff]

example : (ofText " true ? 1 : 2").write = "false" := by decide
example : (ofText "\"a\" + b").write = "\"a\" + \"" := by decide

end JsxEdit.Expression
