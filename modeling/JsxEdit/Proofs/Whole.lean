import JsxEdit.Proofs.Text
import JsxEdit.Proofs.Written

/-
Whole numbers and strings in a source: their texts are literals, and the value of a number equals itself.

A number with too many digits for an integer is read as a floating point number, which may be infinite but is
never the one that equals no number.
-/
set_option autoImplicit false

namespace JsxEdit

/-! ## Digits -/

namespace Number

/-- What is known of every character of a whole number: it has no rule in braces, is no white space, starts no name, and
stands for itself in a number text. -/
structure InNumeral (c : Char) : Prop where
  quiet : Scan.isQuiet c = true
  solid : Text.isSpace c = false
  noName : Text.isNameStart c = false
  plain : plainChar c = c
  noBlank : isBlank c = false

/-- What is known of a digit. -/
structure IsDigit (c : Char) : Prop extends InNumeral c where
  digit : c.isDigit = true
  decimal : Text.isDecimal c = true
  lower : c.toLower = c
  value : ∃ d, Text.hexValue? c = some d ∧ d < 10

/-- The decimal digits of ASCII. -/
def digitChars : List Char := ['0', '1', '2', '3', '4', '5', '6', '7', '8', '9']

theorem mem_digitChars {c : Char} (h : c.isDigit = true) : c ∈ digitChars := by
  have hcases : ∀ n < 10, Char.ofNat (48 + n) ∈ digitChars := by decide
  simp only [Char.isDigit, Bool.and_eq_true, decide_eq_true_eq, ge_iff_le, UInt32.le_iff_toNat_le] at h
  have hlow : 48 ≤ c.toNat := h.1
  have hhigh : c.toNat ≤ 57 := h.2
  have hc := hcases (c.toNat - 48) (by omega)
  rwa [Nat.add_sub_cancel' hlow, Char.ofNat_toNat] at hc

theorem isDigit_of_mem {c : Char} (hc : c ∈ digitChars) : IsDigit c := by
  -- a Boolean test of the ten characters, since a decision for all characters would try every one there is
  have hall : digitChars.all (fun c => Scan.isQuiet c && !Text.isSpace c && !Text.isNameStart c && plainChar c == c &&
      !isBlank c && c.isDigit && Text.isDecimal c && c.toLower == c && (Text.hexValue? c).any (· < 10)) = true := by decide
  have htest := List.all_eq_true.mp hall c hc
  simp only [Bool.and_eq_true, Bool.not_eq_true', beq_iff_eq] at htest
  obtain ⟨⟨⟨⟨⟨⟨⟨⟨quiet, solid⟩, noName⟩, plain⟩, noBlank⟩, digit⟩, decimal⟩, lower⟩, hvalue⟩ := htest
  refine ⟨⟨quiet, solid, noName, plain, noBlank⟩, digit, decimal, lower, ?_⟩
  cases hhex : Text.hexValue? c with
  | none =>
    rw [hhex] at hvalue
    cases hvalue
  | some d =>
    rw [hhex] at hvalue
    exact ⟨d, rfl, of_decide_eq_true hvalue⟩

/-- A whole number is written as its digits, perhaps with a minus sign before them. -/
theorem toList_intText (n : Int) : ∃ sign ds, (intText n).toList = sign ++ ds ∧ (sign = [] ∨ sign = ['-']) ∧ ds ≠ [] ∧
    ∀ c ∈ ds, IsDigit c := by
  have hdigits : ∀ c ∈ Nat.toDigits 10 n.natAbs, IsDigit c :=
    fun c hc => isDigit_of_mem (mem_digitChars (Nat.isDigit_of_mem_toDigits (by decide) (by decide) hc))
  by_cases hn : n < 0
  · exact ⟨['-'], _, by simp [intText, hn], .inr rfl, Nat.toDigits_ne_nil, hdigits⟩
  · exact ⟨[], _, by simp [intText, hn], .inl rfl, Nat.toDigits_ne_nil, hdigits⟩

theorem inNumeral_of_mem {n : Int} {c : Char} (hc : c ∈ (intText n).toList) : InNumeral c := by
  obtain ⟨sign, ds, htext, hsign, -, hds⟩ := toList_intText n
  rw [htext, List.mem_append] at hc
  rcases hc with hc | hc
  · rcases hsign with rfl | rfl
    · cases hc
    · obtain rfl := List.mem_singleton.mp hc
      exact ⟨by decide, by decide, by decide, by decide, by decide⟩
  · exact (hds c hc).toInNumeral

theorem intText_ne_nil (n : Int) : (intText n).toList ≠ [] := by
  obtain ⟨sign, ds, htext, -, hne, -⟩ := toList_intText n
  rw [htext]
  simp [hne]

/-! ## Values -/

theorem digits?_ok {ds : List Char} (hne : ds ≠ []) (hds : ∀ c ∈ ds, IsDigit c) : ∃ k, digits? 10 ds = some k := by
  rw [digits?, if_neg (by simpa using hne)]
  clear hne
  -- the value of the digits so far
  generalize 0 = n
  induction ds generalizing n with
  | nil => exact ⟨n, rfl⟩
  | cons c ds ih =>
    rw [List.forall_mem_cons] at hds
    obtain ⟨d, hd, hlt⟩ := hds.1.value
    obtain ⟨k, hk⟩ := ih hds.2 (n * 10 + d)
    refine ⟨k, ?_⟩
    rw [List.foldl_cons, hd]
    simp only [hlt, if_true]
    exact hk

theorem ofRatio_ne_nan (negative : Bool) (num den : Nat) : Double.ofRatio negative num den ≠ .nan := by
  intro h
  unfold Double.ofRatio at h
  split at h
  · cases h
  · dsimp only at h
    split at h <;> split at h <;> cases h

theorem ofDecimal_ne_nan (negative : Bool) (digits : Nat) (power : Int) :
    Double.ofDecimal negative digits power ≠ .nan := by
  intro h
  unfold Double.ofDecimal at h
  dsimp only at h
  split at h
  · cases h
  split at h
  · cases h
  split at h
  · exact ofRatio_ne_nan _ _ _ h
  · exact ofRatio_ne_nan _ _ _ h

/-- Every number but the one that is none equals itself. -/
theorem same_self {d : Double} (h : d ≠ .nan) : d.same d = true := by
  cases d with
  | finite negative mantissa exponent => simp [Double.same]
  | infinite negative => simp [Double.same]
  | nan => exact absurd rfl h

/-- Digits are read as a number, and never as its name. -/
theorem readMagnitude?_digits {ds : List Char} (negative : Bool) (hne : ds ≠ []) (hds : ∀ c ∈ ds, IsDigit c) :
    ∃ d, readMagnitude? negative ds = some d ∧ d ≠ .nan := by
  have hlower : ds.map Char.toLower = ds := by
    refine (List.map_congr_left fun c hc => ?_).trans (List.map_id ds)
    exact (hds c hc).lower
  have hword (word : String) (c : Char) (hc : c ∈ word.toList) (hdigit : c.isDigit = false) :
      (String.ofList ds == word) = false := by
    refine beq_eq_false_iff_ne.mpr ?_
    rintro rfl
    rw [String.toList_ofList] at hc
    rw [(hds c hc).digit] at hdigit
    cases hdigit
  have htake : ds.takeWhile Char.isDigit = ds ∧ ds.dropWhile Char.isDigit = [] := by
    have hall : ∀ c ∈ ds, c.isDigit = true := fun c hc => (hds c hc).digit
    have htake := @List.takeWhile_append_of_pos _ _ ds [] hall
    have hdrop := @List.dropWhile_append_of_pos _ _ ds [] hall
    exact ⟨by simpa using htake, by simpa using hdrop⟩
  obtain ⟨k, hk⟩ := digits?_ok hne hds
  refine ⟨.ofDecimal negative k 0, ?_, ofDecimal_ne_nan negative k 0⟩
  have hinf := hword "inf" 'i' (by decide) (by decide)
  have hinfinity := hword "infinity" 'i' (by decide) (by decide)
  have hnan := hword "nan" 'n' (by decide) (by decide)
  simp [readMagnitude?, spanDigits, hlower, hinf, hinfinity, hnan, htake, hne, exponent?, hk]

theorem dropWhile_eq_self {p : Char → Bool} {cs : List Char} (h : ∀ c ∈ cs, p c = false) : cs.dropWhile p = cs := by
  cases cs with
  | nil => rfl
  | cons c cs => rw [List.dropWhile_cons_of_neg (by simp [h c])]

theorem plain_intText (n : Int) : plain (intText n) = (intText n).toList := by
  have hmap : (intText n).toList.map plainChar = (intText n).toList := by
    refine (List.map_congr_left fun c hc => ?_).trans (List.map_id _)
    exact (inNumeral_of_mem hc).plain
  have hblank : ∀ c ∈ (intText n).toList, isBlank c = false := fun c hc => (inNumeral_of_mem hc).noBlank
  rw [plain, hmap, dropWhile_eq_self hblank, dropWhile_eq_self (by simpa using hblank), List.reverse_reverse]

/-- The text of a whole number is read as a number that equals itself. -/
theorem read?_intText (n : Int) : ∃ v, read? (intText n) = some v ∧ v.same v = true := by
  obtain ⟨sign, ds, htext, hsign, hne, hds⟩ := toList_intText n
  have hplain := (plain_intText n).trans htext
  have hsplit : ∃ negative, splitSign (sign ++ ds) = (negative, ds) := by
    rcases hsign with rfl | rfl
    · have hdash : '-' ∉ ds := fun h => absurd (hds _ h).digit (by decide)
      have hplus : '+' ∉ ds := fun h => absurd (hds _ h).digit (by decide)
      refine ⟨false, ?_⟩
      rw [List.nil_append]
      unfold splitSign
      split
      · simp at hdash
      · simp at hplus
      · rfl
    · exact ⟨true, rfl⟩
  cases hint : readInt? (intText n) with
  | some k => exact ⟨.int k, by simp [read?, hint], by simp [same]⟩
  | none =>
    obtain ⟨negative, hsign⟩ := hsplit
    obtain ⟨d, hd, hnan⟩ := readMagnitude?_digits negative hne hds
    refine ⟨.float d, ?_, same_self hnan⟩
    simp [read?, hint, readFloat?, hplain, hsign, hd]

theorem numberValue_intText (n : Int) : ∃ v, Kind.numberValue (intText n) = .ok v ∧ v.same v = true := by
  have hunder : '_' ∉ (intText n).toList := by
    intro h
    have hstart := (inNumeral_of_mem h).noName
    cases hstart
  have hreplace : Text.replace (intText n) "_" "" = intText n := by
    have heq := Text.replace_singleton (intText n) '_' ""
    rwa [Text.flatMap_substitute_of_not_mem hunder, String.ofList_toList] at heq
  obtain ⟨v, hv, hsame⟩ := read?_intText n
  exact ⟨v, by rw [Kind.numberValue, hreplace, hv], hsame⟩

/-- Number literals of the same whole number have the same value. -/
theorem sameValue_intText (n : Int) : Kind.sameValue (.number (intText n)) (.number (intText n)) = .ok true := by
  obtain ⟨v, hv, hsame⟩ := numberValue_intText n
  have hdatum : Datum.same (Value.ofNumber v) (Value.ofNumber v) = true := by
    cases v with
    | int k => exact hsame
    | float d => exact hsame
  simp only [Kind.sameValue, Kind.literalValue, Kind.isLiteral, hv, Except.map, if_true, hdatum, bind, Except.bind, pure,
    Except.pure]

end Number

/-! ## As an expression -/

namespace Expression

theorem isDecimalNumber_digits {ds : List Char} (hne : ds ≠ []) (hds : ∀ c ∈ ds, Number.IsDigit c) :
    isDecimalNumber ds = true := by
  have hdecimal : ∀ c ∈ ds, Text.isDecimal c = true := fun c hc => (hds c hc).decimal
  cases ds with
  | nil => exact absurd rfl hne
  | cons c ds =>
    rw [List.forall_mem_cons] at hdecimal
    have hdrop : ds.dropWhile (fun d => Text.isDecimal d || d == '_') = [] := by
      have hall : ∀ d ∈ ds, (Text.isDecimal d || d == '_') = true := fun d hd => by simp [hdecimal.2 d hd]
      have hdrop := @List.dropWhile_append_of_pos _ _ ds [] hall
      simpa using hdrop
    simp [isDecimalNumber, hdecimal.1, hdrop, isExponent]

theorem isUnsignedNumber_of_decimal {cs : List Char} (h : isDecimalNumber cs = true) : isUnsignedNumber cs = true := by
  unfold isUnsignedNumber
  split
  · rw [h, Bool.or_true]
  · exact h

theorem isNumber_intText (n : Int) : isNumber (intText n).toList = true := by
  obtain ⟨sign, ds, htext, hsign, hne, hds⟩ := Number.toList_intText n
  have hunsigned := isUnsignedNumber_of_decimal (isDecimalNumber_digits hne hds)
  rw [htext]
  rcases hsign with rfl | rfl
  · have hdash : '-' ∉ ds := fun h => absurd (hds _ h).digit (by decide)
    rw [List.nil_append]
    unfold isNumber
    split
    · simp at hdash
    · exact hunsigned
  · exact hunsigned

/-- A text that does not start as names do is no word, variable or member access. -/
theorem kind?_of_head {text : String} {c : Char} {cs : List Char} (htext : text.toList = c :: cs)
    (hc : Text.isNameStart c = false) :
    kind? text =
      if isNumber text.toList then some (.number text)
      else if startsWithDouble text.toList || isSingle text.toList then some (.string (Text.inner text) (Text.first text))
      else if isTemplate text.toList then some (.template (Text.inner text))
      else none := by
  have hne (d : Char) (hd : Text.isNameStart d = true) : d ≠ c := by
    rintro rfl
    rw [hc] at hd
    cases hd
  have hword (word : String) (d : Char) (ds : List Char) (hw : word.toList = d :: ds) (hd : Text.isNameStart d = true) :
      (text == word) = false := by
    refine beq_eq_false_iff_ne.mpr ?_
    rintro rfl
    exact hne d hd (List.cons.inj (hw.symm.trans htext)).1
  have htrue : "true".toList.isPrefixOf text.toList = false := by
    simp [htext, List.isPrefixOf, hne 't' (by decide)]
  have hname : Text.nameLength? .identifier text.toList = none := by
    rw [htext, Text.nameLength?, if_neg (by simp [hc])]
  have hidentifier : isIdentifier text.toList = false := by simp [isIdentifier, hname]
  have hmember : isMember text.toList = false := by
    rw [isMember]
    cases text.toList.length with
    | zero => rfl
    | succ fuel => simp [isMemberChain, hname]
  simp only [kind?, htrue, hword "false" 'f' _ rfl (by decide), hword "null" 'n' _ rfl (by decide), hidentifier, hmember]
  rfl

/-- The text of a whole number is a number literal. -/
theorem kind?_intText (n : Int) : kind? (intText n) = some (.number (intText n)) := by
  obtain ⟨c, cs, htext⟩ := List.exists_cons_of_ne_nil (Number.intText_ne_nil n)
  have hc : Text.isNameStart c = false := (Number.inNumeral_of_mem (n := n) (c := c) (by simp [htext])).noName
  rw [kind?_of_head htext hc, isNumber_intText, if_pos rfl]

/-- A string of the script is a string literal. -/
theorem kind?_string {q : Char} {raw : String} (hq : Text.IsQuote q) (hraw : Literal.IsBody q raw) :
    kind? (.ofList (q :: (raw.toList ++ [q]))) = some (.string raw (.ofList [q])) := by
  have htext : (String.ofList (q :: (raw.toList ++ [q]))).toList = q :: (raw.toList ++ [q]) := String.toList_ofList
  have hstart : Text.isNameStart q = false := by rcases hq with rfl | rfl <;> decide
  have hnumber : isNumber (q :: (raw.toList ++ [q])) = false := by
    rcases hq with rfl | rfl <;> rfl
  have hlength := quotedLength?_lineFeeds hraw
  have hstring : (startsWithDouble (q :: (raw.toList ++ [q])) || isSingle (q :: (raw.toList ++ [q]))) = true := by
    rcases hq with rfl | rfl
    · simp [startsWithDouble, hlength]
    · simp [isSingle, hlength]
  have hinner : Text.inner (.ofList (q :: (raw.toList ++ [q]))) = raw := by simp [Text.inner]
  have hfirst : Text.first (.ofList (q :: (raw.toList ++ [q]))) = .ofList [q] := by simp [Text.first]
  rw [kind?_of_head htext hstart, htext, hnumber, hstring, hinner, hfirst]
  rfl

end Expression
end JsxEdit
