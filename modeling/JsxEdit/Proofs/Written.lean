import JsxEdit.Proofs.Agree
import JsxEdit.Proofs.Plain
import JsxEdit.Proofs.Shape

/-
Scanning written markup: at each place of it, which rule matches and how far.

What a rule matches depends on what follows, so every fact here comes with a condition on the text after it: a name has
to end, white space must not go on, and a text between tags goes up to the next tag or brace.
-/
set_option autoImplicit false

namespace JsxEdit

/-! ## Names and what may follow them -/

namespace Text

/-- White space other than that of ASCII. -/
def wideSpaces : List Nat :=
  [0x85, 0xA0, 0x1680, 0x2000, 0x2001, 0x2002, 0x2003, 0x2004, 0x2005, 0x2006, 0x2007, 0x2008, 0x2009, 0x200A, 0x2028,
    0x2029, 0x202F, 0x205F, 0x3000]

theorem wideSpaces_no_letters : ∀ n ∈ wideSpaces, inRanges letterRanges n = false := by decide +kernel

theorem isSpace_cases {c : Char} (h : isSpace c = true) : c.toNat ≤ 32 ∨ c.toNat ∈ wideSpaces := by
  simp only [isSpace, Bool.or_eq_true, Bool.and_eq_true, decide_eq_true_eq, beq_iff_eq] at h
  simp only [wideSpaces, List.mem_cons, List.not_mem_nil, or_false]
  omega

/-- White space is no part of a name. -/
theorem isNamePart_of_isSpace {c : Char} (h : isSpace c = true) : isNamePart c = false := by
  have hdollar : c ≠ '$' := Scan.ne_of_isSpace h (by decide)
  have hunder : c ≠ '_' := Scan.ne_of_isSpace h (by decide)
  have hword : isWord c = false := by
    rcases isSpace_cases h with hc | hc
    · have halpha : c.isAlphanum = false := by
        unfold Char.isAlphanum Char.isAlpha Char.isUpper Char.isLower Char.isDigit
        simp [UInt32.le_iff_toNat_le]
        omega
      rw [isWord, if_pos (by omega)]
      simp [halpha, hunder]
    · have hwide : ¬ c.toNat < 0x80 := by
        simp only [wideSpaces, List.mem_cons, List.not_mem_nil, or_false] at hc
        omega
      rw [isWord, if_neg hwide, wideSpaces_no_letters _ hc]
  simp [isNamePart, hword, hdollar]

theorem isNamePart_of_isNameStart {c : Char} (h : isNameStart c = true) : isNamePart c = true := by
  simp only [isNameStart, Bool.or_eq_true, beq_iff_eq] at h
  rcases h with (h | rfl) | rfl
  · have hascii : c.toNat < 0x80 := by
      unfold Char.isAlpha Char.isUpper Char.isLower at h
      simp [UInt32.le_iff_toNat_le] at h
      omega
    simp [isNamePart, isWord, hascii, Char.isAlphanum, h]
  · decide
  · decide

/-- A character that ends every name before it. -/
def EndsName (c : Char) : Prop := isNamePart c = false ∧ c ≠ '-' ∧ c ≠ ':' ∧ c ≠ '.'

theorem EndsName.of_isSpace {c : Char} (h : isSpace c = true) : EndsName c :=
  ⟨isNamePart_of_isSpace h, Scan.ne_of_isSpace h (by decide), Scan.ne_of_isSpace h (by decide), Scan.ne_of_isSpace h (by decide)⟩

theorem EndsName.divides {c : Char} (h : EndsName c) (kind : NameKind) : kind.divides c = false := by
  obtain ⟨-, hdash, hcolon, hpoint⟩ := h
  cases kind <;> simp [NameKind.divides, hdash, hcolon, hpoint]

theorem EndsName.nameTail {c : Char} (h : EndsName c) (kind : NameKind) (rest : List Char) :
    nameTail kind (c :: rest) = 0 := by
  cases rest with
  | nil => simp [Text.nameTail, h.1]
  | cons d rest => simp [Text.nameTail, h.1, h.divides kind]

/-- The rest of a name ends where a character ends it. -/
theorem nameTail_append {kind : NameKind} {w : List Char} {c : Char} {rest : List Char} (h : nameTail kind w = w.length)
    (hc : EndsName c) : nameTail kind (w ++ c :: rest) = w.length := by
  fun_induction nameTail kind w with
  | case1 => exact hc.nameTail kind rest
  | case2 d hd =>
    rw [List.singleton_append, nameTail, if_pos hd, hc.nameTail]
    rfl
  | case3 d hd => cases h
  | case4 d e w hd ih =>
    have htail := ih (Nat.succ.inj h)
    rw [List.cons_append] at htail
    rw [List.cons_append, List.cons_append, nameTail, if_pos hd, htail]
    rfl
  | case5 d e w hd hdivides ih =>
    have htail := ih (Nat.succ.inj (Nat.succ.inj h))
    rw [List.cons_append, List.cons_append, nameTail, if_neg hd, if_pos hdivides, htail]
    rfl
  | case6 d e w hd hdivides => cases h

theorem IsFullName.append {kind : NameKind} {s : String} {c : Char} {rest : List Char} (h : IsFullName kind s)
    (hc : EndsName c) : nameLength? kind (s.toList ++ c :: rest) = some s.toList.length := by
  unfold IsFullName at h
  cases hs : s.toList with
  | nil =>
    rw [hs] at h
    cases h
  | cons d w =>
    rw [hs, nameLength?] at h
    split at h
    · next hd =>
      have htail : nameTail kind w = w.length := Nat.succ.inj (Option.some.inj h)
      rw [List.cons_append, nameLength?, if_pos hd, nameTail_append htail hc]
      rfl
    · cases h

/-- A name starts as names do, and has no white space. -/
theorem nameTail_noSpace {kind : NameKind} {w : List Char} (h : nameTail kind w = w.length) :
    ∀ c ∈ w, isSpace c = false := by
  have hpart {c : Char} (hc : isNamePart c = true) : isSpace c = false := by
    cases hspace : isSpace c with
    | false => rfl
    | true =>
      rw [isNamePart_of_isSpace hspace] at hc
      cases hc
  fun_induction nameTail kind w with
  | case1 => simp
  | case2 d hd => simp [hpart hd]
  | case3 d hd => cases h
  | case4 d e w hd ih =>
    intro c hc
    rcases List.mem_cons.mp hc with rfl | hc
    · exact hpart hd
    · exact ih (Nat.succ.inj h) c hc
  | case5 d e w hd hdivides ih =>
    rw [Bool.and_eq_true] at hdivides
    have hspace : isSpace d = false := by
      cases hspace : isSpace d with
      | false => rfl
      | true =>
        rw [(EndsName.of_isSpace hspace).divides kind] at hdivides
        cases hdivides.1
    intro c hc
    rcases List.mem_cons.mp hc with rfl | hc
    · exact hspace
    rcases List.mem_cons.mp hc with rfl | hc
    · exact hpart hdivides.2
    · exact ih (Nat.succ.inj (Nat.succ.inj h)) c hc
  | case6 d e w hd hdivides => cases h

theorem IsFullName.starts {kind : NameKind} {s : String} (h : IsFullName kind s) :
    ∃ c w, s.toList = c :: w ∧ isNameStart c = true ∧ ∀ d ∈ c :: w, isSpace d = false := by
  unfold IsFullName at h
  cases hs : s.toList with
  | nil =>
    rw [hs] at h
    cases h
  | cons c w =>
    rw [hs, nameLength?] at h
    split at h
    · next hc =>
      have htail : nameTail kind w = w.length := Nat.succ.inj (Option.some.inj h)
      refine ⟨c, w, rfl, hc, fun d hd => ?_⟩
      rcases List.mem_cons.mp hd with rfl | hd
      · cases hspace : isSpace d with
        | false => rfl
        | true =>
          have := isNamePart_of_isNameStart hc
          rw [isNamePart_of_isSpace hspace] at this
          cases this
      · exact nameTail_noSpace htail d hd
    · cases h

end Text

namespace Expression

/-- A complete string stays one whatever follows it. -/
theorem quotedLength?_append {lineFeeds : Bool} {quote : Char} {w : List Char} {n : Nat}
    (h : quotedLength? lineFeeds quote w = some n) (rest : List Char) :
    quotedLength? lineFeeds quote (w ++ rest) = some n := by
  fun_induction quotedLength? lineFeeds quote w generalizing n with
  | case1 => cases h
  | case2 c hc =>
    cases rest with
    | nil => rw [List.append_nil, quotedLength?, if_pos hc, h]
    | cons d rest => rw [List.singleton_append, quotedLength?, if_pos hc, h]
  | case3 c hc => cases h
  | case4 c d w hc => rw [List.cons_append, List.cons_append, quotedLength?, if_pos hc, h]
  | case5 c d w hc hslash hfeed => cases h
  | case6 c d w hc hslash hfeed ih =>
    obtain ⟨k, hk, rfl⟩ := Option.map_eq_some_iff.mp h
    rw [List.cons_append, List.cons_append, quotedLength?, if_neg hc, if_pos hslash, if_neg hfeed, ih hk]
    rfl
  | case7 c d w hc hslash hfeed => cases h
  | case8 c d w hc hslash hfeed ih =>
    obtain ⟨k, hk, rfl⟩ := Option.map_eq_some_iff.mp h
    have hrest := ih hk
    rw [List.cons_append] at hrest
    rw [List.cons_append, List.cons_append, quotedLength?, if_neg hc, if_neg hslash, if_neg hfeed, hrest]
    rfl

/-- Where line feeds may be escaped, the other strings are strings too. -/
theorem quotedLength?_lineFeeds {quote : Char} {w : List Char} {n : Nat} (h : quotedLength? false quote w = some n) :
    quotedLength? true quote w = some n := by
  fun_induction quotedLength? false quote w generalizing n with
  | case1 => cases h
  | case2 c hc => rw [quotedLength?, if_pos hc, h]
  | case3 c hc => cases h
  | case4 c d w hc => rw [quotedLength?, if_pos hc, h]
  | case5 c d w hc hslash hfeed => cases h
  | case6 c d w hc hslash hfeed ih =>
    obtain ⟨k, hk, rfl⟩ := Option.map_eq_some_iff.mp h
    rw [quotedLength?, if_neg hc, if_pos hslash, if_neg (by simp), ih hk]
    rfl
  | case7 c d w hc hslash hfeed => cases h
  | case8 c d w hc hslash hfeed ih =>
    obtain ⟨k, hk, rfl⟩ := Option.map_eq_some_iff.mp h
    rw [quotedLength?, if_neg hc, if_neg hslash, if_neg hfeed, ih hk]
    rfl

end Expression

/-! ## Matches -/

namespace Scan

theorem spaceLength_append {w : List Char} {c : Char} {rest : List Char} (hw : w.all Text.isSpace = true)
    (hc : Text.isSpace c = false) : spaceLength (w ++ c :: rest) = w.length := by
  rw [spaceLength, Text.takeWhile_isSpace rest hw hc]

theorem markup?_element {name : String} {c : Char} {rest : List Char} (h : Text.IsFullName .tag name)
    (hc : Text.EndsName c) :
    markup? ('<' :: (name.toList ++ c :: rest)) =
      some ⟨[(.delimiter, 1), (.tagName, name.toList.length)], .enter .tag⟩ := by
  obtain ⟨d, w, hname, hd, -⟩ := h.starts
  have hprefix : "<>".toList.isPrefixOf ('<' :: (name.toList ++ c :: rest)) = false := by
    have hne : '>' ≠ d := by
      rintro rfl
      cases hd
    simp [hname, List.isPrefixOf, hne]
  rw [markup?, hprefix, if_neg (by decide), openingTag?, h.append hc]
  rfl

/-- What opens markup is no closing tag. -/
theorem closingTagLength?_eq_none {c : Char} {rest : List Char} (hspace : Text.isSpace c = false) (hslash : c ≠ '/') :
    closingTagLength? ('<' :: c :: rest) = none := by
  have hlength : spaceLength (c :: rest) = 0 := spaceLength_append (w := []) rfl hspace
  simp only [closingTagLength?, hlength, List.drop_zero]
  split
  · next heq => exact absurd (List.cons.inj heq).1 hslash
  · rfl

theorem nameLength?_getD {name : String} (h : name = "" ∨ Text.IsFullName .tag name) (rest : List Char) :
    (Text.nameLength? .tag (name.toList ++ '>' :: rest)).getD 0 = name.toList.length := by
  rcases h with rfl | h
  · rfl
  · rw [h.append ⟨by decide, by decide, by decide, by decide⟩]
    rfl

theorem noSpace_head {name : String} (h : name = "" ∨ Text.IsFullName .tag name) (rest : List Char) :
    spaceLength (name.toList ++ '>' :: rest) = 0 := by
  rcases h with rfl | h
  · rfl
  · obtain ⟨c, w, hname, -, hspace⟩ := h.starts
    rw [hname]
    exact spaceLength_append (w := []) rfl (hspace c List.mem_cons_self)

theorem closingTagLength?_eq {name : String} (h : name = "" ∨ Text.IsFullName .tag name) (rest : List Char) :
    closingTagLength? ('<' :: '/' :: (name.toList ++ '>' :: rest)) = some (name.toList.length + 3) := by
  have hslash : spaceLength ('/' :: (name.toList ++ '>' :: rest)) = 0 := spaceLength_append (w := []) rfl (by decide)
  have hend : spaceLength ('>' :: rest) = 0 := spaceLength_append (w := []) rfl (by decide)
  simp [closingTagLength?, hslash, noSpace_head h, nameLength?_getD h, hend]

theorem content?_markup {count : Nat} {cs : List Char} {m : Match} (hclose : closingTagLength? cs = none)
    (hm : markup? cs = some m) : content? count cs = some m := by
  simp [content?.eq_def, hclose, hm]

theorem content?_close {name : String} (h : name = "" ∨ Text.IsFullName .tag name) (count : Nat) (rest : List Char) :
    content? count ('<' :: '/' :: (name.toList ++ '>' :: rest)) =
      one .delimiter (name.toList.length + 3) (.leave count) := by
  rw [content?, closingTagLength?_eq h rest]

/-- Whether the text after this can only go on with a tag or an expression. -/
def Stops (rest : List Char) : Prop := ∃ c cs, rest = c :: cs ∧ (c = '<' ∨ c = '\x7b')

theorem content?_text {count : Nat} {w rest : List Char} (hne : w ≠ []) (hangle : '<' ∉ w) (hbrace : '\x7b' ∉ w)
    (hrest : Stops rest) : content? count (w ++ rest) = one .text w.length .stay := by
  have hplain : ∀ c ∈ w, (c != '<' && c != '\x7b') = true := by
    intro c hc
    simp only [Bool.and_eq_true, bne_iff_ne, ne_eq]
    exact ⟨fun h => hangle (h ▸ hc), fun h => hbrace (h ▸ hc)⟩
  have htake : (w ++ rest).takeWhile (fun d => d != '<' && d != '\x7b') = w := by
    obtain ⟨d, cs, rfl, hd⟩ := hrest
    rw [List.takeWhile_append_of_pos hplain]
    rcases hd with rfl | rfl <;> simp
  cases w with
  | nil => exact absurd rfl hne
  | cons c w =>
    have hc := hplain c List.mem_cons_self
    simp only [Bool.and_eq_true, bne_iff_ne, ne_eq] at hc
    have hclose : closingTagLength? (c :: (w ++ rest)) = none := by
      unfold closingTagLength?
      split
      · next heq => exact absurd (List.cons.inj heq).1 hc.1
      · rfl
    have hmarkup : markup? (c :: (w ++ rest)) = none := by
      have hopen : openingTag? (c :: (w ++ rest)) = none := by
        unfold openingTag?
        split
        · next heq => exact absurd (List.cons.inj heq).1 hc.1
        · rfl
      simp [markup?, List.isPrefixOf, Ne.symm hc.1, hopen]
    rw [List.cons_append] at htake ⊢
    rw [content?, hclose]
    simp only [hmarkup, htake]
    simp [hc.1, hc.2]

theorem content?_brace (count : Nat) (rest : List Char) :
    content? count ('\x7b' :: rest) = one .delimiter 1 (.enter .braces) := by
  simp [content?, closingTagLength?, markup?, List.isPrefixOf, openingTag?]

/-! ### Inside a tag -/

/-- Whether a tag goes on with white space or its end. -/
def TagNext (rest : List Char) : Prop := ∃ c cs, rest = c :: cs ∧ (Text.isSpace c = true ∨ c = '/' ∨ c = '>')

theorem TagNext.endsName {rest : List Char} (h : TagNext rest) : ∃ c cs, rest = c :: cs ∧ Text.EndsName c := by
  obtain ⟨c, cs, rfl, hc | rfl | rfl⟩ := h
  · exact ⟨c, cs, rfl, .of_isSpace hc⟩
  · exact ⟨_, cs, rfl, by decide, by decide, by decide, by decide⟩
  · exact ⟨_, cs, rfl, by decide, by decide, by decide, by decide⟩

theorem tag?_space {w : List Char} {c : Char} {rest : List Char} (hne : w ≠ []) (hw : w.all Text.isSpace = true)
    (hc : Text.isSpace c = false) : tag? (w ++ c :: rest) = one .space w.length .stay := by
  cases w with
  | nil => exact absurd rfl hne
  | cons d w =>
    have hd : Text.isSpace d = true := List.all_eq_true.mp hw d List.mem_cons_self
    have hlength := @spaceLength_append _ c rest hw hc
    rw [← hlength, List.cons_append, tag?]
    simp [hd]

theorem tag?_close (rest : List Char) : tag? ('/' :: '>' :: rest) = one .delimiter 2 (.leave 1) := by
  simp [tag?, List.isPrefixOf, show Text.isSpace '/' = false by decide]

theorem tag?_content (rest : List Char) : tag? ('>' :: rest) = one .delimiter 1 (.enter .content) := by
  simp [tag?, List.isPrefixOf, show Text.isSpace '>' = false by decide]

theorem tag?_equals (rest : List Char) : tag? ('=' :: rest) = one .equals 1 .stay := by
  simp [tag?, List.isPrefixOf, show Text.isSpace '=' = false by decide]

theorem tag?_brace (rest : List Char) : tag? ('\x7b' :: rest) = one .delimiter 1 (.enter .braces) := by
  simp [tag?, List.isPrefixOf, show Text.isSpace '\x7b' = false by decide]

/-- A character that starts a name has no other rule in a tag. -/
theorem tag?_of_isNameStart {c : Char} {cs : List Char} (hc : Text.isNameStart c = true)
    (hspace : Text.isSpace c = false) {m : Match} (hm : attrName? (c :: cs) = some m) : tag? (c :: cs) = some m := by
  have hne (d : Char) (hd : Text.isNameStart d = false) : c ≠ d := by
    rintro rfl
    rw [hc] at hd
    cases hd
  simp [tag?, hspace, hm, List.isPrefixOf, hne '>' (by decide), hne '=' (by decide), hne '\x7b' (by decide),
    Ne.symm (hne '/' (by decide))]

theorem tag?_name {name : String} {c : Char} {rest : List Char} (h : Text.IsFullName .attr name)
    (hc : Text.EndsName c) : tag? (name.toList ++ c :: rest) = one .attrName name.toList.length .stay := by
  obtain ⟨d, w, hname, hd, hspace⟩ := h.starts
  have hm : attrName? (name.toList ++ c :: rest) = one .attrName name.toList.length .stay := by
    rw [attrName?, h.append hc]
    rfl
  rw [hname, List.cons_append] at hm ⊢
  exact tag?_of_isNameStart hd (hspace d List.mem_cons_self) hm

theorem takeWhile_quote {q : Char} {raw rest : List Char} (h : q ∉ raw) :
    (raw ++ q :: rest).takeWhile (· != q) = raw := by
  have hother : ∀ c ∈ raw, (c != q) = true := by
    intro c hc
    rw [bne_iff_ne]
    rintro rfl
    exact h hc
  rw [List.takeWhile_append_of_pos hother]
  simp

/-- The kind of the token that a string in these quotes is. -/
def quotedKind (q : Char) : TokenKind := if q = '"' then .doubleQuoted else .singleQuoted

theorem tag?_string {q : Char} {raw rest : List Char} (hq : Text.IsQuote q) (hraw : q ∉ raw) :
    tag? (q :: (raw ++ q :: rest)) = one (quotedKind q) (raw.length + 2) .stay := by
  rcases hq with rfl | rfl
  · simp [tag?, quotedKind, show Text.isSpace '"' = false by decide, List.isPrefixOf, attrName?, Text.nameLength?,
      show Text.isNameStart '"' = false by decide, attributeString?, takeWhile_quote hraw, one]
  · simp [tag?, quotedKind, show Text.isSpace '\'' = false by decide, List.isPrefixOf, attrName?, Text.nameLength?,
      show Text.isNameStart '\'' = false by decide, attributeString?, takeWhile_quote hraw, one]

/-! ### In braces -/

/-- Characters that no rule for expressions starts with. -/
def isQuiet (c : Char) : Bool :=
  !(isLeadChar c || ['\x7d', '\x7b', 'r', 'y', '"', '\'', '`', '/'].contains c)

theorem lead?_eq_none {c : Char} (hlead : isLeadChar c = false) (hr : c ≠ 'r') (hy : c ≠ 'y') (before : Option Char)
    (rest : List Char) : lead? before (c :: rest) = none := by
  have heq : c ≠ '=' := by
    rintro rfl
    cases hlead
  simp [lead?, leadLength?, List.isPrefixOf, Ne.symm hr, Ne.symm hy, Ne.symm heq, hlead]

theorem expression?_quiet {c : Char} (h : isQuiet c = true) (before : Option Char) (rest : List Char) :
    expression? ['\x7d'] before (c :: rest) = none := by
  simp only [isQuiet, Bool.not_eq_true', Bool.or_eq_false_iff, List.contains_eq_mem, decide_eq_false_iff_not,
    List.mem_cons, List.not_mem_nil, or_false, not_or] at h
  obtain ⟨hlead, hclose, hopen, hr, hy, hdouble, hsingle, hback, hslash⟩ := h
  have hne (d : Char) (hd : isLeadChar d = true) : c ≠ d := by
    rintro rfl
    rw [hlead] at hd
    cases hd
  have hliteral : literal? (c :: rest) = none := by
    simp [literal?, scriptString?, comment?, hdouble, hsingle, hback, hslash]
  simp [expression?, lead?_eq_none hlead hr hy, hclose, hopen, hliteral, hne '(' (by decide), hne '[' (by decide),
    hne ',' (by decide), hne ':' (by decide)]

theorem scriptString?_body {q : Char} {raw : String} (hq : Text.IsQuote q) (hraw : Literal.IsBody q raw)
    (rest : List Char) :
    scriptString? (q :: (raw.toList ++ [q] ++ rest)) = one (quotedKind q) (raw.toList.length + 2) .stay := by
  have hlength := Expression.quotedLength?_append hraw rest
  rcases hq with rfl | rfl
  · simp only [scriptString?, hlength]
    rfl
  · simp only [scriptString?, hlength]
    rfl

theorem expression?_string {q : Char} {raw : String} (hq : Text.IsQuote q) (hraw : Literal.IsBody q raw)
    (before : Option Char) (rest : List Char) :
    expression? ['\x7d'] before (q :: (raw.toList ++ [q] ++ rest)) =
      one (quotedKind q) (raw.toList.length + 2) .stay := by
  have hstring := scriptString?_body hq hraw rest
  have hlead : lead? before (q :: (raw.toList ++ [q] ++ rest)) = none := by
    rcases hq with rfl | rfl
    · exact lead?_eq_none (by decide) (by decide) (by decide) _ _
    · exact lead?_eq_none (by decide) (by decide) (by decide) _ _
  rw [expression?, hlead, literal?, hstring]
  rcases hq with rfl | rfl <;> rfl

end Scan
end JsxEdit
