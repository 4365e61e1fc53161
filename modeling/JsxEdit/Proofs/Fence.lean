import JsxEdit.Proofs.Passage
import Mathlib.Data.List.TakeWhile

/-
What comes after a part of a text, and what of the part is scanned differently for it.

Nothing is, if the next character ends names and white space, if neither a mark nor markup is made up of characters on both
sides, and if every string and every comment that starts in the part also ends there, or the line that the string is in. The
last condition is a matter of the text that was read: `closes` says that before a place in it no quote and no opening of a
comment is without its end.
-/
set_option autoImplicit false

namespace JsxEdit.Scan

/-! ## Texts that end what is before them -/

/-- Characters at which names end: white space, a brace, a comma, or what ends a tag. -/
def isStop (c : Char) : Bool := Text.isSpace c || ['\x7b', '\x7d', ',', '/', '>'].contains c

theorem isStop_cases {c : Char} (h : isStop c = true) :
    Text.isSpace c = true ∨ c = '\x7b' ∨ c = '\x7d' ∨ c = ',' ∨ c = '/' ∨ c = '>' := by
  simpa [isStop] using h

theorem endsName_of_isStop {c : Char} (h : isStop c = true) : Text.EndsName c := by
  rcases isStop_cases h with h | rfl | rfl | rfl | rfl | rfl
  · exact .of_isSpace h
  all_goals exact ⟨by decide, by decide, by decide, by decide⟩

theorem ne_of_isStop {c d : Char} (h : isStop c = true) (hd : isStop d = false) : c ≠ d := by
  rintro rfl
  rw [h] at hd
  cases hd

/-- A text that goes on with nothing of what is before it, if that ends with this character. -/
structure Fences (last : Char) (r : List Char) : Prop where
  head : ∀ d ∈ r.head?, isStop d = true
  pair : last ∈ ['<', '=', '/'] → ∀ d ∈ r.head?, d ≠ '/' ∧ d ≠ '>'
  markup : startsMarkup (r.dropWhile Text.isSpace) = false

/-- A text that no closing tag reaches into. -/
def Unclosing (r : List Char) : Prop := ∀ v n, closingTagLength? (v ++ r) = some n → n ≤ v.length

/-- A character that is in no closing tag stops every closing tag, unless an angle comes first. -/
theorem Unclosing.of_outside {b : List Char} (hb : '>' ∉ b) {d : Char} (hd : OutsideTags d)
    (hangle : d ≠ '<' ∧ d ≠ '>') (w : List Char) : Unclosing (b ++ d :: w) := by
  intro v n h
  by_contra hlt
  obtain ⟨k, rfl⟩ := Nat.exists_eq_add_of_lt (Nat.lt_of_not_le hlt)
  obtain ⟨body, hbody, hnot⟩ := closingTagLength?_text h
  rw [Nat.add_assoc, List.take_length_add_append] at hbody
  have hends : ((b ++ d :: w).take (k + 1)).getLast? = some '>' := by
    have hlast := congrArg List.getLast? hbody
    rw [List.getLast?_append_of_ne_nil _ (by simp), List.getLast?_concat] at hlast
    exact hlast
  have hmem : d ∈ (b ++ d :: w).take (k + 1) := by
    rw [List.take_append] at hends ⊢
    cases hk : k + 1 - b.length with
    | zero =>
      rw [hk, List.take_zero, List.append_nil] at hends
      exact absurd (List.mem_of_mem_take (List.mem_of_getLast? hends)) hb
    | succ j => exact List.mem_append_right _ List.mem_cons_self
  have hall : d ∈ '<' :: body ++ ['>'] := hbody ▸ List.mem_append_right v hmem
  simp only [List.cons_append, List.mem_cons, List.mem_append, List.not_mem_nil, or_false, hangle.1, hangle.2,
    hnot d hd] at hall

section

variable {last : Char} {v r : List Char} (hv : v.getLast? = some last) (hr : Fences last r)

include hv in
theorem getLast?_tail {c d : Char} {w : List Char} (h : v = c :: d :: w) : (d :: w).getLast? = some last := by
  subst h
  rwa [List.getLast?_cons_cons] at hv

include hv in
theorem takeWhile_before {p : Char → Bool} (hp : p last = false) (r : List Char) :
    (v ++ r).takeWhile p = v.takeWhile p := by
  obtain ⟨u, rfl⟩ := List.getLast?_eq_some_iff.mp hv
  have hstop : ∀ s, (u ++ last :: s).takeWhile p = u.takeWhile p := by
    intro s
    rw [List.takeWhile_append]
    split
    · next heq => rw [List.takeWhile_cons_of_neg (by simp [hp]), List.append_nil,
        (List.takeWhile_prefix p).eq_of_length heq]
    · rfl
  rw [List.append_assoc, List.singleton_append, hstop, hstop]

include hv in
theorem getLast?_dropWhile {p : Char → Bool} (hp : p last = false) (r : List Char) :
    (v ++ r).dropWhile p = v.dropWhile p ++ r ∧ (v.dropWhile p).getLast? = some last := by
  obtain ⟨u, rfl⟩ := List.getLast?_eq_some_iff.mp hv
  have hstop : ∀ s, (u ++ last :: s).dropWhile p = u.dropWhile p ++ last :: s := by
    intro s
    rw [List.dropWhile_append]
    split
    · next hnil => rw [List.isEmpty_iff.mp hnil, List.dropWhile_cons_of_neg (by simp [hp])]; rfl
    · rfl
  rw [List.append_assoc, List.singleton_append, hstop, hstop, List.append_assoc]
  exact ⟨rfl, List.getLast?_concat⟩

/-- A name ends before a character that ends names. -/
theorem nameTail_before {kind : Text.NameKind} {r : List Char} (hr : ∀ d ∈ r.head?, Text.EndsName d) (v : List Char) :
    Text.nameTail kind (v ++ r) = Text.nameTail kind v := by
  have hnone : Text.nameTail kind r = 0 := by
    cases r with
    | nil => rfl
    | cons d r => exact (hr d rfl).nameTail kind r
  fun_induction Text.nameTail kind v with
  | case1 => exact hnone
  | case2 c hc => rw [List.singleton_append, nameTail_cons hc, hnone]
  | case3 c hc =>
    cases r with
    | nil => simp [Text.nameTail, hc]
    | cons d r => simp [Text.nameTail, hc, (hr d rfl).1]
  | case4 c d v hc ih => rw [List.cons_append, nameTail_cons hc, ih]
  | case5 c d v hc hdivides ih => rw [List.cons_append, List.cons_append, Text.nameTail, if_neg hc, if_pos hdivides, ih]
  | case6 c d v hc hdivides =>
    rw [List.cons_append, List.cons_append, Text.nameTail, if_neg hc, if_neg hdivides]

include hr

theorem Fences.endsName : ∀ d ∈ r.head?, Text.EndsName d := fun d hd => endsName_of_isStop (hr.head d hd)

theorem nameLength?_before (kind : Text.NameKind) (v : List Char) :
    Text.nameLength? kind (v ++ r) = Text.nameLength? kind v := by
  cases v with
  | nil =>
    cases r with
    | nil => rfl
    | cons d r =>
      have hd := (hr.endsName d rfl).1
      have hstart : Text.isNameStart d = false := by
        cases h : Text.isNameStart d with
        | false => rfl
        | true =>
          rw [Text.isNamePart_of_isNameStart h] at hd
          cases hd
      simp [Text.nameLength?, hstart]
  | cons c v => rw [List.cons_append, Text.nameLength?, Text.nameLength?, nameTail_before hr.endsName]

include hv

theorem startsMarkup_before : startsMarkup (v ++ r) = startsMarkup v := by
  rcases v with - | ⟨c, - | ⟨d, v⟩⟩
  · cases hv
  · cases r with
    | nil => rfl
    | cons d r =>
      by_cases hc : c = '<'
      · subst hc
        cases hv
        have hstart : Text.isNameStart d = false := by
          cases h : Text.isNameStart d with
          | false => rfl
          | true =>
            have hd := (hr.endsName d rfl).1
            rw [Text.isNamePart_of_isNameStart h] at hd
            cases hd
        have hangle : d ≠ '>' := (hr.pair (by decide) d rfl).2
        simp [startsMarkup, hstart, hangle]
      · simp [startsMarkup, hc]
  · by_cases hc : c = '<'
    · rw [hc]
      rfl
    · simp [startsMarkup, hc]

/-- Whether markup follows is not a matter of what comes after the text. -/
theorem announced_before (hlast : Text.isSpace last = false) {n : Nat} (hn : n ≤ v.length) :
    startsMarkup (((v ++ r).drop n).dropWhile Text.isSpace) = startsMarkup ((v.drop n).dropWhile Text.isSpace) := by
  rw [List.drop_append_of_le_length hn]
  by_cases hlt : n < v.length
  · have hdrop : (v.drop n).getLast? = some last := by rw [List.getLast?_drop, if_neg (Nat.not_le_of_lt hlt), hv]
    obtain ⟨heq, hdropped⟩ := getLast?_dropWhile hdrop hlast r
    rw [heq, startsMarkup_before hdropped hr]
  · rw [List.drop_eq_nil_of_le (Nat.le_of_not_lt hlt), List.nil_append, hr.markup]
    rfl

omit hv in
/-- A word of letters is not made up by what comes after. -/
theorem isPrefixOf_before {p : List Char} (hp : ∀ c ∈ p, Text.isNamePart c = true) (v : List Char) :
    p.isPrefixOf (v ++ r) = p.isPrefixOf v := by
  induction p generalizing v with
  | nil => rfl
  | cons a p ih =>
    rw [List.forall_mem_cons] at hp
    cases v with
    | nil =>
      cases r with
      | nil => rfl
      | cons d r =>
        have hne : (a == d) = false := by
          refine beq_false_of_ne ?_
          rintro rfl
          rw [(hr.endsName a rfl).1] at hp
          cases hp.1
        simp [List.isPrefixOf, hne]
    | cons c v => rw [List.cons_append, List.isPrefixOf_cons_cons, List.isPrefixOf_cons_cons, ih hp.2]

/-- A mark of two characters is not made up by what comes after. -/
theorem mark_before {a : Char} (ha : a ∈ ['<', '=', '/']) : [a, '>'].isPrefixOf (v ++ r) = [a, '>'].isPrefixOf v := by
  rcases v with - | ⟨c, - | ⟨d, v⟩⟩
  · cases hv
  · cases hv
    cases r with
    | nil => rfl
    | cons d r =>
      by_cases hc : a = c
      · have hd : ('>' == d) = false := beq_false_of_ne (Ne.symm (hr.pair (hc ▸ ha) d rfl).2)
        simp [List.isPrefixOf, hd]
      · simp [List.isPrefixOf, hc]
  · rfl

theorem lead?_before (hlast : Text.isSpace last = false) (before : Option Char) :
    lead? before (v ++ r) = lead? before v := by
  have hword {p : List Char} {n : Nat} (hn : p.length = n) (hp : ∀ c ∈ p, Text.isNamePart c = true) :
      (p.isPrefixOf (v ++ r) && startsMarkup (((v ++ r).drop n).dropWhile Text.isSpace)) =
        (p.isPrefixOf v && startsMarkup ((v.drop n).dropWhile Text.isSpace)) := by
    rw [isPrefixOf_before hr hp]
    cases hprefix : p.isPrefixOf v with
    | false => rfl
    | true =>
      have hle := (List.isPrefixOf_iff_prefix.mp hprefix).length_le
      rw [announced_before hv hr hlast (hn ▸ hle)]
  have hreturn := hword (p := "return".toList) (n := 6) (by decide) (List.all_eq_true.mp (by decide))
  have hyield := hword (p := "yield".toList) (n := 5) (by decide) (List.all_eq_true.mp (by decide))
  have harrow : ("=>".toList.isPrefixOf (v ++ r) && startsMarkup (((v ++ r).drop 2).dropWhile Text.isSpace)) =
      ("=>".toList.isPrefixOf v && startsMarkup ((v.drop 2).dropWhile Text.isSpace)) := by
    rw [show "=>".toList = ['=', '>'] by decide, mark_before hv hr (by decide)]
    cases hprefix : ['=', '>'].isPrefixOf v with
    | false => rfl
    | true =>
      have hle := (List.isPrefixOf_iff_prefix.mp hprefix).length_le
      rw [announced_before (n := 2) hv hr hlast hle]
  have hmark : ((v ++ r).head?.any isLeadChar && startsMarkup (((v ++ r).drop 1).dropWhile Text.isSpace)) =
      (v.head?.any isLeadChar && startsMarkup ((v.drop 1).dropWhile Text.isSpace)) := by
    have hlength : 1 ≤ v.length := by
      cases v with
      | nil => cases hv
      | cons c v => exact Nat.succ_le_succ (Nat.zero_le _)
    rw [announced_before hv hr hlast hlength]
    cases v with
    | nil => cases hv
    | cons c v => rfl
  rw [lead?, lead?, leadLength?, leadLength?]
  simp only [Bool.and_assoc, hreturn, hyield, harrow, hmark]

omit hv in
theorem openingTag?_before (v : List Char) (hne : v ≠ []) : openingTag? (v ++ r) = openingTag? v := by
  cases v with
  | nil => exact absurd rfl hne
  | cons c v =>
    by_cases hc : c = '<'
    · subst hc
      rw [List.cons_append, openingTag?, openingTag?, nameLength?_before hr]
    · simp [openingTag?, hc]

theorem markup?_before : markup? (v ++ r) = markup? v := by
  have hne : v ≠ [] := by
    rintro rfl
    cases hv
  rw [markup?, markup?, show "<>".toList = ['<', '>'] by decide, mark_before hv hr (by decide), openingTag?_before hr v hne]

omit hv hr in
/-- A closing tag that does not reach into what comes after is not made up by it. -/
theorem closingTagLength?_before {v : List Char} (hle : ∀ n, closingTagLength? (v ++ r) = some n → n ≤ v.length) :
    closingTagLength? (v ++ r) = closingTagLength? v := by
  cases h : closingTagLength? (v ++ r) with
  | some n =>
    have hle := hle n h
    have hends := closingTagLength?_endsAngle h
    rw [List.take_append_of_le_length hle] at hends
    have hlong := closingTagLength?_local hends (v.drop n ++ r)
    have hshort := closingTagLength?_local hends (v.drop n)
    rw [← List.append_assoc, List.take_append_drop] at hlong
    rw [List.take_append_drop] at hshort
    rw [hshort, ← hlong, h]
  | none =>
    cases hv : closingTagLength? v with
    | none => rfl
    | some n =>
      have hends := closingTagLength?_endsAngle hv
      have hlong := closingTagLength?_local hends (v.drop n ++ r)
      have hshort := closingTagLength?_local hends (v.drop n)
      rw [← List.append_assoc, List.take_append_drop] at hlong
      rw [List.take_append_drop] at hshort
      rw [hlong, ← hshort, hv] at h
      cases h

omit hr in
theorem spaceLength_before (hlast : Text.isSpace last = false) : spaceLength (v ++ r) = spaceLength v := by
  rw [spaceLength, spaceLength, takeWhile_before hv hlast]

end

/-! ## Strings and comments -/

/-- Whether a string or a comment between marks starts here. -/
def opensLiteral : List Char → Bool
  | '"' :: _ => true
  | '\'' :: _ => true
  | '/' :: '*' :: _ => true
  | _ => false

theorem quotedLength?_pos {lineFeeds : Bool} {q : Char} {w : List Char} {n : Nat}
    (h : Expression.quotedLength? lineFeeds q w = some n) : 0 < n := by
  rw [Expression.quotedLength?.eq_def] at h
  repeat' split at h
  all_goals first
    | cases h
    | (obtain ⟨k, -, rfl⟩ := Option.map_eq_some_iff.mp h)
  all_goals exact Nat.succ_pos _

/-- What comes after the end of a string is not looked at. -/
theorem quotedLength?_within {q : Char} {v r : List Char} {n : Nat} (hn : n ≤ v.length)
    (h : Expression.quotedLength? false q (v ++ r) = some n) : Expression.quotedLength? false q v = some n := by
  fun_induction Expression.quotedLength? false q v generalizing n with
  | case1 => exact absurd (quotedLength?_pos h) (Nat.not_lt_of_le hn)
  | case2 c hc =>
    rw [List.singleton_append, Expression.quotedLength?.eq_def] at h
    split at h <;> simp_all
  | case3 c hc =>
    -- the string would go on
    exfalso
    have hone : n = 1 := Nat.le_antisymm hn (quotedLength?_pos h)
    subst hone
    cases r with
    | nil => simp [Expression.quotedLength?, hc] at h
    | cons d r =>
      rw [List.singleton_append, Expression.quotedLength?, if_neg hc] at h
      split at h
      · split at h
        · cases h
        · obtain ⟨k, -, hk⟩ := Option.map_eq_some_iff.mp h
          cases hk
      · split at h
        · cases h
        · obtain ⟨k, hrest, hk⟩ := Option.map_eq_some_iff.mp h
          obtain rfl : k = 0 := Nat.succ.inj hk
          exact absurd (quotedLength?_pos hrest) (Nat.lt_irrefl 0)
  | case4 c d w hc =>
    rw [List.cons_append, List.cons_append, Expression.quotedLength?, if_pos hc] at h
    exact h
  | case5 c d w hc hslash hfeed =>
    rw [List.cons_append, List.cons_append, Expression.quotedLength?, if_neg hc, if_pos hslash, if_pos hfeed] at h
    exact h
  | case6 c d w hc hslash hfeed ih =>
    rw [List.cons_append, List.cons_append, Expression.quotedLength?, if_neg hc, if_pos hslash, if_neg hfeed] at h
    obtain ⟨k, hk, rfl⟩ := Option.map_eq_some_iff.mp h
    rw [ih (Nat.le_of_succ_le_succ (Nat.le_of_succ_le_succ hn)) hk]
    rfl
  | case7 c d w hc hslash hfeed =>
    rw [List.cons_append, List.cons_append, Expression.quotedLength?, if_neg hc, if_neg hslash, if_pos hfeed] at h
    exact h
  | case8 c d w hc hslash hfeed ih =>
    rw [List.cons_append, List.cons_append, Expression.quotedLength?, if_neg hc, if_neg hslash, if_neg hfeed] at h
    obtain ⟨k, hk, rfl⟩ := Option.map_eq_some_iff.mp h
    rw [ih (Nat.le_of_succ_le_succ hn) hk]
    rfl

/-- What comes after the end of a comment is not looked at. -/
theorem blockCommentRest?_within {v r : List Char} {n : Nat} (hn : n ≤ v.length)
    (h : blockCommentRest? (v ++ r) = some n) : blockCommentRest? v = some n := by
  have htwo : ∀ {w : List Char} {n : Nat}, blockCommentRest? w = some n → 2 ≤ n := by
    intro w n h
    fun_induction blockCommentRest? w generalizing n with
    | case1 => cases h
    | case2 c => cases h
    | case3 c d w hend =>
      cases h
      exact Nat.le_refl 2
    | case4 c d w hend ih =>
      obtain ⟨k, hk, rfl⟩ := Option.map_eq_some_iff.mp h
      exact Nat.le_succ_of_le (ih hk)
  fun_induction blockCommentRest? v generalizing n with
  | case1 => exact absurd (Nat.le_trans (htwo h) hn) (Nat.not_succ_le_zero 1)
  | case2 c => exact absurd (Nat.le_trans (htwo h) hn) (Nat.not_succ_le_self 1)
  | case3 c d v hend =>
    rw [List.cons_append, List.cons_append, blockCommentRest?, if_pos hend] at h
    exact h
  | case4 c d v hend ih =>
    rw [List.cons_append, List.cons_append, blockCommentRest?, if_neg hend] at h
    obtain ⟨k, hk, rfl⟩ := Option.map_eq_some_iff.mp h
    rw [ih (Nat.le_of_succ_le_succ hn) hk]
    rfl

/-- Whether the string that the text starts with breaks off, since its line ends: even quotes after the text do not end it. -/
def breaksOff : List Char → Bool
  | '"' :: w => (Expression.quotedLength? false '"' (w ++ ['"', '"'])).isNone
  | '\'' :: w => (Expression.quotedLength? false '\'' (w ++ ['\'', '\''])).isNone
  | _ => false

theorem quotedLength?_of_broken {q : Char} (hq : q ≠ '\\' ∧ q ≠ '\n') {w : List Char}
    (h : Expression.quotedLength? false q (w ++ [q, q]) = none) (r : List Char) :
    Expression.quotedLength? false q (w ++ r) = none := by
  fun_induction Expression.quotedLength? false q w with
  | case1 => simp [Expression.quotedLength?] at h
  | case2 c hc => simp [Expression.quotedLength?, hc] at h
  | case3 c hc =>
    by_cases hslash : c = '\\'
    · simp [Expression.quotedLength?, hslash, hq.1.symm, hq.2] at h
    · by_cases hfeed : c = '\n'
      · subst hfeed
        cases r <;> simp [Expression.quotedLength?, hq.2.symm]
      · simp [Expression.quotedLength?, hc, hslash, hfeed] at h
  | case4 c d w hc => simp [Expression.quotedLength?, hc] at h
  | case5 c d w hc hslash hfeed =>
    rw [List.cons_append, List.cons_append, Expression.quotedLength?, if_neg hc, if_pos hslash, if_pos hfeed]
  | case6 c d w hc hslash hfeed ih =>
    rw [List.cons_append, List.cons_append, Expression.quotedLength?, if_neg hc, if_pos hslash, if_neg hfeed,
      Option.map_eq_none_iff] at h ⊢
    exact ih h
  | case7 c d w hc hslash hfeed =>
    rw [List.cons_append, List.cons_append, Expression.quotedLength?, if_neg hc, if_neg hslash, if_pos hfeed]
  | case8 c d w hc hslash hfeed ih =>
    rw [List.cons_append, List.cons_append, Expression.quotedLength?, if_neg hc, if_neg hslash, if_neg hfeed,
      Option.map_eq_none_iff] at h ⊢
    exact ih h

theorem literal?_of_breaksOff {v : List Char} (h : breaksOff v = true) (r : List Char) : literal? (v ++ r) = none := by
  unfold breaksOff at h
  split at h
  · next w =>
    rw [Option.isNone_iff_eq_none] at h
    simp [literal?, scriptString?, comment?, quotedLength?_of_broken (by decide) h r]
  · next w =>
    rw [Option.isNone_iff_eq_none] at h
    simp [literal?, scriptString?, comment?, quotedLength?_of_broken (by decide) h r]
  · cases h

/-- A string that breaks off does so in any longer text. -/
theorem breaksOff_append {v : List Char} (h : breaksOff v = true) (r : List Char) : breaksOff (v ++ r) = true := by
  unfold breaksOff at h
  split at h
  · rw [List.cons_append, breaksOff, List.append_assoc, quotedLength?_of_broken (by decide) (Option.isNone_iff_eq_none.mp h)]
    rfl
  · rw [List.cons_append, breaksOff, List.append_assoc, quotedLength?_of_broken (by decide) (Option.isNone_iff_eq_none.mp h)]
    rfl
  · cases h

/-! ## Matches -/

theorem none_orElse (a : Option Match) : (none <|> a) = a := rfl

/-- Two texts that may come after a text that ends with this character without a difference to it. -/
structure Alike (last : Char) (r r' : List Char) : Prop where
  solid : Text.isSpace last = false
  goesOn : r ≠ []
  left : Fences last r
  right : Fences last r'
  closing : Unclosing r'
  brace : r.head? = some '\x7b' → r' = [] ∨ r'.head? = some '\x7b'
  brace' : r'.head? = some '\x7b' → r.head? = some '\x7b'

/-- A match that needs no more than the text, unless that opens a string or comment whose line goes on; and one up to the end
of a line is of a line that ends there in both cases. -/
structure Within (v r r' : List Char) (a : Option Match) : Prop where
  le : ∀ m, a = some m → m.length ≤ v.length
  closed : opensLiteral (v ++ r) = true → a.isSome = true ∨ breaksOff v = true
  line : ∀ w, v = '/' :: '/' :: w → a = some ⟨[(.comment, v.length)], .stay⟩ → r' = [] ∨ r'.head? = some '\n'

section

variable {last : Char} {v r r' : List Char} (hv : v.getLast? = some last) (h : Alike last r r')

include hv h in
theorem comment?_alike (hw : Within v r r' (comment? (v ++ r))) : comment? (v ++ r') = comment? (v ++ r) := by
  have hclosed : opensLiteral (v ++ r) = true → breaksOff v = false → (comment? (v ++ r)).isSome = true :=
    fun hopens hbreaks => (hw.closed hopens).resolve_right (by simp [hbreaks])
  rcases v with - | ⟨c, - | ⟨d, v⟩⟩
  · cases hv
  · by_cases hc : c = '/'
    · subst hc
      cases hv
      have hnone {s : List Char} (hs : Fences '/' s) : comment? ('/' :: s) = none := by
        cases s with
        | nil => rfl
        | cons d s =>
          have hslash : d ≠ '/' := (hs.pair (by decide) d rfl).1
          have hstar : d ≠ '*' := ne_of_isStop (hs.head d rfl) (by decide)
          simp [comment?, hslash, hstar]
      rw [List.singleton_append, List.singleton_append, hnone h.left, hnone h.right]
    · simp [comment?, hc]
  · by_cases hc : c = '/'
    · subst hc
      by_cases hslash : d = '/'
      · subst hslash
        -- a comment to the end of the line
        simp only [List.cons_append, comment?, List.takeWhile_append] at hw ⊢
        by_cases hall : (v.takeWhile (· != '\n')).length = v.length
        · have hle := hw.le _ rfl
          rw [if_pos hall] at hle
          have hend : (r.takeWhile (· != '\n')).length = 0 := by
            rw [Match.length] at hle
            simp only [List.foldr_cons, List.foldr_nil, List.length_append, List.length_cons] at hle
            omega
          have hend' : (r'.takeWhile (· != '\n')).length = 0 := by
            have hcomment := hw.line v rfl (by rw [if_pos hall, List.length_append, hend]; rfl)
            rcases hcomment with rfl | hr'
            · rfl
            · cases r' with
              | nil => rfl
              | cons e r' =>
                cases hr'
                rfl
          rw [if_pos hall, if_pos hall, List.length_append, List.length_append, hend, hend']
        · rw [if_neg hall, if_neg hall]
      · by_cases hstar : d = '*'
        · subst hstar
          obtain ⟨m, hm⟩ := Option.isSome_iff_exists.mp (hclosed rfl rfl)
          have hle := hw.le m hm
          simp only [List.cons_append, comment?] at hm ⊢
          split at hm
          · next n hn =>
            obtain rfl := one_eq hm
            have hn' : n ≤ v.length := Nat.le_of_succ_le_succ (Nat.le_of_succ_le_succ hle)
            rw [blockCommentRest?_append (blockCommentRest?_within hn' hn) r']
          · cases hm
        · simp [comment?, hslash, hstar]
    · simp [comment?, hc]

/-- A string of the script that ends in a text does so whatever comes after it. -/
theorem quoted_alike {q : Char} {kind : TokenKind} {w : List Char}
    (hw : ∀ m, ((Expression.quotedLength? false q (w ++ r)).bind fun n => one kind (n + 1) .stay) = some m →
      m.length ≤ w.length + 1)
    (hsome : ((Expression.quotedLength? false q (w ++ r)).bind fun n => one kind (n + 1) .stay).isSome = true) :
    Expression.quotedLength? false q (w ++ r') = Expression.quotedLength? false q (w ++ r) := by
  obtain ⟨m, hm⟩ := Option.isSome_iff_exists.mp hsome
  obtain ⟨n, hn, hm'⟩ := Option.bind_eq_some_iff.mp hm
  have hle := hw m hm
  obtain rfl := one_eq hm'
  rw [hn]
  exact Expression.quotedLength?_append (quotedLength?_within (Nat.le_of_succ_le_succ hle) hn) r'

include hv h in
theorem literal?_alike (hw : Within v r r' (literal? (v ++ r))) : literal? (v ++ r') = literal? (v ++ r) := by
  by_cases hbreaks : breaksOff v = true
  · rw [literal?_of_breaksOff hbreaks, literal?_of_breaksOff hbreaks]
  cases v with
  | nil => cases hv
  | cons c v =>
    by_cases hdouble : c = '"'
    · subst hdouble
      have hform : ∀ s, literal? ('"' :: (v ++ s)) =
          (Expression.quotedLength? false '"' (v ++ s)).bind fun n => one .doubleQuoted (n + 1) .stay := by
        intro s
        simp [literal?, scriptString?, comment?]
      rw [List.cons_append] at hw
      rw [List.cons_append, List.cons_append, hform, hform]
      rw [hform] at hw
      rw [quoted_alike hw.le ((hw.closed rfl).resolve_right hbreaks)]
    · by_cases hsingle : c = '\''
      · subst hsingle
        have hform : ∀ s, literal? ('\'' :: (v ++ s)) =
            (Expression.quotedLength? false '\'' (v ++ s)).bind fun n => one .singleQuoted (n + 1) .stay := by
          intro s
          simp [literal?, scriptString?, comment?]
        rw [List.cons_append] at hw
        rw [List.cons_append, List.cons_append, hform, hform]
        rw [hform] at hw
        rw [quoted_alike hw.le ((hw.closed rfl).resolve_right hbreaks)]
      · have hstring : ∀ s, scriptString? (c :: v ++ s) = none := by
          intro s
          simp [scriptString?, hdouble, hsingle]
        by_cases htick : c = '`'
        · subst htick
          rfl
        · have htick' : ∀ s, ((c :: v ++ s).head? == some '`') = false := by
            intro s
            simp [htick]
          have hform : ∀ s, literal? (c :: v ++ s) = comment? (c :: v ++ s) := by
            intro s
            rw [literal?, hstring, htick']
            rfl
          rw [hform] at hw
          rw [hform, hform, comment?_alike hv h hw]

/-- An attribute string that ends in a text does so whatever comes after it. -/
theorem upTo_alike {q : Char} {kind : TokenKind} {w : List Char}
    (hw : ∀ m, (if (w ++ r).contains q then one kind (((w ++ r).takeWhile (· != q)).length + 2) .stay else none) = some m →
      m.length ≤ w.length + 1)
    (hsome : (if (w ++ r).contains q then one kind (((w ++ r).takeWhile (· != q)).length + 2) .stay else none).isSome =
      true) :
    (if (w ++ r').contains q then one kind (((w ++ r').takeWhile (· != q)).length + 2) .stay else none) =
      if (w ++ r).contains q then one kind (((w ++ r).takeWhile (· != q)).length + 2) .stay else none := by
  obtain ⟨m, hm⟩ := Option.isSome_iff_exists.mp hsome
  have hle := hw m hm
  split at hm
  · obtain rfl := one_eq hm
    have hmem : q ∈ w := by
      by_contra hq
      have hall : w.takeWhile (· != q) = w := List.takeWhile_eq_self_iff.mpr fun c hc => bne_iff_ne.mpr fun he => hq (he ▸ hc)
      have hlong : w.length ≤ ((w ++ r).takeWhile (· != q)).length := by
        rw [List.takeWhile_append, if_pos (congrArg List.length hall), List.length_append]
        exact Nat.le_add_right _ _
      exact absurd hle (Nat.not_le_of_lt (Nat.succ_lt_succ (Nat.lt_succ_of_le hlong)))
    have hcontains (s : List Char) : (w ++ s).contains q = true := by simp [hmem]
    have htake (s : List Char) : (w ++ s).takeWhile (· != q) = w.takeWhile (· != q) := by
      rw [List.takeWhile_append, if_neg]
      intro hfull
      have hall := List.takeWhile_eq_self_iff.mp ((List.takeWhile_prefix (· != q)).eq_of_length hfull) q hmem
      simp at hall
    rw [hcontains, hcontains, htake, htake]
  · cases hm

include hv h

theorem tag?_alike (hw : Within v r r' (tag? (v ++ r))) (hclosed : opensLiteral (v ++ r) = true → (tag? (v ++ r)).isSome = true) :
    tag? (v ++ r') = tag? (v ++ r) := by
  have hslash (s : List Char) (hs : Fences last s) : "/>".toList.isPrefixOf (v ++ s) = ['/', '>'].isPrefixOf v :=
    mark_before hv hs (by decide)
  have hspace (s : List Char) : spaceLength (v ++ s) = spaceLength v := spaceLength_before hv h.solid
  have hname (s : List Char) (hs : Fences last s) : attrName? (v ++ s) = attrName? v := by
    rw [attrName?, attrName?, nameLength?_before hs]
  have hleft := hslash r h.left
  have hright := hslash r' h.right
  cases v with
  | nil => cases hv
  | cons c v =>
    have hform (s : List Char) (hs : Fences last s) : tag? (c :: v ++ s) =
        if Text.isSpace c then one .space (spaceLength (c :: v)) .stay
        else if ['/', '>'].isPrefixOf (c :: v) then one .delimiter 2 (.leave 1)
        else if c == '>' then one .delimiter 1 (.enter .content)
        else if c == '=' then one .equals 1 .stay
        else if c == '\x7b' then one .delimiter 1 (.enter .braces)
        else attrName? (c :: v) <|> attributeString? (c :: v ++ s) <|> comment? (c :: v ++ s) := by
      rw [← hspace s, ← hslash s hs, ← hname s hs]
      rfl
    rw [hform r h.left] at hw hclosed
    rw [hform r h.left, hform r' h.right]
    split
    · rfl
    · next hblank =>
      rw [if_neg hblank] at hw hclosed
      split
      · rfl
      · next hend =>
        rw [if_neg hend] at hw hclosed
        by_cases hc : c = '>' ∨ c = '=' ∨ c = '\x7b'
        · rcases hc with rfl | rfl | rfl <;> rfl
        · rw [not_or, not_or] at hc
          rw [if_neg (by simpa using hc.1), if_neg (by simpa using hc.2.1), if_neg (by simpa using hc.2.2)] at hw hclosed ⊢
          rw [if_neg (by simpa using hc.1), if_neg (by simpa using hc.2.1), if_neg (by simpa using hc.2.2)]
          by_cases hdouble : c = '"'
          · subst hdouble
            have hquoted (s : List Char) : (attrName? ('"' :: v) <|> attributeString? ('"' :: v ++ s) <|>
                comment? ('"' :: v ++ s)) = attributeString? ('"' :: v ++ s) := by
              simp [attrName?, Text.nameLength?, Text.isNameStart, comment?]
            rw [hquoted] at hw hclosed
            rw [hquoted, hquoted]
            exact upTo_alike hw.le (hclosed rfl)
          · by_cases hsingle : c = '\''
            · subst hsingle
              have hquoted (s : List Char) : (attrName? ('\'' :: v) <|> attributeString? ('\'' :: v ++ s) <|>
                  comment? ('\'' :: v ++ s)) = attributeString? ('\'' :: v ++ s) := by
                simp [attrName?, Text.nameLength?, Text.isNameStart, comment?]
              rw [hquoted] at hw hclosed
              rw [hquoted, hquoted]
              exact upTo_alike hw.le (hclosed rfl)
            · have hstring (s : List Char) : attributeString? (c :: v ++ s) = none := by
                simp [attributeString?, hdouble, hsingle]
              rw [hstring] at hw
              rw [hstring, hstring]
              cases hattr : attrName? (c :: v) with
              | some m => rfl
              | none =>
                rw [hattr] at hw
                exact comment?_alike hv h hw

omit hv in
/-- A run of characters goes on to the next one that is none of them. -/
theorem takeWhile_alike {kind : TokenKind} {p : Char → Bool} (hp : ∀ d, isStop d = true → p d = false → d = '\x7b')
    (hw : ∀ m, one kind ((v ++ r).takeWhile p).length .stay = some m → m.length ≤ v.length) :
    one kind ((v ++ r').takeWhile p).length .stay = one kind ((v ++ r).takeWhile p).length .stay := by
  rw [List.takeWhile_append, List.takeWhile_append]
  split
  · next hall =>
    have hle := hw _ rfl
    rw [List.takeWhile_append, if_pos hall, Match.length] at hle
    have hend : r.takeWhile p = [] := by
      apply List.length_eq_zero_iff.mp
      simp only [List.foldr_cons, List.foldr_nil, List.length_append] at hle
      omega
    -- the brace that the run goes up to stands there in both cases
    obtain ⟨d, s, hr⟩ := List.exists_cons_of_ne_nil h.goesOn
    have hd : p d = false := by
      by_contra hd
      rw [hr, List.takeWhile_cons_of_pos (by simpa using hd)] at hend
      cases hend
    obtain rfl := hp d (h.left.head d (by rw [hr]; rfl)) hd
    have hend' : r'.takeWhile p = [] := by
      rcases h.brace (by rw [hr]; rfl) with rfl | hr'
      · rfl
      · cases r' with
        | nil => rfl
        | cons d r' =>
          cases hr'
          rw [List.takeWhile_cons_of_neg (by simp [hd])]
    rw [hend, hend']
  · rfl

theorem content?_alike (count : Nat) (hw : Within v r r' (content? count (v ++ r))) :
    content? count (v ++ r') = content? count (v ++ r) := by
  have hclosing : closingTagLength? (v ++ r) = closingTagLength? v := by
    refine closingTagLength?_before fun n hn => ?_
    have hle := hw.le ⟨[(.delimiter, n)], .leave count⟩ (by rw [content?.eq_def, hn]; rfl)
    exact hle
  have hclosing' := closingTagLength?_before (h.closing v)
  have hmarkup (s : List Char) (hs : Fences last s) := markup?_before hv hs
  rw [content?.eq_def, hclosing, hmarkup r h.left] at hw
  rw [content?.eq_def count (v ++ r), content?.eq_def count (v ++ r'), hclosing, hclosing', hmarkup r h.left,
    hmarkup r' h.right]
  cases hclose : closingTagLength? v with
  | some n => rfl
  | none =>
    rw [hclose] at hw
    cases hm : markup? v with
    | some m => rfl
    | none =>
      rw [hm] at hw
      cases v with
      | nil => cases hv
      | cons c v =>
        by_cases hc : c = '\x7b' ∨ c = '<'
        · rcases hc with rfl | rfl <;> rfl
        · rw [not_or] at hc
          have hbrace : (c == '\x7b') = false := beq_false_of_ne hc.1
          have hangle : (c == '<') = false := beq_false_of_ne hc.2
          simp only [hbrace, hangle, none_orElse, Bool.false_eq_true, if_false, List.cons_append] at hw ⊢
          simp only [← List.cons_append] at hw ⊢
          refine takeWhile_alike h (fun d hd hp => ?_) hw.le
          simp only [Bool.and_eq_false_imp, bne_iff_ne, ne_eq, bne_eq_false_iff_eq] at hp
          exact hp (ne_of_isStop hd (by decide))

theorem expression?_alike (closers : List Char) (before : Option Char)
    (hw : Within v r r' (expression? closers before (v ++ r))) :
    expression? closers before (v ++ r') = expression? closers before (v ++ r) := by
  have hlead (s : List Char) (hs : Fences last s) := lead?_before hv hs h.solid before
  cases hvs : v with
  | nil =>
    rw [hvs] at hv
    cases hv
  | cons c w =>
    have hform (s : List Char) (hs : Fences last s) : expression? closers before (v ++ s) =
        if closers.contains c then one .delimiter 1 (.leave 1)
        else
          lead? before v <|>
            if c == '\x7b' then one .delimiter 1 (.enter .braces)
            else if c == '(' || c == '[' then one .delimiter 1 (.enter .group)
            else if c == ',' || c == ':' then one .separator 1 .stay
            else literal? (v ++ s) := by
      rw [← hlead s hs, hvs]
      rfl
    rw [← hvs]
    rw [hform r h.left] at hw
    rw [hform r h.left, hform r' h.right]
    split
    · rfl
    · next hcloser =>
      rw [if_neg hcloser] at hw
      cases hl : lead? before v with
      | some m => rfl
      | none =>
        rw [hl] at hw
        rw [none_orElse] at hw ⊢
        rw [none_orElse]
        split
        · rfl
        · next hbrace =>
          rw [if_neg hbrace] at hw
          split
          · rfl
          · next hgroup =>
            rw [if_neg hgroup] at hw
            split
            · rfl
            · next hseparator =>
              rw [if_neg hseparator] at hw
              exact literal?_alike hv h hw

omit hv in
/-- Whether a substitution starts in a template is not a matter of what comes after the text. -/
theorem dollar_alike {v : List Char} (hw : Within ('$' :: v) r r' (template? ('$' :: v ++ r))) :
    template? ('$' :: v ++ r') = template? ('$' :: v ++ r) := by
  have hform (t : List Char) (ht : t.head? ≠ some '\x7b') : template? ('$' :: t) = one .template 1 .stay := by
    cases t with
    | nil => rfl
    | cons f t =>
      have hf : f ≠ '\x7b' := fun hf => ht (congrArg some hf)
      simp [template?, hf]
  cases v with
  | cons d v =>
    by_cases hd : d = '\x7b'
    · subst hd
      rfl
    · rw [List.cons_append, hform _ (by simpa using hd), List.cons_append, hform _ (by simpa using hd)]
  | nil =>
    by_cases hbrace : r.head? = some '\x7b'
    · -- what opens a substitution is not cut
      obtain ⟨s, rfl⟩ : ∃ s, r = '\x7b' :: s := by
        cases r with
        | nil => cases hbrace
        | cons e s => exact ⟨s, by rw [Option.some.inj hbrace]⟩
      exact absurd (hw.le _ rfl) (by decide)
    · rw [List.singleton_append, List.singleton_append, hform r hbrace, hform r' fun hr' => hbrace (h.brace' hr')]

theorem template?_alike (hw : Within v r r' (template? (v ++ r))) : template? (v ++ r') = template? (v ++ r) := by
  cases v with
  | nil => cases hv
  | cons c v =>
    by_cases htick : c = '`'
    · subst htick
      rfl
    · by_cases hdollar : c = '$'
      · subst hdollar
        exact dollar_alike h hw
      · by_cases hslash : c = '\\'
        · subst hslash
          cases v with
          | cons d v => rfl
          | nil =>
            -- neither is an escape
            obtain ⟨e, s, rfl⟩ := List.exists_cons_of_ne_nil h.goesOn
            exact absurd (hw.le _ rfl) (by decide)
        · have hform (s : List Char) : template? (c :: v ++ s) =
              one .template ((c :: v ++ s).takeWhile fun c => c != '`' && c != '\\' && c != '$').length .stay := by
            rw [List.cons_append, template?.eq_def]
            split <;> simp_all
          rw [hform] at hw
          rw [hform, hform]
          refine takeWhile_alike h (fun d hd hp => ?_) hw.le
          have hstop {q : Char} (hq : isStop q = false) : (d != q) = true := bne_iff_ne.mpr (ne_of_isStop hd hq)
          rw [hstop (by decide), hstop (by decide), hstop (by decide)] at hp
          cases hp

theorem firstMarkup?_before {r : List Char} (hr : Fences last r) : firstMarkup? (v ++ r) = firstMarkup? v := by
  have hdrop (cs : List Char) : cs.drop (spaceLength cs) = cs.dropWhile Text.isSpace := by
    have hsplit := List.take_append_drop (spaceLength cs) cs
    rw [take_spaceLength] at hsplit
    exact List.append_cancel_left (hsplit.trans List.takeWhile_append_dropWhile.symm)
  have hstarts : startsMarkup ((v ++ r).drop (spaceLength (v ++ r))) = startsMarkup (v.drop (spaceLength v)) := by
    obtain ⟨heq, hdropped⟩ := getLast?_dropWhile hv h.solid r
    rw [hdrop, hdrop, heq, startsMarkup_before hdropped hr]
  rw [firstMarkup?, firstMarkup?, hstarts, spaceLength_before hv h.solid, markup?_before hv hr]

/-- The match at the start of a text is the same whichever of the two comes after it. -/
theorem match?_alike (mode : Mode) (atStart : Bool) (before : Option Char)
    (hw : Within v r r' (match? mode atStart before (v ++ r)))
    (hclosed : mode = .tag → opensLiteral (v ++ r) = true → (match? mode atStart before (v ++ r)).isSome = true) :
    match? mode atStart before (v ++ r') = match? mode atStart before (v ++ r) := by
  cases mode with
  | script =>
    have hform (s : List Char) (hs : Fences last s) : match? .script atStart before (v ++ s) =
        ((if atStart then firstMarkup? v else none) <|> lead? before v <|> literal? (v ++ s)) := by
      rw [match?, firstMarkup?_before hv h hs, lead?_before hv hs h.solid]
    rw [hform r h.left] at hw
    rw [hform r h.left, hform r' h.right]
    cases hfirst : (if atStart then firstMarkup? v else none) with
    | some m => rfl
    | none =>
      rw [hfirst, none_orElse] at hw
      rw [none_orElse, none_orElse]
      cases hl : lead? before v with
      | some m => rfl
      | none =>
        rw [hl] at hw
        exact literal?_alike hv h hw
  | markup =>
    rw [match?, match?, spaceLength_before hv h.solid, spaceLength_before hv h.solid, markup?_before hv h.left,
      markup?_before hv h.right]
  | tag => exact tag?_alike hv h hw (hclosed rfl)
  | content => exact content?_alike hv h 2 hw
  | fragment => exact content?_alike hv h 1 hw
  | braces => exact expression?_alike hv h _ before hw
  | group => exact expression?_alike hv h _ before hw
  | template => exact template?_alike hv h hw

/-- Whether announced markup is over is not a matter of what comes after the text. -/
theorem settle_alike (stack : List Mode) : settle (v ++ r') stack = settle (v ++ r) stack := by
  have hmarkup : match? .markup false none (v ++ r') = match? .markup false none (v ++ r) := by
    rw [match?, match?, spaceLength_before hv h.solid, spaceLength_before hv h.solid, markup?_before hv h.left,
      markup?_before hv h.right]
  induction stack with
  | nil => rfl
  | cons mode stack ih =>
    by_cases hmode : mode = .markup
    · subst hmode
      rw [settle, settle, hmarkup, ih]
    · rw [Piece.Opened.settle_eq _ (show current (mode :: stack) ≠ .markup from hmode),
        Piece.Opened.settle_eq _ (show current (mode :: stack) ≠ .markup from hmode)]

end

/-! ## Passages -/

/-- Whether the event is a comment to the end of the line. -/
def isLineComment : Event → Bool
  | .token t => t.kind == .comment && "//".toList.isPrefixOf t.text.toList
  | _ => false

/-- Whether the last of the events is a comment to the end of the line. -/
def endsInLine (es : List Event) : Bool := es.getLast?.any isLineComment

theorem endsInLine_append {es fs : List Event} (h : endsInLine fs = true) : endsInLine (es ++ fs) = true := by
  unfold endsInLine at h ⊢
  rw [List.getLast?_append]
  cases hf : fs.getLast? with
  | none =>
    rw [hf] at h
    cases h
  | some e =>
    rw [hf] at h
    exact h

namespace Stand

/-- Whether every string and every comment between marks that starts in the rest of a text before `b` ends as well, or is a
string of an expression whose line ends before `a`. -/
def closes (a b : Nat) (s : Stand) : List Char → Bool
  | [] => true
  | c :: cs =>
    (decide (b ≤ s.pos) || s.skip != 0 || !opensLiteral (c :: cs) || (s.matched? (c :: cs)).isSome ||
      current (settle (c :: cs) s.stack) != .tag && breaksOff ((c :: cs).take (a - s.pos))) &&
    (s.step c cs).2.closes a b cs

theorem closes_after {a b : Nat} {s : Stand} {x r : List Char} (h : s.closes a b (x ++ r) = true) :
    (s.after r x).closes a b r = true := by
  induction x generalizing s with
  | nil => exact h
  | cons c x ih =>
    rw [List.cons_append, closes, Bool.and_eq_true] at h
    exact ih h.2

/-- What starts where there is a string or a comment ends as well, or the line of the string does before the place. -/
theorem closes_here {a b : Nat} {s : Stand} {c : Char} {cs : List Char} (h : s.closes a b (c :: cs) = true) (hb : s.pos < b)
    (hskip : s.skip = 0) (hopens : opensLiteral (c :: cs) = true) : (s.matched? (c :: cs)).isSome = true ∨
      current (settle (c :: cs) s.stack) ≠ .tag ∧ breaksOff ((c :: cs).take (a - s.pos)) = true := by
  rw [closes, Bool.and_eq_true] at h
  simpa [Nat.not_le_of_lt hb, hskip, hopens] using h.1

/-- The characters of a match bring nothing more. -/
theorem brings_skip {s : Stand} {r x : List Char} (h : s.skip = x.length) : s.brings r x = [] := by
  induction x generalizing s with
  | nil => rfl
  | cons c x ih =>
    rw [brings, step_skip h]
    exact ih rfl

/-- There is nothing unmatched after a match. -/
theorem after_skip {s : Stand} {r x : List Char} (h : s.skip = x.length) : (s.after r x).pending = s.pending := by
  induction x generalizing s with
  | nil => rfl
  | cons c x ih =>
    rw [after, step_skip h]
    exact ih rfl

variable {last : Char} {r r' : List Char}

/-- A passage is the same whichever of two texts comes after it, if all that starts in it also ends there. -/
theorem fence {a b : Nat} {s : Stand} {x : List Char} (hx : x = [] ∨ x.getLast? = some last) (h : Alike last r r')
    (hend : (s.after r x).skip = 0) (hclosed : s.closes a b (x ++ r) = true) (ha : a ≤ s.pos + x.length)
    (hb : s.pos + x.length ≤ b)
    (hline : endsInLine (s.brings r x) = true → (s.after r x).pending = [] → r' = [] ∨ r'.head? = some '\n') :
    s.brings r' x = s.brings r x ∧ s.after r' x = s.after r x := by
  induction x generalizing s with
  | nil => exact ⟨rfl, rfl⟩
  | cons c x ih =>
    have hv : (c :: x).getLast? = some last := hx.resolve_left (List.cons_ne_nil _ _)
    rw [List.length_cons] at ha hb
    have hhere := @closes_here a b s c (x ++ r) hclosed (by omega)
    have hstep : s.step c (x ++ r') = s.step c (x ++ r) := by
      cases hskip : s.skip with
      | succ k => rw [step_skip hskip, step_skip hskip]
      | zero =>
        have hsettle : settle (c :: (x ++ r')) s.stack = settle (c :: (x ++ r)) s.stack := settle_alike hv h s.stack
        have hwithin : Within (c :: x) r r' (s.matched? (c :: (x ++ r))) := by
          refine ⟨fun m hm => match_le hend hskip hm, fun hopens => ?_, fun w hw hm => ?_⟩
          · refine (hhere hskip hopens).imp_right fun hbreaks => ?_
            have hprefix : (c :: (x ++ r)).take (a - s.pos) <+: c :: x := by
              rw [← List.cons_append, List.take_append_of_le_length (by rw [List.length_cons]; omega)]
              exact List.take_prefix _ _
            obtain ⟨w, hw⟩ := hprefix
            rw [← hw]
            exact breaksOff_append hbreaks.2 w
          · -- a comment that goes up to the end is the last event
            have hrest : (⟨settle (c :: (x ++ r)) s.stack, some c, s.pos + 1, x.length, []⟩ : Stand).brings r x = [] ∧
                ((⟨settle (c :: (x ++ r)) s.stack, some c, s.pos + 1, x.length, []⟩ : Stand).after r x).pending = [] :=
              ⟨brings_skip rfl, after_skip rfl⟩
            rw [brings, after, step_match hskip hm,
              show (Match.mk [(.comment, (c :: x).length)] .stay).length - 1 = x.length from rfl] at hline
            dsimp only [Move.apply] at hline
            rw [hrest.1, List.append_nil] at hline
            refine hline ?_ hrest.2
            have hfs : endsInLine ((Match.mk [(.comment, (c :: x).length)] .stay).events s.pos (c :: (x ++ r))) = true := by
              show isLineComment (.token ⟨.comment, s.pos, .ofList ((c :: (x ++ r)).take (c :: x).length)⟩) = true
              rw [← List.cons_append, List.take_left, hw]
              simp [isLineComment]
            exact endsInLine_append hfs
        have hmatched : s.matched? (c :: (x ++ r')) = s.matched? (c :: (x ++ r)) := by
          unfold matched?
          rw [hsettle]
          exact match?_alike hv h _ _ _ hwithin fun htag hopens => (hhere hskip hopens).resolve_right fun hline => hline.1 htag
        cases hm : s.matched? (c :: (x ++ r)) with
        | none => rw [step_none hskip hm, step_none hskip (hmatched.trans hm), hsettle]
        | some m =>
          have hle := match_le hend hskip hm
          have hevents := fun r => events_append (v := c :: x) (r := r) s.pos hle
          simp only [List.cons_append] at hevents
          rw [step_match hskip hm, step_match hskip (hmatched.trans hm), pends, pends, hsettle, hevents, hevents]
    have htail : x = [] ∨ x.getLast? = some last := by
      cases x with
      | nil => exact .inl rfl
      | cons d x => exact .inr (getLast?_tail hv rfl)
    have hline' : endsInLine ((s.step c (x ++ r)).2.brings r x) = true →
        ((s.step c (x ++ r)).2.after r x).pending = [] → r' = [] ∨ r'.head? = some '\n' := by
      intro hends
      rw [brings, after, endsInLine_append hends] at hline
      exact hline rfl
    obtain ⟨hbrings, hafter⟩ := ih htail hend (closes_after (x := [c]) hclosed) (by rw [pos_step]; omega)
      (by rw [pos_step]; omega) hline'
    rw [brings, brings, after, after, hstep, hbrings, hafter]
    exact ⟨rfl, rfl⟩

end Stand

/-- Whether every string and every comment between marks that starts before `b` in a text ends as well, or is a string of an
expression whose line ends before `a`. -/
def closes (a b : Nat) (text : String) : Bool := Stand.start.closes a b text.toList

end JsxEdit.Scan
