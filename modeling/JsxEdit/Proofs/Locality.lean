import JsxEdit.Proofs.Run

/-
What follows markup has no part in how it is read.

Every rule of the scanner looks at a limited piece of the text. Inside markup, which ends with an angle, a rule stops there
at the latest, unless it runs on without leaving its mode: a comment to the end of the line, text between tags, a string or
a comment whose end comes only later. So if all modes that were opened by a piece of markup are left at its end, it was
read as it would be if nothing came after it. The other way round, markup that is complete in itself is read the same
before every text that ends no string and no comment.
-/
set_option autoImplicit false

namespace JsxEdit

/-! ## Texts that end with an angle -/

/-- The text ends with a closing angle. -/
def EndsAngle (v : List Char) : Prop := v.getLast? = some '>'

namespace EndsAngle

variable {v : List Char}

theorem ne_nil (h : EndsAngle v) : v ≠ [] := by
  rintro rfl
  cases h

theorem mem (h : EndsAngle v) : '>' ∈ v := List.mem_of_getLast? h

theorem eq_of_singleton {c : Char} (h : EndsAngle [c]) : c = '>' := Option.some.inj h

theorem tail {c d : Char} (h : EndsAngle (c :: d :: v)) : EndsAngle (d :: v) := by
  rwa [EndsAngle, List.getLast?_cons_cons] at h

theorem of_cons {c : Char} (h : EndsAngle (c :: v)) (hc : c ≠ '>') : EndsAngle v := by
  cases v with
  | nil => exact absurd h.eq_of_singleton hc
  | cons d v => exact h.tail

theorem cons (h : EndsAngle v) (c : Char) : EndsAngle (c :: v) := by
  cases v with
  | nil => exact absurd rfl h.ne_nil
  | cons d v => rwa [EndsAngle, List.getLast?_cons_cons]

theorem drop {n : Nat} (h : EndsAngle v) (hn : n < v.length) : EndsAngle (v.drop n) := by
  rw [EndsAngle, List.getLast?_drop, if_neg (Nat.not_le.mpr hn)]
  exact h

theorem takeWhile (h : EndsAngle v) {p : Char → Bool} (hp : p '>' = false) (r : List Char) :
    (v ++ r).takeWhile p = v.takeWhile p := by
  have hlt : ¬ (v.takeWhile p).length = v.length := by
    intro heq
    have hall : v.all p = true := by
      rw [← (List.takeWhile_prefix p).eq_of_length heq]
      exact List.all_takeWhile
    rw [List.all_eq_true.mp hall '>' h.mem] at hp
    cases hp
  rw [List.takeWhile_append, if_neg hlt]

theorem dropWhile (h : EndsAngle v) {p : Char → Bool} (hp : p '>' = false) (r : List Char) :
    (v ++ r).dropWhile p = v.dropWhile p ++ r ∧ EndsAngle (v.dropWhile p) := by
  obtain ⟨u, rfl⟩ := List.getLast?_eq_some_iff.mp h
  have hstop : ∀ s, (u ++ '>' :: s).dropWhile p = u.dropWhile p ++ '>' :: s := by
    intro s
    rw [List.dropWhile_append]
    split
    · next hnil => rw [List.isEmpty_iff.mp hnil, List.dropWhile_cons_of_neg (by simp [hp])]; rfl
    · rfl
  rw [List.append_assoc, List.singleton_append, hstop, hstop, List.append_assoc]
  exact ⟨rfl, List.getLast?_concat⟩

end EndsAngle

namespace Text

theorem endsName_angle : EndsName '>' := ⟨by decide, by decide, by decide, by decide⟩

theorem nameTail_local {kind : NameKind} {v : List Char} (h : EndsAngle v) (r : List Char) :
    nameTail kind (v ++ r) = nameTail kind v := by
  fun_induction nameTail kind v with
  | case1 => exact absurd rfl h.ne_nil
  | case2 c hc =>
    rw [h.eq_of_singleton, endsName_angle.1] at hc
    cases hc
  | case3 c hc =>
    rw [h.eq_of_singleton]
    exact endsName_angle.nameTail kind r
  | case4 c d v hc ih =>
    rw [List.cons_append, Scan.nameTail_cons hc, ih h.tail]
  | case5 c d v hc hdivides ih =>
    -- the part after a divider is none if it is the angle
    have hv : EndsAngle v := by
      cases v with
      | nil =>
        rw [h.tail.eq_of_singleton, endsName_angle.1, Bool.and_false] at hdivides
        cases hdivides
      | cons e v => exact h.tail.tail
    rw [List.cons_append, List.cons_append, nameTail, if_neg hc, if_pos hdivides, ih hv]
  | case6 c d v hc hdivides => rw [List.cons_append, List.cons_append, nameTail, if_neg hc, if_neg hdivides]

theorem nameLength?_local {kind : NameKind} {v : List Char} (h : EndsAngle v) (r : List Char) :
    nameLength? kind (v ++ r) = nameLength? kind v := by
  cases v with
  | nil => exact absurd rfl h.ne_nil
  | cons c v =>
    rw [List.cons_append, nameLength?, nameLength?]
    cases v with
    | nil =>
      rw [h.eq_of_singleton]
      rfl
    | cons d v => rw [nameTail_local h.tail]

theorem nameTail_lt {kind : NameKind} {v : List Char} (h : EndsAngle v) : nameTail kind v < v.length := by
  fun_induction nameTail kind v with
  | case1 => exact absurd rfl h.ne_nil
  | case2 c hc =>
    rw [h.eq_of_singleton, endsName_angle.1] at hc
    cases hc
  | case3 c hc => exact Nat.zero_lt_one
  | case4 c d v hc ih => exact Nat.succ_lt_succ (ih h.tail)
  | case5 c d v hc hdivides ih =>
    cases v with
    | nil =>
      rw [h.tail.eq_of_singleton, endsName_angle.1, Bool.and_false] at hdivides
      cases hdivides
    | cons e v => exact Nat.succ_lt_succ (Nat.succ_lt_succ (ih h.tail.tail))
  | case6 c d v hc hdivides => exact Nat.succ_pos _

theorem nameLength?_lt {kind : NameKind} {v : List Char} (h : EndsAngle v) : (nameLength? kind v).getD 0 < v.length := by
  cases v with
  | nil => exact absurd rfl h.ne_nil
  | cons c v =>
    rw [nameLength?]
    split
    · cases v with
      | nil =>
        next hc =>
        rw [h.eq_of_singleton] at hc
        cases hc
      | cons d v => exact Nat.succ_lt_succ (nameTail_lt h.tail)
    · exact Nat.succ_pos _

end Text

namespace Scan

variable {v r : List Char}

theorem spaceLength_local (h : EndsAngle v) (r : List Char) : spaceLength (v ++ r) = spaceLength v := by
  rw [spaceLength, spaceLength, h.takeWhile (by decide)]

theorem spaceLength_lt (h : EndsAngle v) : spaceLength v < v.length := by
  obtain ⟨u, rfl⟩ := List.getLast?_eq_some_iff.mp h
  have hlength : spaceLength (u ++ ['>']) = spaceLength u := by
    rw [spaceLength, spaceLength, List.takeWhile_append]
    split
    · next heq => rw [List.takeWhile_cons_of_neg (by decide), List.append_nil, heq]
    · rfl
  rw [hlength, List.length_append]
  exact Nat.lt_succ_of_le (List.takeWhile_prefix _).length_le

theorem startsMarkup_local (h : EndsAngle v) (r : List Char) : startsMarkup (v ++ r) = startsMarkup v := by
  rcases v with - | ⟨c, - | ⟨d, v⟩⟩
  · exact absurd rfl h.ne_nil
  · rw [h.eq_of_singleton]
    rfl
  · by_cases hc : c = '<'
    · rw [hc]
      rfl
    · simp [startsMarkup, hc]

theorem isPrefixOf_local {p : List Char} (h : EndsAngle v) (hp : '>' ∉ p) (r : List Char) :
    p.isPrefixOf (v ++ r) = p.isPrefixOf v ∧ (p.isPrefixOf v = true → p.length < v.length) := by
  induction p generalizing v with
  | nil => exact ⟨rfl, fun _ => List.length_pos_iff.mpr h.ne_nil⟩
  | cons a p ih =>
    obtain ⟨ha, hp⟩ := List.ne_and_not_mem_of_not_mem_cons hp
    rcases v with - | ⟨c, - | ⟨d, v⟩⟩
    · exact absurd rfl h.ne_nil
    · have hne : (a == c) = false := by
        rw [h.eq_of_singleton]
        exact beq_false_of_ne (Ne.symm ha)
      simp [List.isPrefixOf, hne]
    · obtain ⟨heq, hlt⟩ := ih h.tail hp
      refine ⟨?_, fun hprefix => ?_⟩
      · rw [List.cons_append, List.isPrefixOf_cons_cons, List.isPrefixOf_cons_cons, heq]
      · rw [List.isPrefixOf_cons_cons, Bool.and_eq_true] at hprefix
        exact Nat.succ_lt_succ (hlt hprefix.2)

/-! ## Local matches -/

/-- The match takes all of the `n` characters, and leaves no mode at their end. -/
def Overruns (n : Nat) (a : Option Match) : Prop := ∃ m, a = some m ∧ n ≤ m.length ∧ ∀ count, m.move ≠ .leave count

/-- A text that ends no string and no comment, and goes on with no markup. -/
structure IsQuiet (r : List Char) : Prop where
  double : '"' ∉ r
  single : '\'' ∉ r
  star : '*' ∉ r
  markup : startsMarkup (r.dropWhile Text.isSpace) = false

/-- Two matches, the first with more text after the `n` characters, are the same or go on to their end. -/
def Local (n : Nat) (r : List Char) (a b : Option Match) : Prop := a = b ∨ Overruns n a ∧ (IsQuiet r → Overruns n b)

theorem Local.orElse {n : Nat} {a b a' b' : Option Match} (h : Local n r a b) (h' : Local n r a' b') :
    Local n r (a <|> a') (b <|> b') := by
  have hover : ∀ {x y : Option Match}, Overruns n x → Overruns n (x <|> y) := by
    rintro x y ⟨m, rfl, hm⟩
    exact ⟨m, rfl, hm⟩
  rcases h with rfl | ⟨ha, hb⟩
  · cases a with
    | none => exact h'
    | some m => exact .inl rfl
  · exact .inr ⟨hover ha, fun hr => hover (hb hr)⟩

theorem overruns_one {n length : Nat} {kind : TokenKind} {move : Move} (hn : n ≤ length)
    (hmove : ∀ count, move ≠ .leave count) : Overruns n (one kind length move) := ⟨_, rfl, hn, hmove⟩

/-- What runs up to a character is the same if the character comes, and runs on over all of the text if not. -/
theorem Local.takeWhile (kind : TokenKind) (p : Char → Bool) (k : Nat) (v r : List Char) :
    Local (v.length + k) r (one kind (((v ++ r).takeWhile p).length + k) .stay)
      (one kind ((v.takeWhile p).length + k) .stay) := by
  rw [List.takeWhile_append]
  split
  · next heq =>
    refine .inr ⟨overruns_one ?_ (by simp), fun _ => overruns_one ?_ (by simp)⟩
    · rw [List.length_append, Nat.add_right_comm]
      exact Nat.le_add_right _ _
    · exact Nat.le_of_eq (by rw [heq])
  · exact .inl rfl

theorem mem_of_quotedLength? {q : Char} {w : List Char} {n : Nat} (h : Expression.quotedLength? false q w = some n) :
    q ∈ w := by
  fun_induction Expression.quotedLength? false q w generalizing n with
  | case1 => cases h
  | case2 c hc => simp [eq_of_beq hc]
  | case3 c hc => cases h
  | case4 c d w hc => simp [eq_of_beq hc]
  | case5 c d w hc hslash hfeed => cases h
  | case6 c d w hc hslash hfeed ih =>
    obtain ⟨k, hk, -⟩ := Option.map_eq_some_iff.mp h
    exact List.mem_cons_of_mem c (List.mem_cons_of_mem d (ih hk))
  | case7 c d w hc hslash hfeed => cases h
  | case8 c d w hc hslash hfeed ih =>
    obtain ⟨k, hk, -⟩ := Option.map_eq_some_iff.mp h
    exact List.mem_cons_of_mem c (ih hk)

/-- A quote, star or other character that the text after `v` has brings what is looked for to an end there. -/
def FoundLater (q : Char) (v r : List Char) (length? : Option Nat) : Prop :=
  length? = none ∨ q ∈ r ∧ ∃ n, length? = some n ∧ v.length ≤ n

theorem FoundLater.step {q : Char} {length? : Option Nat} (k : Nat) {w : List Char} (hw : w.length = v.length + k)
    (h : FoundLater q v r length?) : FoundLater q w r (length?.map (· + k)) := by
  rcases h with rfl | ⟨hq, n, rfl, hn⟩
  · exact .inl rfl
  · exact .inr ⟨hq, n + k, rfl, hw ▸ Nat.add_le_add_right hn k⟩

/-- A string that is not complete before the angle ends after it, if at all. -/
theorem quotedLength?_local {q : Char} (hv : v = [] ∨ EndsAngle v) (hq : q ≠ '>')
    (h : Expression.quotedLength? false q v = none) (r : List Char) :
    FoundLater q v r (Expression.quotedLength? false q (v ++ r)) := by
  have hlater : FoundLater q [] r (Expression.quotedLength? false q r) := by
    cases hr : Expression.quotedLength? false q r with
    | none => exact .inl rfl
    | some n => exact .inr ⟨mem_of_quotedLength? hr, n, rfl, Nat.zero_le n⟩
  fun_induction Expression.quotedLength? false q v with
  | case1 => exact hlater
  | case2 c hc => cases h
  | case3 c hc =>
    -- the angle itself: the string goes on with what follows
    obtain rfl : c = '>' := (hv.resolve_left (List.cons_ne_nil _ _)).eq_of_singleton
    cases r with
    | nil => simp [Expression.quotedLength?, Ne.symm hq, FoundLater]
    | cons d r =>
      have hstep : Expression.quotedLength? false q (['>'] ++ d :: r) =
          (Expression.quotedLength? false q (d :: r)).map (· + 1) := by
        rw [List.singleton_append, Expression.quotedLength?, if_neg hc, if_neg (by decide), if_neg (by decide)]
      rw [hstep]
      exact hlater.step 1 rfl
  | case4 c d w hc => cases h
  | case5 c d w hc hslash hfeed =>
    rw [List.cons_append, List.cons_append, Expression.quotedLength?, if_neg hc, if_pos hslash, if_pos hfeed]
    exact .inl rfl
  | case6 c d w hc hslash hfeed ih =>
    have hw : w = [] ∨ EndsAngle w := by
      cases w with
      | nil => exact .inl rfl
      | cons e w => exact .inr (hv.resolve_left (List.cons_ne_nil _ _)).tail.tail
    rw [List.cons_append, List.cons_append, Expression.quotedLength?, if_neg hc, if_pos hslash, if_neg hfeed]
    exact (ih hw (Option.map_eq_none_iff.mp h)).step 2 rfl
  | case7 c d w hc hslash hfeed =>
    rw [List.cons_append, List.cons_append, Expression.quotedLength?, if_neg hc, if_neg hslash, if_pos hfeed]
    exact .inl rfl
  | case8 c d w hc hslash hfeed ih =>
    have hw := (hv.resolve_left (List.cons_ne_nil _ _)).tail
    have hrest := ih (.inr hw) (Option.map_eq_none_iff.mp h)
    rw [List.cons_append] at hrest
    rw [List.cons_append, List.cons_append, Expression.quotedLength?, if_neg hc, if_neg hslash, if_neg hfeed]
    exact hrest.step 1 rfl

theorem blockCommentRest?_append {n : Nat} (h : blockCommentRest? v = some n) (r : List Char) :
    blockCommentRest? (v ++ r) = some n := by
  fun_induction blockCommentRest? v generalizing n with
  | case1 => cases h
  | case2 c => cases h
  | case3 c d v hend =>
    rw [List.cons_append, List.cons_append, blockCommentRest?, if_pos hend]
    exact h
  | case4 c d v hend ih =>
    obtain ⟨k, hk, rfl⟩ := Option.map_eq_some_iff.mp h
    have hrest := ih hk
    rw [List.cons_append] at hrest
    rw [List.cons_append, List.cons_append, blockCommentRest?, if_neg hend, hrest]
    rfl

theorem mem_of_blockCommentRest? {w : List Char} {n : Nat} (h : blockCommentRest? w = some n) : '*' ∈ w := by
  fun_induction blockCommentRest? w generalizing n with
  | case1 => cases h
  | case2 c => cases h
  | case3 c d w hend =>
    rw [Bool.and_eq_true] at hend
    simp [eq_of_beq hend.1]
  | case4 c d w hend ih =>
    obtain ⟨k, hk, -⟩ := Option.map_eq_some_iff.mp h
    exact List.mem_cons_of_mem c (ih hk)

/-- A comment that does not end before the angle ends after it, if at all. -/
theorem blockCommentRest?_local (hv : EndsAngle v) (h : blockCommentRest? v = none) (r : List Char) :
    FoundLater '*' v r (blockCommentRest? (v ++ r)) := by
  fun_induction blockCommentRest? v with
  | case1 => exact absurd rfl hv.ne_nil
  | case2 c =>
    rw [hv.eq_of_singleton, List.singleton_append]
    cases r with
    | nil => exact .inl rfl
    | cons d r =>
      rw [blockCommentRest?, if_neg (by simp)]
      have hlater : FoundLater '*' [] (d :: r) (blockCommentRest? (d :: r)) := by
        cases hr : blockCommentRest? (d :: r) with
        | none => exact .inl rfl
        | some n => exact .inr ⟨mem_of_blockCommentRest? hr, n, rfl, Nat.zero_le n⟩
      exact hlater.step 1 rfl
  | case3 c d v hend => cases h
  | case4 c d v hend ih =>
    have hrest := ih hv.tail (Option.map_eq_none_iff.mp h)
    rw [List.cons_append] at hrest
    rw [List.cons_append, List.cons_append, blockCommentRest?, if_neg hend]
    exact hrest.step 1 rfl

/-- What is looked for is found before the angle in any case, or takes in all of the text if it is found after it. -/
theorem Local.found {kind : TokenKind} {q : Char} {w : List Char} {short long : Option Nat} (k : Nat)
    (hw : w.length = v.length + k) (hq : IsQuiet r → q ∉ r) (hfound : ∀ n, short = some n → long = some n)
    (hlater : short = none → FoundLater q v r long) :
    Local w.length r (long.bind fun n => one kind (n + k) .stay) (short.bind fun n => one kind (n + k) .stay) := by
  cases short with
  | some n =>
    rw [hfound n rfl]
    exact .inl rfl
  | none =>
    rcases hlater rfl with rfl | ⟨hmem, n, rfl, hn⟩
    · exact .inl rfl
    · refine .inr ⟨overruns_one ?_ (by simp), fun hr => absurd hmem (hq hr)⟩
      rw [hw]
      exact Nat.add_le_add_right hn k

/-! ## Rules -/

theorem comment?_local (h : EndsAngle v) (r : List Char) : Local v.length r (comment? (v ++ r)) (comment? v) := by
  rcases v with - | ⟨c, - | ⟨d, v⟩⟩
  · exact absurd rfl h.ne_nil
  · rw [h.eq_of_singleton]
    exact .inl rfl
  · by_cases hc : c = '/'
    · subst hc
      by_cases hline : d = '/'
      · subst hline
        exact Local.takeWhile _ _ 2 v r
      · by_cases hblock : d = '*'
        · subst hblock
          have hv : EndsAngle v := h.tail.of_cons (by decide)
          have hbind : ∀ cs, comment? ('/' :: '*' :: cs) =
              (blockCommentRest? cs).bind fun n => one .comment (n + 2) .stay := by
            intro cs
            rw [comment?]
            cases blockCommentRest? cs <;> rfl
          rw [List.cons_append, List.cons_append, hbind, hbind]
          exact Local.found 2 rfl (fun hr => hr.star) (fun n hn => blockCommentRest?_append hn r)
            fun hnone => blockCommentRest?_local hv hnone r
        · exact .inl (by simp [comment?, hline, hblock])
    · exact .inl (by simp [comment?, hc])

theorem scriptString?_local (h : EndsAngle v) (r : List Char) :
    Local v.length r (scriptString? (v ++ r)) (scriptString? v) := by
  rcases v with - | ⟨c, v⟩
  · exact absurd rfl h.ne_nil
  · have hstring : ∀ {q : Char} {kind : TokenKind}, q ≠ '>' → (IsQuiet r → q ∉ r) → c = q →
        Local (c :: v).length r ((Expression.quotedLength? false q (v ++ r)).bind fun n => one kind (n + 1) .stay)
          ((Expression.quotedLength? false q v).bind fun n => one kind (n + 1) .stay) := by
      intro q kind hq hquiet hc
      have hv : v = [] ∨ EndsAngle v := by
        cases v with
        | nil => exact .inl rfl
        | cons d v => exact .inr h.tail
      exact Local.found 1 rfl hquiet (fun n hn => Expression.quotedLength?_append hn r)
        fun hnone => quotedLength?_local hv hq hnone r
    by_cases hdouble : c = '"'
    · subst hdouble
      exact hstring (by decide) (fun hr => hr.double) rfl
    · by_cases hsingle : c = '\''
      · subst hsingle
        exact hstring (by decide) (fun hr => hr.single) rfl
      · exact .inl (by simp [scriptString?, hdouble, hsingle])

theorem attributeString?_local (h : EndsAngle v) (r : List Char) :
    Local v.length r (attributeString? (v ++ r)) (attributeString? v) := by
  rcases v with - | ⟨c, v⟩
  · exact absurd rfl h.ne_nil
  · have hstring : ∀ {q : Char} {kind : TokenKind}, (IsQuiet r → q ∉ r) → Local (c :: v).length r
        (if (v ++ r).contains q then one kind (((v ++ r).takeWhile (· != q)).length + 2) .stay else none)
        (if v.contains q then one kind ((v.takeWhile (· != q)).length + 2) .stay else none) := by
      intro q kind hquiet
      -- the closing quote is before the angle, after it, or nowhere
      by_cases hv : q ∈ v
      · have hstop : ((v ++ r).takeWhile (· != q)) = v.takeWhile (· != q) := by
          obtain ⟨left, right, rfl, hl⟩ := List.eq_append_cons_of_mem hv
          have hleft : ∀ x ∈ left, (x != q) = true := fun x hx => bne_iff_ne.mpr fun he => hl (he ▸ hx)
          rw [List.append_assoc, List.takeWhile_append_of_pos hleft, List.takeWhile_append_of_pos hleft]
          simp
        rw [hstop]
        exact .inl (by simp [hv])
      · by_cases hr : q ∈ r
        · refine .inr ⟨?_, fun hq => absurd hr (hquiet hq)⟩
          have hall : ∀ x ∈ v, (x != q) = true := fun x hx => bne_iff_ne.mpr fun he => hv (he ▸ hx)
          rw [if_pos (by simp [hr]), List.takeWhile_append_of_pos hall, List.length_append]
          exact overruns_one (by rw [List.length_cons]; omega) (by simp)
        · exact .inl (by simp [hv, hr])
    by_cases hdouble : c = '"'
    · subst hdouble
      exact hstring fun hr => hr.double
    · by_cases hsingle : c = '\''
      · subst hsingle
        exact hstring fun hr => hr.single
      · exact .inl (by simp [attributeString?, hdouble, hsingle])

/-- Whether markup follows is seen before the angle. -/
theorem announced_local (h : EndsAngle v) {n : Nat} (hn : n < v.length) (r : List Char) :
    startsMarkup (((v ++ r).drop n).dropWhile Text.isSpace) = startsMarkup ((v.drop n).dropWhile Text.isSpace) := by
  obtain ⟨hdrop, hends⟩ := (h.drop hn).dropWhile (p := Text.isSpace) (by decide) r
  rw [List.drop_append_of_le_length (Nat.le_of_lt hn), hdrop, startsMarkup_local hends]

/-- A word that announces markup, and whether it does, is seen before the angle. -/
theorem word_local (h : EndsAngle v) {p : List Char} {n : Nat} (hn : p.length = n) (hp : '>' ∉ p) (r : List Char) :
    (p.isPrefixOf (v ++ r) && startsMarkup (((v ++ r).drop n).dropWhile Text.isSpace)) =
      (p.isPrefixOf v && startsMarkup ((v.drop n).dropWhile Text.isSpace)) := by
  obtain ⟨heq, hlt⟩ := isPrefixOf_local h hp r
  rw [heq, ← hn]
  cases hprefix : p.isPrefixOf v with
  | false => rfl
  | true => rw [announced_local h (hlt hprefix)]

theorem lead?_local (h : EndsAngle v) (before : Option Char) (r : List Char) :
    Local v.length r (lead? before (v ++ r)) (lead? before v) := by
  by_cases harrow : v = ['=', '>']
  · -- of all that announces markup, only an arrow can be the last before what follows
    subst harrow
    have hlead : ∀ cs, lead? before ('=' :: '>' :: cs) =
        if startsMarkup (cs.dropWhile Text.isSpace) then one .delimiter 2 (.enter .markup) else none := by
      intro cs
      have hangle : startsMarkup (('>' :: cs).dropWhile Text.isSpace) = false := by
        rw [List.dropWhile_cons_of_neg (by decide)]
        rfl
      cases hcs : startsMarkup (cs.dropWhile Text.isSpace) <;>
        simp [lead?, leadLength?, List.isPrefixOf, hangle, hcs]
    rw [List.cons_append, List.cons_append, List.nil_append, hlead, hlead]
    cases hr : startsMarkup (r.dropWhile Text.isSpace) with
    | false => exact .inl rfl
    | true =>
      refine .inr ⟨overruns_one (Nat.le_refl 2) (by simp), fun hquiet => ?_⟩
      rw [hquiet.markup] at hr
      cases hr
  · -- the words and marks are all seen before the angle, and so is what they announce
    have hreturn := word_local (p := "return".toList) (n := 6) h (by decide) (by decide) r
    have hyield := word_local (p := "yield".toList) (n := 5) h (by decide) (by decide) r
    have harrow : ("=>".toList.isPrefixOf (v ++ r) && startsMarkup (((v ++ r).drop 2).dropWhile Text.isSpace)) =
        ("=>".toList.isPrefixOf v && startsMarkup ((v.drop 2).dropWhile Text.isSpace)) := by
      rcases v with - | ⟨c, - | ⟨d, - | ⟨e, v⟩⟩⟩
      · exact absurd rfl h.ne_nil
      · rw [h.eq_of_singleton]
        rfl
      · have hd := h.tail.eq_of_singleton
        have hc : ('=' == c) = false := beq_false_of_ne fun hc => harrow (by rw [← hc, hd])
        simp [List.isPrefixOf, hc]
      · rw [announced_local h (n := 2) (by simp)]
        rfl
    have hmark : ((v ++ r).head?.any isLeadChar && startsMarkup (((v ++ r).drop 1).dropWhile Text.isSpace)) =
        (v.head?.any isLeadChar && startsMarkup ((v.drop 1).dropWhile Text.isSpace)) := by
      rcases v with - | ⟨c, - | ⟨d, v⟩⟩
      · exact absurd rfl h.ne_nil
      · rw [h.eq_of_singleton]
        rfl
      · rw [announced_local h (n := 1) (by simp)]
        rfl
    refine .inl ?_
    rw [lead?, lead?, leadLength?, leadLength?]
    simp only [Bool.and_assoc, hreturn, hyield, harrow, hmark]

theorem markup?_local (h : EndsAngle v) (r : List Char) : markup? (v ++ r) = markup? v := by
  rcases v with - | ⟨c, - | ⟨d, v⟩⟩
  · exact absurd rfl h.ne_nil
  · rw [h.eq_of_singleton]
    rfl
  · have hopening : openingTag? (c :: d :: v ++ r) = openingTag? (c :: d :: v) := by
      by_cases hc : c = '<'
      · subst hc
        have hname := @Text.nameLength?_local .tag _ h.tail r
        rw [List.cons_append] at hname
        rw [List.cons_append, List.cons_append, openingTag?, openingTag?, hname]
      · simp [openingTag?, hc]
    rw [markup?, markup?, hopening]
    rfl

/-- A closing tag ends before the angle, or with it. -/
theorem closingTagLength?_local (h : EndsAngle v) (r : List Char) :
    closingTagLength? (v ++ r) = closingTagLength? v := by
  rcases v with - | ⟨c, v⟩
  · exact absurd rfl h.ne_nil
  · by_cases hc : c = '<'
    · subst hc
      have hv : EndsAngle v := h.of_cons (by decide)
      have hlt := spaceLength_lt hv
      -- up to the slash
      simp only [List.cons_append, closingTagLength?, spaceLength_local hv,
        List.drop_append_of_le_length (Nat.le_of_lt hlt)]
      have hslash := hv.drop hlt
      generalize spaceLength v = a at hslash hlt ⊢
      generalize v.drop a = w at hslash ⊢
      rcases w with - | ⟨c, w⟩
      · exact absurd rfl hslash.ne_nil
      · by_cases hc : c = '/'
        · subst hc
          have hw : EndsAngle w := hslash.of_cons (by decide)
          -- the white space after it, the name and the white space after that all stop before the last angle
          have hspace := spaceLength_lt hw
          have hname := @Text.nameLength?_lt .tag _ (hw.drop hspace)
          rw [List.length_drop] at hname
          have hsum : spaceLength w + (Text.nameLength? .tag (w.drop (spaceLength w))).getD 0 < w.length := by
            omega
          have hend := spaceLength_lt (hw.drop hsum)
          rw [List.length_drop] at hend
          simp only [List.cons_append, spaceLength_local hw, List.drop_append_of_le_length (Nat.le_of_lt hspace),
            Text.nameLength?_local (hw.drop hspace), List.drop_append_of_le_length (Nat.le_of_lt hsum),
            spaceLength_local (hw.drop hsum)]
          rw [List.head?_drop, List.head?_drop, List.getElem?_append_left (by omega)]
        · simp [hc]
    · simp [closingTagLength?, hc]

theorem tag?_local (h : EndsAngle v) (r : List Char) : Local v.length r (tag? (v ++ r)) (tag? v) := by
  cases v with
  | nil => exact absurd rfl h.ne_nil
  | cons c v =>
    have hspace := spaceLength_local h r
    have hname : attrName? (c :: v ++ r) = attrName? (c :: v) := by
      rw [attrName?, attrName?, Text.nameLength?_local h]
    have hclose : "/>".toList.isPrefixOf (c :: v ++ r) = "/>".toList.isPrefixOf (c :: v) := by
      cases v with
      | nil =>
        rw [h.eq_of_singleton]
        rfl
      | cons d v => rfl
    have hstrings := (attributeString?_local h r).orElse (comment?_local h r)
    rw [List.cons_append] at hspace hname hclose hstrings
    rw [List.cons_append, tag?, tag?, hspace, hname, hclose]
    split
    · exact .inl rfl
    · split
      · exact .inl rfl
      · split
        · exact .inl rfl
        · split
          · exact .inl rfl
          · split
            · exact .inl rfl
            · exact Local.orElse (.inl rfl) hstrings

theorem content?_local (count : Nat) (h : EndsAngle v) (r : List Char) :
    Local v.length r (content? count (v ++ r)) (content? count v) := by
  cases v with
  | nil => exact absurd rfl h.ne_nil
  | cons c v =>
    have hclose := closingTagLength?_local h r
    have hmarkup := markup?_local h r
    have htext := Local.takeWhile .text (fun d => d != '<' && d != '\x7b') 0 (c :: v) r
    rw [List.cons_append] at hclose hmarkup htext
    rw [List.cons_append, content?, content?, hclose, hmarkup]
    split
    · exact .inl rfl
    · refine Local.orElse (.inl rfl) ?_
      split
      · exact .inl rfl
      · split
        · exact .inl rfl
        · exact htext

theorem literal?_local (h : EndsAngle v) (r : List Char) : Local v.length r (literal? (v ++ r)) (literal? v) := by
  have hhead : (v ++ r).head? = v.head? := by
    cases v with
    | nil => exact absurd rfl h.ne_nil
    | cons c v => rfl
  rw [literal?, literal?, hhead]
  exact (scriptString?_local h r).orElse (Local.orElse (.inl rfl) (comment?_local h r))

theorem expression?_local (closers : List Char) (before : Option Char) (h : EndsAngle v) (r : List Char) :
    Local v.length r (expression? closers before (v ++ r)) (expression? closers before v) := by
  cases v with
  | nil => exact absurd rfl h.ne_nil
  | cons c v =>
    have hlead := lead?_local h before r
    have hliteral := literal?_local h r
    rw [List.cons_append] at hlead hliteral
    rw [List.cons_append, expression?, expression?]
    split
    · exact .inl rfl
    · refine hlead.orElse ?_
      split
      · exact .inl rfl
      · split
        · exact .inl rfl
        · split
          · exact .inl rfl
          · exact hliteral

theorem template?_local (h : EndsAngle v) (r : List Char) : Local v.length r (template? (v ++ r)) (template? v) := by
  rcases v with - | ⟨c, - | ⟨d, v⟩⟩
  · exact absurd rfl h.ne_nil
  · rw [h.eq_of_singleton]
    have htext := Local.takeWhile .template (fun c => c != '`' && c != '\\' && c != '$') 0 ['>'] r
    simpa [template?] using htext
  · have htext := Local.takeWhile .template (fun c => c != '`' && c != '\\' && c != '$') 0 (c :: d :: v) r
    rw [List.cons_append, List.cons_append] at htext ⊢
    by_cases htick : c = '`'
    · subst htick
      exact .inl rfl
    · by_cases hdollar : c = '$'
      · subst hdollar
        by_cases hd : d = '\x7b'
        · subst hd
          exact .inl rfl
        · exact .inl (by simp [template?, hd])
      · by_cases hslash : c = '\\'
        · subst hslash
          exact .inl rfl
        · simpa [template?, htick, hdollar, hslash] using htext

/-- Every rule sees the same before the angle, or runs on over it. -/
theorem match?_local (mode : Mode) (atStart : Bool) (before : Option Char) (h : EndsAngle v) (r : List Char) :
    Local v.length r (match? mode atStart before (v ++ r)) (match? mode atStart before v) := by
  cases mode with
  | script =>
    refine Local.orElse ?_ ((lead?_local h before r).orElse (literal?_local h r))
    cases atStart with
    | false => exact .inl rfl
    | true =>
      have hlt := spaceLength_lt h
      rw [if_pos rfl, if_pos rfl, firstMarkup?, firstMarkup?, spaceLength_local h,
        List.drop_append_of_le_length (Nat.le_of_lt hlt), startsMarkup_local (h.drop hlt), markup?_local h]
      exact .inl rfl
  | markup =>
    refine .inl ?_
    rw [match?, match?, spaceLength_local h, markup?_local h]
  | tag => exact tag?_local h r
  | content => exact content?_local 2 h r
  | fragment => exact content?_local 1 h r
  | braces => exact expression?_local _ before h r
  | group => exact expression?_local _ before h r
  | template => exact template?_local h r

theorem settle_local (h : EndsAngle v) (r : List Char) (stack : List Mode) : settle (v ++ r) stack = settle v stack := by
  induction stack with
  | nil => rfl
  | cons mode stack ih =>
    have hmarkup : match? .markup false none (v ++ r) = match? .markup false none v := by
      rw [match?, match?, spaceLength_local h, markup?_local h]
    by_cases hmode : mode = .markup
    · subst hmode
      rw [settle, settle, hmarkup, ih]
    · have hcurrent : current (mode :: stack) ≠ .markup := hmode
      rw [Piece.Opened.settle_eq _ hcurrent, Piece.Opened.settle_eq _ hcurrent]

end Scan
end JsxEdit
