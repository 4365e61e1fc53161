import JsxEdit.Source.Scan

/-
What a match can be: the rules of all modes in one relation.

A match is a token that leaves the mode as it is, the start of a stretch, or the end of one. Of the text of a token the
relation says what later steps rely on: how quotes stand around the strings in a tag, what white space and comments
start with, how long a closing tag is at least, and that names are names from their first to their last character.
-/
set_option autoImplicit false

namespace JsxEdit.Scan

/-- Modes in which markup is announced: script text and expressions. -/
def isScript : Mode → Bool
  | .script | .braces | .group => true
  | _ => false

/-- What is known of a token that stands in a stretch of the mode. -/
def Fits (mode : Mode) (kind : TokenKind) (text : List Char) : Prop :=
  match mode with
  | .tag =>
    match kind with
    | .space | .comment => ∃ c rest, text = c :: rest ∧ c ≠ '"' ∧ c ≠ '\'' ∧ c ≠ '\x7b'
    | .equals => text = ['=']
    | .attrName => Text.nameLength? .attr text = some text.length
    | .doubleQuoted | .singleQuoted => ∃ q body, text = q :: body ++ [q] ∧ (q = '"' ∨ q = '\'')
    | .invalid => '>' ∉ text
    | _ => False
  | .content | .fragment => kind = .delimiter → 3 ≤ text.length
  | _ => True

/-- What a match in a mode can be, at the start of the given characters. -/
inductive Rule (mode : Mode) (cs : List Char) : Match → Prop where
  | token {kind : TokenKind} {n : Nat} (pos : 0 < n) (fits : Fits mode kind (cs.take n)) :
      Rule mode cs ⟨[(kind, n)], .stay⟩
  | announce {kind : TokenKind} {n : Nat} (pos : 0 < n) (script : isScript mode = true) :
      Rule mode cs ⟨[(kind, n)], .enter .markup⟩
  | fragment (text : cs.take 2 = ['<', '>']) (place : mode ≠ .tag) : Rule mode cs ⟨[(.delimiter, 2)], .enter .fragment⟩
  | tag {n : Nat} (text : cs.take 1 = ['<']) (place : mode ≠ .tag)
      (name : Text.nameLength? .tag ((cs.drop 1).take n) = some ((cs.drop 1).take n).length) :
      Rule mode cs ⟨[(.delimiter, 1), (.tagName, n)], .enter .tag⟩
  | content (text : cs.take 1 = ['>']) (place : mode = .tag) : Rule mode cs ⟨[(.delimiter, 1)], .enter .content⟩
  | braces (text : cs.take 1 = ['\x7b']) : Rule mode cs ⟨[(.delimiter, 1)], .enter .braces⟩
  | substitution (place : mode = .template) : Rule mode cs ⟨[(.delimiter, 2)], .enter .braces⟩
  | group (text : cs.take 1 ≠ ['\x7b']) (script : isScript mode = true) :
      Rule mode cs ⟨[(.delimiter, 1)], .enter .group⟩
  | template (text : cs.take 1 ≠ ['\x7b']) (script : isScript mode = true) :
      Rule mode cs ⟨[(.template, 1)], .enter .template⟩
  | selfClose (text : cs.take 2 = ['/', '>']) (place : mode = .tag) : Rule mode cs ⟨[(.delimiter, 2)], .leave 1⟩
  | closeElement {n : Nat} (pos : 0 < n) (fits : Fits .content .delimiter (cs.take n)) (place : mode = .content) :
      Rule mode cs ⟨[(.delimiter, n)], .leave 2⟩
  | closeFragment {n : Nat} (pos : 0 < n) (fits : Fits .fragment .delimiter (cs.take n)) (place : mode = .fragment) :
      Rule mode cs ⟨[(.delimiter, n)], .leave 1⟩
  | closeExpression {kind : TokenKind} (place : mode = .braces ∨ mode = .group ∨ mode = .template) :
      Rule mode cs ⟨[(kind, 1)], .leave 1⟩

/-- Every match takes something. -/
theorem Rule.length_pos {mode : Mode} {cs : List Char} {m : Match} (h : Rule mode cs m) : 0 < m.length := by
  cases h with
  | token pos => exact pos
  | announce pos => exact pos
  | closeElement pos => exact pos
  | closeFragment pos => exact pos
  | tag => exact Nat.lt_of_lt_of_le Nat.zero_lt_one (Nat.le_add_right 1 _)
  | closeExpression => exact Nat.zero_lt_one
  | _ => decide

/-! ## Literals and comments -/

theorem one_eq {kind : TokenKind} {n : Nat} {move : Move} {m : Match} (h : one kind n move = some m) :
    m = ⟨[(kind, n)], move⟩ := (Option.some.inj h).symm

theorem orElse_some {a b : Option Match} {m : Match} (h : (a <|> b) = some m) : a = some m ∨ b = some m := by
  cases a with
  | none => exact .inr h
  | some _ => exact .inl h

theorem comment?_spec {cs : List Char} {m : Match} (h : comment? cs = some m) :
    ∃ n rest, m = ⟨[(.comment, n + 2)], .stay⟩ ∧ cs = '/' :: rest := by
  unfold comment? at h
  split at h
  · exact ⟨_, _, one_eq h, rfl⟩
  · split at h
    · exact ⟨_, _, one_eq h, rfl⟩
    · cases h
  · cases h

theorem scriptString?_spec {cs : List Char} {m : Match} (h : scriptString? cs = some m) :
    ∃ kind n, m = ⟨[(kind, n + 1)], .stay⟩ := by
  unfold scriptString? at h
  split at h
  · obtain ⟨n, -, hn⟩ := Option.bind_eq_some_iff.mp h
    exact ⟨_, n, one_eq hn⟩
  · obtain ⟨n, -, hn⟩ := Option.bind_eq_some_iff.mp h
    exact ⟨_, n, one_eq hn⟩
  · cases h

theorem literal?_spec {cs : List Char} {m : Match} (h : literal? cs = some m) :
    (∃ kind n, m = ⟨[(kind, n + 1)], .stay⟩) ∨ (m = ⟨[(.template, 1)], .enter .template⟩ ∧ cs.head? = some '`') := by
  unfold literal? at h
  rcases orElse_some h with hs | h
  · exact .inl (scriptString?_spec hs)
  · rcases orElse_some h with ht | hc
    · split at ht
      · next htick => exact .inr ⟨one_eq ht, eq_of_beq htick⟩
      · cases ht
    · obtain ⟨n, -, rfl, -⟩ := comment?_spec hc
      exact .inl ⟨_, n + 1, rfl⟩

theorem leadLength?_pos {before : Option Char} {cs : List Char} {n : Nat} (h : leadLength? before cs = some n) :
    0 < n := by
  unfold leadLength? at h
  dsimp only at h
  repeat' split at h
  all_goals cases h
  all_goals decide

theorem nameLength?_pos {kind : Text.NameKind} {cs : List Char} {n : Nat} (h : Text.nameLength? kind cs = some n) :
    0 < n := by
  unfold Text.nameLength? at h
  split at h
  · cases h
  · split at h
    · cases h
      exact Nat.succ_pos _
    · cases h

theorem nameTail_cons {kind : Text.NameKind} {c : Char} (h : Text.isNamePart c = true) (cs : List Char) :
    Text.nameTail kind (c :: cs) = Text.nameTail kind cs + 1 := by
  cases cs with
  | nil => simp [Text.nameTail, h]
  | cons d cs => rw [Text.nameTail, if_pos h]

/-- A name goes on to the same character if nothing follows there. -/
theorem nameTail_take (kind : Text.NameKind) (cs : List Char) :
    Text.nameTail kind (cs.take (Text.nameTail kind cs)) = Text.nameTail kind cs ∧ Text.nameTail kind cs ≤ cs.length := by
  fun_induction Text.nameTail kind cs with
  | case1 => exact ⟨rfl, Nat.le_refl 0⟩
  | case2 c h => simp [Text.nameTail, h]
  | case3 c h => simp [Text.nameTail]
  | case4 c d cs h ih =>
    rw [List.take_succ_cons, nameTail_cons h, ih.1]
    exact ⟨rfl, Nat.succ_le_succ ih.2⟩
  | case5 c d cs h h' ih =>
    rw [List.take_succ_cons, List.take_succ_cons, Text.nameTail, if_neg h, if_pos h', ih.1]
    exact ⟨rfl, Nat.add_le_add_right ih.2 2⟩
  | case6 c d cs h h' => simp [Text.nameTail]

/-- What was read as a name is one from its first to its last character. -/
theorem nameLength?_take {kind : Text.NameKind} {cs : List Char} {n : Nat} (h : Text.nameLength? kind cs = some n) :
    Text.nameLength? kind (cs.take n) = some (cs.take n).length := by
  unfold Text.nameLength? at h
  split at h
  · cases h
  · next c cs =>
    split at h
    · next hc =>
      cases h
      obtain ⟨htake, hle⟩ := nameTail_take kind cs
      rw [List.take_succ_cons, Text.nameLength?, if_pos hc, htake, List.length_cons, List.length_take, Nat.min_eq_left hle]
    · cases h

/-- Up to the next quote of its kind there is a string. -/
theorem take_quoted {q : Char} {cs : List Char} (h : cs.contains q = true) :
    ∃ body, (q :: cs).take ((cs.takeWhile (· != q)).length + 2) = q :: body ++ [q] := by
  obtain ⟨left, right, rfl, hl⟩ := List.eq_append_cons_of_mem (List.contains_iff_mem.mp h)
  refine ⟨left, ?_⟩
  have hall : ∀ c ∈ left, (c != q) = true := by
    intro c hc
    exact bne_iff_ne.mpr fun he => hl (he ▸ hc)
  rw [List.takeWhile_append_of_pos hall, List.takeWhile_cons_of_neg (by simp), List.append_nil, List.take_succ_cons,
    List.take_length_add_append]
  rfl

theorem attributeString?_spec {cs : List Char} {m : Match} (h : attributeString? cs = some m) :
    ∃ kind n, m = ⟨[(kind, n + 2)], .stay⟩ ∧ Fits .tag kind (cs.take (n + 2)) := by
  unfold attributeString? at h
  split at h
  · split at h
    · next hq =>
      obtain ⟨body, hbody⟩ := take_quoted hq
      exact ⟨.doubleQuoted, _, one_eq h, _, body, hbody, .inl rfl⟩
    · cases h
  · split at h
    · next hq =>
      obtain ⟨body, hbody⟩ := take_quoted hq
      exact ⟨.singleQuoted, _, one_eq h, _, body, hbody, .inr rfl⟩
    · cases h
  · cases h

/-! ## Markup -/

theorem markup?_rule {mode : Mode} {cs : List Char} {m : Match} (place : mode ≠ .tag) (h : markup? cs = some m) :
    Rule mode cs m := by
  unfold markup? at h
  split at h
  · next hp =>
    obtain rfl := one_eq h
    obtain ⟨rest, rfl⟩ := List.isPrefixOf_iff_prefix.mp hp
    exact .fragment rfl place
  · unfold openingTag? at h
    split at h
    · obtain ⟨n, hn, rfl⟩ := Option.map_eq_some_iff.mp h
      exact .tag rfl place (nameLength?_take hn)
    · cases h

theorem spaceLength_pos {c : Char} {cs : List Char} (h : Text.isSpace c = true) : 0 < spaceLength (c :: cs) := by
  rw [spaceLength, List.takeWhile_cons_of_pos h]
  exact Nat.succ_pos _

theorem ne_of_isSpace {c d : Char} (h : Text.isSpace c = true) (hd : Text.isSpace d = false) : c ≠ d := by
  rintro rfl
  rw [h] at hd
  cases hd

/-- A closing tag has an angle on either side and a slash between them. -/
theorem closingTagLength?_spec {cs : List Char} {n : Nat} (h : closingTagLength? cs = some n) :
    3 ≤ n ∧ n ≤ cs.length := by
  unfold closingTagLength? at h
  split at h
  · next cs =>
    dsimp only at h
    split at h
    · next ds hd =>
      split at h
      · next hc =>
        cases h
        have hlen := congrArg List.length hd
        rw [List.length_drop, List.length_cons] at hlen
        have hpos : ∃ c, (ds.drop (spaceLength ds + (Text.nameLength? .tag (ds.drop (spaceLength ds))).getD 0 +
            spaceLength (ds.drop (spaceLength ds + (Text.nameLength? .tag (ds.drop (spaceLength ds))).getD 0)))).head? =
              some c := ⟨'>', by simpa using hc⟩
        obtain ⟨c, hc⟩ := hpos
        rw [List.head?_drop] at hc
        obtain ⟨hlt, -⟩ := List.getElem?_eq_some_iff.mp hc
        rw [List.length_cons]
        omega
      · cases h
    · cases h
  · cases h

theorem takeWhile_pos {p : Char → Bool} {c : Char} {cs : List Char} (h : p c = true) :
    0 < ((c :: cs).takeWhile p).length := by
  rw [List.takeWhile_cons_of_pos h]
  exact Nat.succ_pos _

theorem content?_rule {mode : Mode} {count : Nat} {cs : List Char} {m : Match}
    (place : mode = .content ∧ count = 2 ∨ mode = .fragment ∧ count = 1) (h : content? count cs = some m) :
    Rule mode cs m := by
  have hne : mode ≠ .tag := by rcases place with ⟨rfl, -⟩ | ⟨rfl, -⟩ <;> decide
  have hfits : ∀ {kind : TokenKind} {text : List Char}, (kind = .delimiter → 3 ≤ text.length) → Fits mode kind text := by
    rcases place with ⟨rfl, -⟩ | ⟨rfl, -⟩ <;> exact id
  unfold content? at h
  split at h
  · next n hn =>
    obtain rfl := one_eq h
    obtain ⟨h3, hle⟩ := closingTagLength?_spec hn
    have hlen : 3 ≤ (cs.take n).length := by
      rw [List.length_take]
      omega
    rcases place with ⟨rfl, rfl⟩ | ⟨rfl, rfl⟩
    · exact .closeElement (by omega) (fun _ => hlen) rfl
    · exact .closeFragment (by omega) (fun _ => hlen) rfl
  · rcases orElse_some h with hm | h
    · exact markup?_rule hne hm
    · split at h
      · cases h
      · next c rest =>
        split at h
        · next hc =>
          obtain rfl := one_eq h
          exact .braces (by rw [List.take_succ_cons, eq_of_beq hc]; rfl)
        · next hbrace =>
          split at h
          · obtain rfl := one_eq h
            exact .token Nat.zero_lt_one (hfits fun hk => by cases hk)
          · next hangle =>
            obtain rfl := one_eq h
            refine .token (takeWhile_pos ?_) (hfits fun hk => by cases hk)
            simp_all

/-! ## Script text and expressions -/

theorem lead?_rule {mode : Mode} {before : Option Char} {cs : List Char} {m : Match} (script : isScript mode = true)
    (h : lead? before cs = some m) : Rule mode cs m := by
  obtain ⟨n, hn, hm⟩ := Option.bind_eq_some_iff.mp h
  obtain rfl := one_eq hm
  exact .announce (leadLength?_pos hn) script

theorem fits_of_script {mode : Mode} (script : isScript mode = true) (kind : TokenKind) (text : List Char) :
    Fits mode kind text := by
  cases mode <;> first | exact trivial | cases script

theorem literal?_rule {mode : Mode} {cs : List Char} {m : Match} (script : isScript mode = true)
    (h : literal? cs = some m) : Rule mode cs m := by
  rcases literal?_spec h with ⟨kind, n, rfl⟩ | ⟨rfl, htick⟩
  · exact .token (Nat.succ_pos n) (fits_of_script script _ _)
  · obtain ⟨rest, rfl⟩ := List.head?_eq_some_iff.mp htick
    exact .template (show ['`'] ≠ ['\x7b'] by decide) script

theorem expression?_rule {mode : Mode} {closers : List Char} {before : Option Char} {cs : List Char} {m : Match}
    (place : mode = .braces ∨ mode = .group) (h : expression? closers before cs = some m) : Rule mode cs m := by
  have script : isScript mode = true := by rcases place with rfl | rfl <;> rfl
  unfold expression? at h
  split at h
  · cases h
  · next c rest =>
    split at h
    · obtain rfl := one_eq h
      exact .closeExpression (place.imp_right .inl)
    · rcases orElse_some h with hl | h
      · exact lead?_rule script hl
      · split at h
        · next hc =>
          obtain rfl := one_eq h
          exact .braces (by rw [List.take_succ_cons, eq_of_beq hc]; rfl)
        · next hbrace =>
          split at h
          · obtain rfl := one_eq h
            refine .group ?_ script
            rw [List.take_succ_cons]
            intro he
            exact hbrace (beq_iff_eq.mpr (List.cons.inj he).1)
          · split at h
            · obtain rfl := one_eq h
              exact .token Nat.zero_lt_one (fits_of_script script _ _)
            · exact literal?_rule script h

theorem template?_rule {cs : List Char} {m : Match} (h : template? cs = some m) : Rule .template cs m := by
  unfold template? at h
  split at h
  · cases h
  · obtain rfl := one_eq h
    exact .closeExpression (.inr (.inr rfl))
  · obtain rfl := one_eq h
    exact .substitution rfl
  · obtain rfl := one_eq h
    exact .token Nat.zero_lt_one trivial
  · cases h
  · obtain rfl := one_eq h
    exact .token Nat.zero_lt_two trivial
  · next hempty htick hdollar hdollar' hslash hslash' =>
    obtain rfl := one_eq h
    refine .token ?_ trivial
    cases cs with
    | nil => exact absurd rfl hempty
    | cons c cs =>
      apply takeWhile_pos
      have h1 : c ≠ '`' := fun hc => htick cs (by rw [hc])
      have h2 : c ≠ '$' := fun hc => hdollar' cs (by rw [hc])
      have h3 : c ≠ '\\' := by
        rintro rfl
        cases cs with
        | nil => exact hslash rfl
        | cons d ds => exact hslash' d ds rfl
      simp [h1, h2, h3]

theorem tag?_rule {cs : List Char} {m : Match} (h : tag? cs = some m) : Rule .tag cs m := by
  unfold tag? at h
  split at h
  · cases h
  · next c rest =>
    split at h
    · next hs =>
      obtain rfl := one_eq h
      refine .token (spaceLength_pos hs) ?_
      obtain ⟨n, hn⟩ := Nat.exists_eq_add_of_lt (@spaceLength_pos c rest hs)
      rw [hn, Nat.zero_add, List.take_succ_cons]
      exact ⟨c, _, rfl, ne_of_isSpace hs (by decide), ne_of_isSpace hs (by decide), ne_of_isSpace hs (by decide)⟩
    · split at h
      · next hp =>
        obtain rfl := one_eq h
        obtain ⟨more, hmore⟩ := List.isPrefixOf_iff_prefix.mp hp
        exact .selfClose (by rw [← hmore]; rfl) rfl
      · split at h
        · next hc =>
          obtain rfl := one_eq h
          exact .content (by rw [List.take_succ_cons, eq_of_beq hc]; rfl) rfl
        · split at h
          · next hc =>
            obtain rfl := one_eq h
            exact .token Nat.zero_lt_one (by rw [List.take_succ_cons, eq_of_beq hc]; rfl)
          · split at h
            · next hc =>
              obtain rfl := one_eq h
              exact .braces (by rw [List.take_succ_cons, eq_of_beq hc]; rfl)
            · rcases orElse_some h with ha | h
              · obtain ⟨n, hn, hm⟩ := Option.bind_eq_some_iff.mp ha
                obtain rfl := one_eq hm
                exact .token (nameLength?_pos hn) (nameLength?_take hn)
              · rcases orElse_some h with hs | hcom
                · obtain ⟨kind, n, rfl, hf⟩ := attributeString?_spec hs
                  exact .token (Nat.succ_pos _) hf
                · obtain ⟨n, more, rfl, hmore⟩ := comment?_spec hcom
                  refine .token (Nat.succ_pos _) ?_
                  rw [hmore, List.take_succ_cons]
                  exact ⟨'/', _, rfl, by decide⟩

/-- Every match is by a rule. -/
theorem rule_of_match {mode : Mode} {atStart : Bool} {before : Option Char} {cs : List Char} {m : Match}
    (h : match? mode atStart before cs = some m) : Rule mode cs m := by
  unfold match? at h
  split at h
  · rcases orElse_some h with hf | h
    · split at hf
      · unfold firstMarkup? at hf
        dsimp only at hf
        split at hf
        · next hn =>
          obtain rfl := one_eq hf
          rw [Bool.and_eq_true, decide_eq_true_eq] at hn
          exact .announce hn.1 rfl
        · exact markup?_rule (by decide) hf
      · cases hf
    · rcases orElse_some h with hl | h
      · exact lead?_rule rfl hl
      · exact literal?_rule rfl h
  · split at h
    · exact markup?_rule (by decide) h
    · next hs =>
      obtain rfl := one_eq h
      exact .token (Nat.pos_of_ne_zero (by simpa using hs)) trivial
  · exact tag?_rule h
  · exact content?_rule (.inl ⟨rfl, rfl⟩) h
  · exact content?_rule (.inr ⟨rfl, rfl⟩) h
  · exact expression?_rule (.inl rfl) h
  · exact expression?_rule (.inr rfl) h
  · exact template?_rule h

end JsxEdit.Scan
