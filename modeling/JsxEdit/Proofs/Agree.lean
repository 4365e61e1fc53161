import JsxEdit.Proofs.Kept

/-
The expressions between brackets are written as they were read, as far as `keeps` says.

What is written for a part is never longer than what was read. So the whole text is written as it was read exactly if
each part of it is, and the parts can be looked at one by one.
-/
set_option autoImplicit false

namespace JsxEdit

/-! ## Written and read -/

/-- The text written is no longer than the one read, and is the same exactly if that one is kept. -/
structure Agrees (written source : String) (kept : Bool) : Prop where
  le : written.length ≤ source.length
  iff : written = source ↔ kept = true

namespace Agrees

theorem refl (s : String) : Agrees s s true := ⟨Nat.le_refl _, iff_of_true rfl rfl⟩

/-- What is shorter is not the same. -/
theorem of_lt {w s : String} (h : w.length < s.length) : Agrees w s false :=
  ⟨Nat.le_of_lt h, iff_of_false (fun he => Nat.ne_of_lt h (congrArg String.length he)) (by decide)⟩

/-- Since neither part can be longer than what was read, both have to be the same. -/
theorem append {w₁ w₂ s₁ s₂ : String} {b₁ b₂ : Bool} (h₁ : Agrees w₁ s₁ b₁) (h₂ : Agrees w₂ s₂ b₂) :
    Agrees (w₁ ++ w₂) (s₁ ++ s₂) (b₁ && b₂) := by
  have hle₁ := h₁.le
  have hle₂ := h₂.le
  refine ⟨by rw [String.length_append, String.length_append]; omega, ?_⟩
  rw [Bool.and_eq_true, ← h₁.iff, ← h₂.iff]
  constructor
  · intro heq
    have hlen := congrArg String.length heq
    rw [String.length_append, String.length_append] at hlen
    have hchars := congrArg String.toList heq
    rw [String.toList_append, String.toList_append] at hchars
    obtain ⟨hl, hr⟩ := List.append_inj hchars (by rw [String.length_toList, String.length_toList]; omega)
    exact ⟨String.toList_inj.mp hl, String.toList_inj.mp hr⟩
  · rintro ⟨rfl, rfl⟩
    rfl

theorem cons {w s : String} {b : Bool} (t : String) (h : Agrees w s b) : Agrees (t ++ w) (t ++ s) b := by
  have h' := (refl t).append h
  rwa [Bool.true_and] at h'

theorem snoc {w s : String} {b : Bool} (t : String) (h : Agrees w s b) : Agrees (w ++ t) (s ++ t) b := by
  have h' := h.append (refl t)
  rwa [Bool.and_true] at h'

end Agrees

/-! ## White space around a text -/

namespace Text

/-- The white space before a first character that is none. -/
theorem takeWhile_isSpace {b : List Char} {c : Char} (rest : List Char) (hb : b.all isSpace = true)
    (hc : isSpace c = false) : (b ++ c :: rest).takeWhile isSpace = b := by
  rw [List.takeWhile_append_of_pos (List.all_eq_true.mp hb), List.takeWhile_cons_of_neg (by rw [hc]; decide),
    List.append_nil]

theorem dropWhile_isSpace {b : List Char} {c : Char} (rest : List Char) (hb : b.all isSpace = true)
    (hc : isSpace c = false) : (b ++ c :: rest).dropWhile isSpace = c :: rest := by
  rw [List.dropWhile_append_of_pos (List.all_eq_true.mp hb), List.dropWhile_cons_of_neg (by rw [hc]; decide)]

/-- Characters that neither start nor end with white space. -/
structure Solid (cs : List Char) : Prop where
  starts : ∃ c rest, cs = c :: rest ∧ isSpace c = false
  ends : ∃ d rest, cs = rest ++ [d] ∧ isSpace d = false

theorem exists_first {cs : List Char} (h : cs.all isSpace = false) :
    ∃ b c rest, cs = b ++ c :: rest ∧ b.all isSpace = true ∧ isSpace c = false := by
  induction cs with
  | nil => cases h
  | cons c cs ih =>
    cases hc : isSpace c with
    | false => exact ⟨[], c, cs, rfl, rfl, hc⟩
    | true =>
      rw [List.all_cons, hc, Bool.true_and] at h
      obtain ⟨b, d, rest, rfl, hb, hd⟩ := ih h
      exact ⟨c :: b, d, rest, rfl, by rw [List.all_cons, hc, hb]; rfl, hd⟩

/-- Characters that are not all white space have a solid core. -/
theorem exists_core {cs : List Char} (h : cs.all isSpace = false) :
    ∃ b core e, cs = b ++ core ++ e ∧ b.all isSpace = true ∧ e.all isSpace = true ∧ Solid core := by
  obtain ⟨b, c, rest, rfl, hb, hc⟩ := exists_first h
  have hnot : (c :: rest).reverse.all isSpace = false := by rw [List.all_reverse, List.all_cons, hc, Bool.false_and]
  obtain ⟨e, d, front, heq, he, hd⟩ := exists_first hnot
  have hrest : c :: rest = front.reverse ++ [d] ++ e.reverse := by
    rw [← List.reverse_reverse (c :: rest), heq]
    simp
  refine ⟨b, front.reverse ++ [d], e.reverse, by rw [hrest]; simp, hb, by rw [List.all_reverse]; exact he, ?_, ?_⟩
  · cases hfront : front.reverse with
    | nil =>
      rw [hfront] at hrest
      exact ⟨d, [], rfl, hd⟩
    | cons c' front' =>
      rw [hfront] at hrest
      obtain ⟨rfl, -⟩ := List.cons.inj hrest
      exact ⟨c, _, rfl, hc⟩
  · exact ⟨d, _, rfl, hd⟩

variable {b core e : List Char}

theorem lead_of_solid (hb : b.all isSpace = true) (h : Solid core) :
    lead (.ofList (b ++ core ++ e)) = .ofList b := by
  obtain ⟨c, rest, rfl, hc⟩ := h.starts
  rw [lead, String.toList_ofList, List.append_assoc, List.cons_append, takeWhile_isSpace _ hb hc]

theorem trail_of_solid (he : e.all isSpace = true) (h : Solid core) :
    trail (.ofList (b ++ core ++ e)) = .ofList e := by
  obtain ⟨d, rest, rfl, hd⟩ := h.ends
  have hrev : (b ++ (rest ++ [d]) ++ e).reverse = e.reverse ++ d :: (b ++ rest).reverse := by simp
  rw [trail, String.toList_ofList, hrev, takeWhile_isSpace _ (by rwa [List.all_reverse]) hd, List.reverse_reverse]

theorem trim_of_solid (hb : b.all isSpace = true) (he : e.all isSpace = true) (h : Solid core) :
    trim (.ofList (b ++ core ++ e)) = .ofList core := by
  obtain ⟨c, rest, hcore, hc⟩ := h.starts
  obtain ⟨d, front, hcore', hd⟩ := h.ends
  have hstart : (b ++ core ++ e).dropWhile isSpace = core ++ e := by
    rw [hcore, List.append_assoc, List.cons_append, dropWhile_isSpace _ hb hc]
  have hrev : (core ++ e).reverse = e.reverse ++ d :: front.reverse := by rw [hcore']; simp
  rw [trim, trimEnd, trimStart, String.toList_ofList, String.toList_ofList, hstart, hrev,
    dropWhile_isSpace _ (by rwa [List.all_reverse]) hd, List.reverse_cons, List.reverse_reverse, hcore']

/-- A text that is not blank is its core with white space around it. -/
theorem lead_append_trim_append_trail {s : String} (h : isBlank s = false) : lead s ++ trim s ++ trail s = s := by
  obtain ⟨b, core, e, hs, hb, he, hcore⟩ := exists_core h
  have hs' : s = .ofList (b ++ core ++ e) := by rw [← hs, String.ofList_toList]
  rw [hs', lead_of_solid hb hcore, trim_of_solid hb he hcore, trail_of_solid he hcore, ← String.ofList_append,
    ← String.ofList_append]

theorem length_trim_le (s : String) : (trim s).length ≤ s.length := by
  have hstart := congrArg String.length (lead_append_trimStart s)
  have hend := congrArg String.length (trimEnd_append_trail (trimStart s))
  rw [String.length_append] at hstart hend
  rw [trim]
  omega

/-! ## First, last and inner characters -/

theorem first_append_inner {s : String} {c d : Char} {mid : List Char} (h : s.toList = c :: (mid ++ [d])) :
    first s = .ofList [c] ∧ inner s = .ofList mid := by
  refine ⟨by rw [first, h]; rfl, ?_⟩
  rw [inner, h, List.drop_succ_cons, List.drop_zero, List.dropLast_concat]

end Text

/-! ## Simple expressions -/

namespace Expression

/-- A quoted literal ends with its quote. -/
theorem quotedLength?_eq_some {lineFeeds : Bool} {quote : Char} {cs : List Char} {n : Nat}
    (h : quotedLength? lineFeeds quote cs = some n) : ∃ body rest, cs = body ++ quote :: rest ∧ n = body.length + 1 := by
  fun_induction quotedLength? lineFeeds quote cs generalizing n with
  | case1 => cases h
  | case2 c hc =>
    cases h
    exact ⟨[], [], by rw [eq_of_beq hc]; rfl, rfl⟩
  | case3 => cases h
  | case4 c d cs hc =>
    cases h
    exact ⟨[], d :: cs, by rw [eq_of_beq hc]; rfl, rfl⟩
  | case5 => cases h
  | case6 c d cs _ _ _ ih =>
    obtain ⟨k, hk, rfl⟩ := Option.map_eq_some_iff.mp h
    obtain ⟨body, rest, rfl, rfl⟩ := ih hk
    exact ⟨c :: d :: body, rest, rfl, rfl⟩
  | case7 => cases h
  | case8 c d cs _ _ _ ih =>
    obtain ⟨k, hk, rfl⟩ := Option.map_eq_some_iff.mp h
    obtain ⟨body, rest, heq, rfl⟩ := ih hk
    exact ⟨c :: body, rest, by rw [heq]; rfl, rfl⟩

/-- A template literal ends with its tick. -/
theorem eq_append_of_templateRest {cs : List Char} (h : templateRest cs = true) : ∃ body, cs = body ++ ['`'] := by
  fun_induction templateRest cs with
  | case1 => cases h
  | case2 c => exact ⟨[], by rw [eq_of_beq h]; rfl⟩
  | case3 => cases h
  | case4 c d cs _ _ ih =>
    obtain ⟨body, rfl⟩ := ih h
    exact ⟨c :: d :: body, rfl⟩
  | case5 => cases h
  | case6 c d cs _ _ _ ih =>
    obtain ⟨body, heq⟩ := ih h
    exact ⟨c :: body, by rw [heq]; rfl⟩

/-- A node without attributes and children is written as its kind says. -/
theorem write_leaf (k : Kind) : (Node.new k []).write = k.opening ++ k.tagEnd ++ k.closing := by
  cases k <;> simp [Node.new, Node.write, Node.writeAll, Node.writeItems, Kind.tagEnd]

theorem write_word {k : Kind} {text : String} (hopen : k.opening = text) (hend : k.tagEnd = "") (hclose : k.closing = "") :
    (Node.new k []).write = text := by
  rw [write_leaf, hopen, hend, hclose, String.append_empty, String.append_empty]

theorem write_script (text : String) : (script text).write = text := by
  simp [script, Node.code, Node.new, Node.write, Node.writeAll, Kind.opening, Kind.closing]

/-- A text between two characters is that of a string exactly if both are the same quote. -/
theorem string_agrees {text : String} {c d : Char} {mid : List Char} (h : text.toList = c :: (mid ++ [d])) :
    Agrees (Node.new (.string (Text.inner text) (Text.first text)) []).write text (d == c) := by
  obtain ⟨hfirst, hinner⟩ := Text.first_append_inner h
  have htext : text = .ofList (c :: (mid ++ [d])) := by rw [← h, String.ofList_toList]
  rw [write_word rfl rfl rfl, Kind.opening, hfirst, hinner, ← String.ofList_append, ← String.ofList_append, htext]
  refine ⟨by simp, ?_⟩
  rw [String.ofList_inj, beq_iff_eq]
  simp [eq_comm]

theorem startsWithDouble_spec {cs : List Char} (h : startsWithDouble cs = true) :
    ∃ mid d, cs = '"' :: (mid ++ [d]) := by
  unfold startsWithDouble at h
  split at h
  · next cs =>
    obtain ⟨n, hn⟩ := Option.isSome_iff_exists.mp h
    obtain ⟨body, rest, rfl, -⟩ := quotedLength?_eq_some hn
    have hne : body ++ '"' :: rest ≠ [] := by simp
    exact ⟨_, _, congrArg ('"' :: ·) (List.dropLast_concat_getLast hne).symm⟩
  · cases h

theorem isSingle_spec {cs : List Char} (h : isSingle cs = true) : ∃ mid, cs = '\'' :: (mid ++ ['\'']) := by
  unfold isSingle at h
  split at h
  · next cs =>
    obtain ⟨body, rest, rfl, hlen⟩ := quotedLength?_eq_some (eq_of_beq h)
    have hrest : rest = [] := by
      rw [List.length_append, List.length_cons] at hlen
      exact List.length_eq_zero_iff.mp (by omega)
    exact ⟨body, by rw [hrest]⟩
  · cases h

theorem isTemplate_spec {cs : List Char} (h : isTemplate cs = true) : ∃ body, cs = '`' :: (body ++ ['`']) := by
  unfold isTemplate at h
  split at h
  · obtain ⟨body, rfl⟩ := eq_append_of_templateRest h
    exact ⟨body, rfl⟩
  · cases h

/-- The node for the text of an expression without white space around it. -/
def plain (text : String) : Node :=
  match kind? text with
  | some k => .new k []
  | none => script text

theorem ofText_eq (text : String) : ofText text = plain (Text.trim text) := by
  unfold ofText plain
  cases hkind : kind? (Text.trim text) with
  | none => simp only [hkind]
  | some k => simp only [hkind]

/-- What starts with `true` is taken for a truth value. -/
theorem plain_of_true {text : String} (h : "true".toList.isPrefixOf text.toList = true) :
    Agrees (plain text).write text (text == "true") := by
  have hplain : plain text = .new (.boolean (text == "true")) [] := by
    unfold plain kind?
    dsimp only
    rw [h, Bool.true_or, if_pos rfl]
  rw [hplain]
  cases heq : text == "true" with
  | true =>
    rw [eq_of_beq heq]
    exact .refl _
  | false =>
    obtain ⟨rest, hrest⟩ := List.isPrefixOf_iff_prefix.mp h
    have hne : rest ≠ [] := by
      rintro rfl
      rw [List.append_nil] at hrest
      rw [← String.toList_inj.mp hrest] at heq
      cases heq
    have hwrite : (Node.new (.boolean false) []).write = "false" := rfl
    rw [hwrite]
    refine ⟨?_, iff_of_false ?_ (by decide)⟩
    · have hpos := List.length_pos_iff.mpr hne
      have hlen := congrArg List.length hrest
      rw [List.length_append, @String.length_toList text] at hlen
      rw [← hlen]
      exact Nat.add_le_add_left hpos 4
    · intro hfalse
      rw [← hfalse] at hrest
      cases hrest

/-- What starts with a string in double quotes is no simple expression of another kind. -/
theorem plain_of_double {text : String} (htrue : "true".toList.isPrefixOf text.toList = false)
    (h : startsWithDouble text.toList = true) :
    plain text = .new (.string (Text.inner text) (Text.first text)) [] := by
  obtain ⟨mid, d, hmid⟩ := startsWithDouble_spec h
  have hne : ∀ {s : String}, s.toList.head? ≠ some '"' → (text == s) = false := by
    intro s hs
    refine beq_false_of_ne fun he => hs ?_
    rw [← he, hmid]
    rfl
  unfold plain kind?
  dsimp only
  rw [htrue, Bool.false_or, hne (by decide), if_neg (by decide), hne (by decide), if_neg (by decide), h,
    Bool.true_or, if_pos rfl]
  rw [hmid]
  rfl

/-- The other simple expressions are recognised by the whole of their text. -/
theorem write_kind {text : String} {k : Kind} (htrue : "true".toList.isPrefixOf text.toList = false)
    (hdouble : startsWithDouble text.toList = false) (h : kind? text = some k) : (Node.new k []).write = text := by
  unfold kind? at h
  dsimp only at h
  rw [htrue, hdouble, Bool.false_or, Bool.false_or] at h
  split at h
  · next hfalse =>
    rw [eq_of_beq hfalse] at h ⊢
    obtain rfl := Option.some.inj h
    rfl
  · split at h
    · next hnull =>
      obtain rfl := Option.some.inj h
      rw [eq_of_beq hnull]
      rfl
    · split at h
      · obtain rfl := Option.some.inj h
        exact write_word rfl rfl rfl
      · split at h
        · obtain rfl := Option.some.inj h
          exact write_word rfl rfl rfl
        · split at h
          · obtain rfl := Option.some.inj h
            exact write_word rfl rfl rfl
          · split at h
            · next hsingle =>
              obtain rfl := Option.some.inj h
              obtain ⟨mid, hmid⟩ := isSingle_spec hsingle
              exact (string_agrees hmid).iff.mpr rfl
            · split at h
              · next htick =>
                obtain rfl := Option.some.inj h
                obtain ⟨body, hbody⟩ := isTemplate_spec htick
                obtain ⟨-, hinner⟩ := Text.first_append_inner hbody
                rw [write_word rfl rfl rfl, Kind.opening, hinner, ← String.toList_inj, hbody]
                simp
              · cases h

/-- An expression is written as it was read, apart from the two forms that are recognised by their beginning. -/
theorem plain_agrees (text : String) : Agrees (plain text).write text (keeps text) := by
  unfold keeps
  dsimp only
  cases htrue : "true".toList.isPrefixOf text.toList with
  | true => exact plain_of_true htrue
  | false =>
    cases hdouble : startsWithDouble text.toList with
    | true =>
      obtain ⟨mid, d, hmid⟩ := startsWithDouble_spec hdouble
      have hlast : text.toList.getLast? = some d := by
        rw [hmid, ← List.cons_append, List.getLast?_concat]
      rw [plain_of_double htrue hdouble, hlast]
      exact string_agrees hmid
    | false =>
      have hwrite : (plain text).write = text := by
        unfold plain
        split
        · next k hk => exact write_kind htrue hdouble hk
        · exact write_script text
      rw [hwrite]
      exact .refl text

theorem ofText_agrees (text : String) : Agrees (ofText text).write (Text.trim text) (keeps (Text.trim text)) := by
  rw [ofText_eq]
  exact plain_agrees _

end Expression
end JsxEdit
