import JsxEdit.Proofs.Locality
import JsxEdit.Proofs.Written

/-
Runs of the scanner over a piece of markup, up to where all modes that it opened are left.

`closesAfter?` follows the scanner and counts the characters up to that place. What is read up to there depends on nothing
around it: neither on the modes that were open before, nor on the text that follows.
-/
set_option autoImplicit false

namespace JsxEdit.Scan

/-! ## Modes opened by markup -/

/-- Modes that were opened by a tag or a fragment, innermost first. The content of an element stands over its tag. -/
inductive Nested : List Mode → Prop where
  | tag : Nested [.tag]
  | fragment : Nested [.fragment]
  | content {stack : List Mode} (below : Nested (.tag :: stack)) : Nested (.content :: .tag :: stack)
  | inside {mode : Mode} {stack : List Mode} (place : mode ≠ .content ∧ mode ≠ .script) (below : Nested stack) :
      Nested (mode :: stack)

namespace Nested

variable {stack : List Mode}

theorem ne_nil (h : Nested stack) : stack ≠ [] := by
  rintro rfl
  cases h

theorem current_append (h : Nested stack) (around : List Mode) : current (stack ++ around) = current stack := by
  cases stack with
  | nil => exact absurd rfl h.ne_nil
  | cons mode stack => rfl

theorem current_ne_script (h : Nested stack) : current stack ≠ .script := by
  cases h with
  | tag => decide
  | fragment => decide
  | content => simp [current]
  | inside place => exact place.2

/-- The modes around an opening tag are none, or they were opened by markup too. -/
theorem of_tag (h : Nested (.tag :: stack)) : stack = [] ∨ Nested stack := by
  cases h with
  | tag => exact .inl rfl
  | inside _ below => exact .inr below

theorem settled (h : Nested stack) (cs : List Char) : Nested (settle cs stack) := by
  induction h with
  | tag => exact .tag
  | fragment => exact .fragment
  | content below => exact .content below
  | @inside mode stack place below ih =>
    by_cases hmode : mode = .markup
    · subst hmode
      rw [settle]
      split
      · exact .inside place below
      · exact ih
    · have hcurrent : current (mode :: stack) ≠ .markup := hmode
      rw [Piece.Opened.settle_eq cs hcurrent]
      exact .inside place below

theorem settle_append (h : Nested stack) (cs : List Char) (around : List Mode) :
    settle cs (stack ++ around) = settle cs stack ++ around := by
  induction h with
  | tag => rfl
  | fragment => rfl
  | content below => rfl
  | @inside mode stack place below ih =>
    by_cases hmode : mode = .markup
    · subst hmode
      rw [List.cons_append, settle, settle, ih]
      split <;> rfl
    · have hcurrent : current (mode :: stack) ≠ .markup := hmode
      have hcurrent' : current (mode :: stack ++ around) ≠ .markup := hmode
      rw [Piece.Opened.settle_eq cs hcurrent, Piece.Opened.settle_eq cs hcurrent']

/-- Leaving the innermost mode leaves none, or modes that were opened by markup. -/
theorem drop_one (h : Nested stack) (hne : current stack ≠ .content) : stack.drop 1 = [] ∨ Nested (stack.drop 1) := by
  cases h with
  | tag => exact .inl rfl
  | fragment => exact .inl rfl
  | content => exact absurd rfl hne
  | inside place below => exact .inr below

/-- A match leaves the modes around alone. -/
theorem step {cs : List Char} {m : Match} (h : Nested stack) (rule : Rule (current stack) cs m) :
    (m.move.apply stack = [] ∨ Nested (m.move.apply stack)) ∧
      ∀ around, m.move.apply (stack ++ around) = m.move.apply stack ++ around := by
  have henter : ∀ {mode : Mode}, mode ≠ .content ∧ mode ≠ .script → (Move.enter mode).apply stack = [] ∨
      Nested ((Move.enter mode).apply stack) := fun place => .inr (.inside place h)
  have hleave : current stack ≠ .content → ((Move.leave 1).apply stack = [] ∨ Nested ((Move.leave 1).apply stack)) ∧
      ∀ around, (Move.leave 1).apply (stack ++ around) = (Move.leave 1).apply stack ++ around := by
    intro hne
    refine ⟨h.drop_one hne, fun around => ?_⟩
    exact List.drop_append_of_le_length (List.length_pos_iff.mpr h.ne_nil)
  cases rule with
  | token => exact ⟨.inr h, fun _ => rfl⟩
  | announce => exact ⟨henter (by decide), fun _ => rfl⟩
  | fragment => exact ⟨henter (by decide), fun _ => rfl⟩
  | tag => exact ⟨henter (by decide), fun _ => rfl⟩
  | content text place =>
    -- the content stands over the tag that it belongs to
    refine ⟨.inr ?_, fun _ => rfl⟩
    cases stack with
    | nil => cases place
    | cons mode stack =>
      obtain rfl : mode = .tag := place
      exact .content h
  | braces => exact ⟨henter (by decide), fun _ => rfl⟩
  | substitution => exact ⟨henter (by decide), fun _ => rfl⟩
  | group => exact ⟨henter (by decide), fun _ => rfl⟩
  | template => exact ⟨henter (by decide), fun _ => rfl⟩
  | selfClose text place => exact hleave (by rw [place]; decide)
  | closeElement pos fits place =>
    -- two modes are left: the content and the tag below it
    cases h with
    | tag => cases place
    | fragment => cases place
    | content below => exact ⟨below.of_tag, fun _ => rfl⟩
    | inside place' => exact absurd place place'.1
  | closeFragment pos fits place => exact hleave (by rw [place]; decide)
  | closeExpression place => exact hleave (by rcases place with place | place | place <;> rw [place] <;> decide)

end Nested

/-! ## Closing tags -/

theorem take_spaceLength (cs : List Char) : cs.take (spaceLength cs) = cs.takeWhile Text.isSpace :=
  (List.prefix_iff_eq_take.mp (List.takeWhile_prefix _)).symm

/-- A character that is in no closing tag but at its start and its end. -/
structure OutsideTags (d : Char) : Prop where
  name : Text.EndsName d
  space : Text.isSpace d = false
  slash : d ≠ '/'

theorem outsideTags_angle : OutsideTags '<' := ⟨⟨by decide, by decide, by decide, by decide⟩, by decide, by decide⟩

section

variable {d : Char} (hd : OutsideTags d)

include hd

theorem not_mem_take_nameTail {kind : Text.NameKind} (cs : List Char) : d ∉ cs.take (Text.nameTail kind cs) := by
  have hpart : ∀ {c : Char}, Text.isNamePart c = true → d ≠ c := by
    rintro c hc rfl
    rw [hd.name.1] at hc
    cases hc
  fun_induction Text.nameTail kind cs with
  | case1 => exact List.not_mem_nil
  | case2 c hc => simpa using hpart hc
  | case3 c hc => exact List.not_mem_nil
  | case4 c e cs hc ih =>
    rw [List.take_succ_cons]
    exact List.not_mem_cons_of_ne_of_not_mem (hpart hc) ih
  | case5 c e cs hc hdivides ih =>
    rw [Bool.and_eq_true] at hdivides
    have hdivider : d ≠ c := by
      rintro rfl
      rw [hd.name.divides] at hdivides
      cases hdivides.1
    rw [List.take_succ_cons, List.take_succ_cons]
    exact List.not_mem_cons_of_ne_of_not_mem hdivider (List.not_mem_cons_of_ne_of_not_mem (hpart hdivides.2) ih)
  | case6 c e cs hc hdivides => exact List.not_mem_nil

theorem not_mem_take_nameLength? {kind : Text.NameKind} (cs : List Char) :
    d ∉ cs.take ((Text.nameLength? kind cs).getD 0) := by
  cases cs with
  | nil => exact List.not_mem_nil
  | cons c cs =>
    rw [Text.nameLength?]
    split
    · next hc =>
      have hne : d ≠ c := by
        rintro rfl
        cases hd.name.1.symm.trans (Text.isNamePart_of_isNameStart hc)
      exact List.not_mem_cons_of_ne_of_not_mem hne (not_mem_take_nameTail hd cs)
    · exact List.not_mem_nil

theorem not_mem_take_spaceLength (cs : List Char) : d ∉ cs.take (spaceLength cs) := by
  intro hmem
  rw [take_spaceLength] at hmem
  have hspace : Text.isSpace d = true := List.all_eq_true.mp List.all_takeWhile d hmem
  rw [hd.space] at hspace
  cases hspace

end

/-- A closing tag is white space, a slash and a name between its angles. -/
theorem closingTagLength?_text {cs : List Char} {n : Nat} (h : closingTagLength? cs = some n) :
    ∃ body, cs.take n = '<' :: body ++ ['>'] ∧ ∀ d, OutsideTags d → d ∉ body := by
  unfold closingTagLength? at h
  split at h
  · next cs =>
    dsimp only at h
    split at h
    · next ds hslash =>
      split at h
      · next hend =>
        cases h
        -- white space, the slash, white space, the name if there is one, white space, and the angle
        have hcs : cs = cs.take (spaceLength cs) ++ '/' :: ds := by rw [← hslash, List.take_append_drop]
        generalize hb : spaceLength ds = b at hend ⊢
        generalize hk : (Text.nameLength? .tag (ds.drop b)).getD 0 = k at hend ⊢
        generalize hc : spaceLength (ds.drop (b + k)) = c at hend ⊢
        obtain ⟨rest, hrest⟩ := List.head?_eq_some_iff.mp (eq_of_beq hend)
        have hds : ds = ds.take (b + k + c) ++ '>' :: rest := by rw [← hrest, List.take_append_drop]
        have hbody : ∀ d, OutsideTags d → d ∉ ds.take (b + k + c) := by
          intro d hd
          have hspace := not_mem_take_spaceLength hd ds
          have hname := @not_mem_take_nameLength? d hd .tag (ds.drop b)
          have hspace' := not_mem_take_spaceLength hd (ds.drop (b + k))
          rw [hb] at hspace
          rw [hk] at hname
          rw [hc] at hspace'
          rw [List.take_add, List.take_add, List.mem_append, List.mem_append, not_or, not_or]
          exact ⟨⟨hspace, hname⟩, hspace'⟩
        refine ⟨cs.take (spaceLength cs) ++ '/' :: ds.take (b + k + c), ?_, ?_⟩
        · have hlength := congrArg List.length hrest
          have hlength' := congrArg List.length hslash
          rw [List.length_drop, List.length_cons] at hlength hlength'
          have htext : '<' :: cs = '<' :: (cs.take (spaceLength cs) ++ '/' :: ds.take (b + k + c)) ++ ['>'] ++ rest := by
            rw [List.cons_append, List.cons_append, List.append_assoc, List.singleton_append, List.append_assoc,
              List.cons_append, ← hds, ← hcs]
          have hn : ('<' :: (cs.take (spaceLength cs) ++ '/' :: ds.take (b + k + c)) ++ ['>']).length =
              spaceLength cs + b + k + c + 3 := by
            simp only [List.length_append, List.length_cons, List.length_nil, List.length_take]
            omega
          generalize spaceLength cs = a at htext hn ⊢
          rw [htext]
          exact List.take_left' hn
        · intro d hd
          rw [List.mem_append, not_or]
          exact ⟨not_mem_take_spaceLength hd cs, List.not_mem_cons_of_ne_of_not_mem hd.slash (hbody d hd)⟩
      · cases h
    · cases h
  · cases h

theorem closingTagLength?_endsAngle {cs : List Char} {n : Nat} (h : closingTagLength? cs = some n) :
    EndsAngle (cs.take n) := by
  obtain ⟨body, hbody, -⟩ := closingTagLength?_text h
  rw [hbody]
  exact List.getLast?_concat

/-- What opens markup. -/
theorem markup?_cases {cs : List Char} {m : Match} (h : markup? cs = some m) : ∃ rest, cs = '<' :: rest ∧
    (m = ⟨[(.delimiter, 2)], .enter .fragment⟩ ∨ ∃ n, m = ⟨[(.delimiter, 1), (.tagName, n)], .enter .tag⟩) := by
  unfold markup? at h
  split at h
  · next hprefix =>
    obtain ⟨rest, rfl⟩ := List.isPrefixOf_iff_prefix.mp hprefix
    exact ⟨_, rfl, .inl (one_eq h)⟩
  · unfold openingTag? at h
    split at h
    · obtain ⟨n, -, rfl⟩ := Option.map_eq_some_iff.mp h
      exact ⟨_, rfl, .inr ⟨n, rfl⟩⟩
    · cases h

/-- The mode that markup opens. -/
theorem markup?_move {cs : List Char} {m : Match} (h : markup? cs = some m) : ∃ mode, m.move = .enter mode := by
  obtain ⟨rest, -, rfl | ⟨n, rfl⟩⟩ := markup?_cases h
  · exact ⟨.fragment, rfl⟩
  · exact ⟨.tag, rfl⟩

theorem nested_of_markup? {cs : List Char} {m : Match} {mode : Mode} (h : markup? cs = some m)
    (hmove : m.move = .enter mode) : (mode = .tag ∨ mode = .fragment) ∧ Nested [mode] := by
  obtain ⟨rest, -, rfl | ⟨n, rfl⟩⟩ := markup?_cases h
  · cases hmove
    exact ⟨.inr rfl, .fragment⟩
  · cases hmove
    exact ⟨.inl rfl, .tag⟩

/-- What there is between tags: a closing tag, markup, an expression, an angle that is nothing of these, or text. -/
theorem content?_cases {count : Nat} {cs : List Char} {m : Match} (h : content? count cs = some m) :
    (∃ n, closingTagLength? cs = some n ∧ m = ⟨[(.delimiter, n)], .leave count⟩) ∨
    markup? cs = some m ∨
    (∃ rest, cs = '\x7b' :: rest ∧ m = ⟨[(.delimiter, 1)], .enter .braces⟩) ∨
    m = ⟨[(.invalid, 1)], .stay⟩ ∨
    m = ⟨[(.text, (cs.takeWhile fun d => d != '<' && d != '\x7b').length)], .stay⟩ := by
  unfold content? at h
  split at h
  · next n hn => exact .inl ⟨n, hn, one_eq h⟩
  · rcases orElse_some h with hmarkup | h
    · exact .inr (.inl hmarkup)
    · split at h
      · cases h
      · split at h
        · next hc => exact .inr (.inr (.inl ⟨_, by rw [eq_of_beq hc], one_eq h⟩))
        · split at h
          · exact .inr (.inr (.inr (.inl (one_eq h))))
          · exact .inr (.inr (.inr (.inr (one_eq h))))

/-- Only a closing tag leaves a mode between tags. -/
theorem content?_leave {count k : Nat} {cs : List Char} {m : Match} (h : content? count cs = some m)
    (hm : m.move = .leave k) : closingTagLength? cs = some m.length := by
  rcases content?_cases h with ⟨n, hn, rfl⟩ | hmarkup | ⟨rest, -, rfl⟩ | rfl | rfl
  · exact hn
  · obtain ⟨rest, -, rfl | ⟨n, rfl⟩⟩ := markup?_cases hmarkup <;> cases hm
  · cases hm
  · cases hm
  · cases hm

/-! ## Where markup ends -/

/-- How many characters there are up to where all of the modes are left. The first `skip` characters belong to a match
already made. -/
def closesAfter? (stack : List Mode) (before : Option Char) (skip : Nat) : List Char → Option Nat
  | [] => none
  | c :: cs =>
    match skip with
    | skip + 1 => (closesAfter? stack (some c) skip cs).map (· + 1)
    | 0 =>
      let stack := settle (c :: cs) stack
      match match? (current stack) false before (c :: cs) with
      | some m =>
        if m.move.apply stack = [] then some m.length
        else (closesAfter? (m.move.apply stack) (some c) (m.length - 1) cs).map (· + 1)
      | none => (closesAfter? stack (some c) 0 cs).map (· + 1)

/-- The rules do not ask whether the text starts here, but in the script around all markup. -/
theorem match?_atStart {mode : Mode} (h : mode ≠ .script) (atStart : Bool) (before : Option Char) (cs : List Char) :
    match? mode atStart before cs = match? mode false before cs := by
  cases mode <;> first | rfl | exact absurd rfl h

/-- One character less up to the end. -/
theorem eq_length_of_map {k : Option Nat} {c : Char} {w : List Char} (h : k.map (· + 1) = some (c :: w).length) :
    k = some w.length := by
  obtain ⟨n, rfl, hn⟩ := Option.map_eq_some_iff.mp h
  exact congrArg some (Nat.succ.inj hn)

theorem closesAfter?_lt {stack : List Mode} {before : Option Char} {skip k : Nat} {cs : List Char}
    (h : closesAfter? stack before skip cs = some k) : skip < k := by
  induction cs generalizing stack before skip k with
  | nil => cases h
  | cons c cs ih =>
    cases skip with
    | succ skip =>
      obtain ⟨k, hk, rfl⟩ := Option.map_eq_some_iff.mp h
      exact Nat.succ_lt_succ (ih hk)
    | zero =>
      rw [closesAfter?] at h
      split at h
      · next m hm =>
        split at h
        · cases h
          exact (rule_of_match hm).length_pos
        · obtain ⟨k, -, rfl⟩ := Option.map_eq_some_iff.mp h
          exact Nat.succ_pos k
      · obtain ⟨k, -, rfl⟩ := Option.map_eq_some_iff.mp h
        exact Nat.succ_pos k

/-- The match that leaves the last mode is the end of a tag. -/
theorem endsAngle_of_leave {stack : List Mode} {before : Option Char} {cs : List Char} {m : Match} (hstack : Nested stack)
    (hm : match? (current stack) false before cs = some m) (hnil : m.move.apply stack = []) :
    (∃ count, m.move = .leave count) ∧ m.length ≤ cs.length ∧ EndsAngle (cs.take m.length) := by
  have hclose : ∀ {count k : Nat}, content? count cs = some m → m.move = .leave k →
      m.length ≤ cs.length ∧ EndsAngle (cs.take m.length) := by
    intro count k hcontent hleave
    have hlength := content?_leave hcontent hleave
    exact ⟨(closingTagLength?_spec hlength).2, closingTagLength?_endsAngle hlength⟩
  cases rule_of_match hm with
  | token => exact absurd hnil hstack.ne_nil
  | selfClose text place =>
    refine ⟨⟨1, rfl⟩, ?_, ?_⟩
    · have hlength := congrArg List.length text
      rw [List.length_take] at hlength
      calc 2 = min 2 cs.length := hlength.symm
        _ ≤ cs.length := Nat.min_le_right 2 _
    · show EndsAngle (cs.take 2)
      rw [text]
      rfl
  | closeElement pos fits place =>
    rw [place] at hm
    exact ⟨⟨2, rfl⟩, hclose hm rfl⟩
  | closeFragment pos fits place =>
    rw [place] at hm
    exact ⟨⟨1, rfl⟩, hclose hm rfl⟩
  | closeExpression place =>
    -- below an expression there is the markup that it stands in
    exfalso
    cases hstack with
    | tag => simp [current] at place
    | fragment => simp [current] at place
    | content => simp [current] at place
    | inside _ below => exact below.ne_nil hnil
  | _ => cases hnil

/-- Markup ends with an angle. -/
theorem closesAfter?_endsAngle {stack : List Mode} {before : Option Char} {skip k : Nat} {cs : List Char}
    (hstack : Nested stack) (h : closesAfter? stack before skip cs = some k) :
    k ≤ cs.length ∧ EndsAngle (cs.take k) := by
  induction cs generalizing stack before skip k with
  | nil => cases h
  | cons c cs ih =>
    have hnext : ∀ {stack : List Mode} {before : Option Char} {skip : Nat}, Nested stack →
        (closesAfter? stack before skip cs).map (· + 1) = some k →
        k ≤ (c :: cs).length ∧ EndsAngle ((c :: cs).take k) := by
      intro stack before skip hstack h
      obtain ⟨k, hk, rfl⟩ := Option.map_eq_some_iff.mp h
      obtain ⟨hle, hends⟩ := ih hstack hk
      exact ⟨Nat.succ_le_succ hle, hends.cons c⟩
    cases skip with
    | succ skip => exact hnext hstack h
    | zero =>
      have hsettled := hstack.settled (c :: cs)
      rw [closesAfter?] at h
      split at h
      · next m hm =>
        split at h
        · next hnil =>
          cases h
          exact (endsAngle_of_leave hsettled hm hnil).2
        · next hne => exact hnext ((hsettled.step (rule_of_match hm)).1.resolve_left hne) h
      · exact hnext hsettled h

/-! ## Runs up to the end of markup -/

theorem tokens_append {v r : List Char} (pos : Nat) {parts : List (TokenKind × Nat)}
    (h : parts.foldr (fun part n => part.2 + n) 0 ≤ v.length) : tokens pos (v ++ r) parts = tokens pos v parts := by
  induction parts generalizing pos v with
  | nil => rfl
  | cons part parts ih =>
    obtain ⟨kind, n⟩ := part
    rw [List.foldr_cons] at h
    have hn : n ≤ v.length := Nat.le_trans (Nat.le_add_right _ _) h
    rw [tokens, tokens, List.take_append_of_le_length hn, List.drop_append_of_le_length hn, ih]
    rw [List.length_drop]
    exact Nat.le_sub_of_add_le' h

theorem events_append {m : Match} {v r : List Char} (pos : Nat) (h : m.length ≤ v.length) :
    m.events pos (v ++ r) = m.events pos v := by
  unfold Match.events
  rw [tokens_append pos h]

theorem eventsFrom_nil (before : Option Char) (pos : Nat) (w : List Char) :
    eventsFrom [] before pos w.length [] w = [] := by
  obtain ⟨before', h⟩ := eventsFrom_skip [] before pos [] w []
  rw [List.append_nil] at h
  rw [h]
  rfl

/-- A match that leaves a mode, or ends earlier, does not run on. -/
theorem not_overruns {n : Nat} {m : Match} (h : m.length < n ∨ ∃ count, m.move = .leave count) :
    ¬ Overruns n (some m) := by
  rintro ⟨m, heq, hle, hstays⟩
  obtain rfl := Option.some.inj heq
  rcases h with hlt | ⟨count, hleave⟩
  · exact Nat.not_lt.mpr hle hlt
  · exact hstays count hleave

theorem not_overruns_none {n : Nat} : ¬ Overruns n none := by
  rintro ⟨m, heq, -⟩
  cases heq

theorem Local.eq {n : Nat} {r : List Char} {a b : Option Match} (h : Local n r a b) (ha : ¬ Overruns n a) : a = b :=
  h.resolve_right fun hover => ha hover.1

theorem Local.eq_of_isQuiet {n : Nat} {r : List Char} {a b : Option Match} (h : Local n r a b) (hr : IsQuiet r)
    (hb : ¬ Overruns n b) : a = b := h.resolve_right fun hover => hb (hover.2 hr)

/-- The next match up to the end of markup: it leaves the last mode, or ends earlier. -/
theorem not_overruns_of_closesAfter? {stack : List Mode} {before : Option Char} {c : Char} {cs : List Char} {k : Nat}
    (hstack : Nested stack) (h : closesAfter? stack before 0 (c :: cs) = some k) :
    ¬ Overruns k (match? (current (settle (c :: cs) stack)) false before (c :: cs)) ∧
      ∀ m, match? (current (settle (c :: cs) stack)) false before (c :: cs) = some m → m.length ≤ k := by
  have hsettled := hstack.settled (c :: cs)
  rw [closesAfter?] at h
  split at h
  · next m hm =>
    have hfound : ∀ {m' : Match}, some m = some m' → m = m' := Option.some.inj
    rw [hm]
    split at h
    · next hnil =>
      cases h
      refine ⟨not_overruns (.inr (endsAngle_of_leave hsettled hm hnil).1), ?_⟩
      intro m' heq
      exact Nat.le_of_eq (congrArg Match.length (hfound heq).symm)
    · obtain ⟨k, hk, rfl⟩ := Option.map_eq_some_iff.mp h
      have hlt : m.length < k + 1 := Nat.lt_succ_of_le (Nat.le_of_pred_lt (closesAfter?_lt hk))
      refine ⟨not_overruns (.inl hlt), ?_⟩
      intro m' heq
      rw [← hfound heq]
      exact Nat.le_of_lt hlt
  · next hm =>
    rw [hm]
    refine ⟨not_overruns_none, ?_⟩
    intro m heq
    cases heq

/-- Where all modes are left at the end of `c :: w`, the match at its start is made as without the text after it. -/
theorem match?_closed {stack : List Mode} {before : Option Char} {c : Char} {w r : List Char} (hstack : Nested stack)
    (h : closesAfter? stack before 0 (c :: (w ++ r)) = some (c :: w).length) :
    settle (c :: (w ++ r)) stack = settle (c :: w) stack ∧
      match? (current (settle (c :: w) stack)) false before (c :: (w ++ r)) =
        match? (current (settle (c :: w) stack)) false before (c :: w) ∧
      ∀ m, match? (current (settle (c :: w) stack)) false before (c :: w) = some m → m.length ≤ (c :: w).length := by
  have hends : EndsAngle (c :: w) := by
    have hends := (closesAfter?_endsAngle hstack h).2
    rwa [← List.cons_append, List.take_left' rfl] at hends
  have hsettle : settle (c :: (w ++ r)) stack = settle (c :: w) stack := settle_local hends r stack
  have hlocal : Local (c :: w).length r (match? (current (settle (c :: w) stack)) false before (c :: (w ++ r)))
      (match? (current (settle (c :: w) stack)) false before (c :: w)) := match?_local _ false before hends r
  obtain ⟨hover, hlength⟩ := not_overruns_of_closesAfter? hstack h
  rw [hsettle] at hover hlength
  have hsame := hlocal.eq hover
  rw [hsame] at hlength
  exact ⟨hsettle, hsame, hlength⟩

/-- What is complete before some text is complete in itself. -/
theorem closesAfter?_alone {stack : List Mode} {before : Option Char} {skip : Nat} {w r : List Char}
    (hstack : Nested stack) (h : closesAfter? stack before skip (w ++ r) = some w.length) :
    closesAfter? stack before skip w = some w.length := by
  induction w generalizing stack before skip with
  | nil => exact absurd (closesAfter?_lt h) (Nat.not_lt_zero skip)
  | cons c w ih =>
    rw [List.cons_append] at h
    cases skip with
    | succ skip =>
      rw [closesAfter?, ih hstack (eq_length_of_map h)]
      rfl
    | zero =>
      have hsettled := hstack.settled (c :: w)
      obtain ⟨hsettle, hsame, -⟩ := match?_closed hstack h
      rw [closesAfter?, hsettle, hsame] at h
      rw [closesAfter?]
      cases hm : match? (current (settle (c :: w) stack)) false before (c :: w) with
      | none =>
        rw [hm] at h
        dsimp only
        rw [ih hsettled (eq_length_of_map h)]
        rfl
      | some m =>
        rw [hm] at h
        dsimp only at h ⊢
        split at h
        · next hnil => rw [if_pos hnil, h]
        · next hne =>
          rw [if_neg hne, ih ((hsettled.step (rule_of_match hm)).1.resolve_left hne) (eq_length_of_map h)]
          rfl

/-- Where all modes are left at the end of `w`, the run over `w` is the run over it alone, and it goes on with the modes
around. -/
theorem eventsFrom_closed {stack : List Mode} {before : Option Char} {skip : Nat} {w r : List Char} (hstack : Nested stack)
    (h : closesAfter? stack before skip (w ++ r) = some w.length) (around : List Mode) (pos : Nat) (pending : List Char) :
    ∃ before', eventsFrom (stack ++ around) before pos skip pending (w ++ r) =
      eventsFrom stack before pos skip pending w ++ eventsFrom around before' (pos + w.length) 0 [] r := by
  induction w generalizing stack before skip pos pending with
  | nil => exact absurd (closesAfter?_lt h) (Nat.not_lt_zero skip)
  | cons c w ih =>
    have hpos : pos + (c :: w).length = pos + 1 + w.length := by
      rw [List.length_cons, Nat.add_assoc, Nat.add_comm 1]
    rw [List.cons_append] at h
    rw [List.cons_append, hpos]
    cases skip with
    | succ skip => exact ih hstack (eq_length_of_map h) (pos + 1) pending
    | zero =>
      have hsettled := hstack.settled (c :: w)
      obtain ⟨hsettle, hsame, hlength⟩ := match?_closed hstack h
      have hstart := fun cs => match?_atStart hsettled.current_ne_script (pos == 0) before cs
      rw [closesAfter?, hsettle, hsame] at h
      simp only [eventsFrom, hstack.settle_append, hsettle, hsettled.current_append, hstart, hsame]
      cases hm : match? (current (settle (c :: w) stack)) false before (c :: w) with
      | none =>
        rw [hm] at h
        exact ih hsettled (eq_length_of_map h) (pos + 1) (c :: pending)
      | some m =>
        rw [hm] at h
        dsimp only at h ⊢
        have hevents : m.events pos (c :: (w ++ r)) = m.events pos (c :: w) := events_append pos (hlength m hm)
        obtain ⟨hnested, haround⟩ := hsettled.step (rule_of_match hm)
        rw [hevents, haround]
        simp only [List.append_assoc]
        split at h
        · next hnil =>
          -- the last mode is left, and the rest of the characters are those of the match
          obtain ⟨before', heq⟩ := eventsFrom_skip around (some c) (pos + 1) [] w r
          have hrest : m.length - 1 = w.length := by rw [Option.some.inj h, List.length_cons, Nat.add_sub_cancel]
          refine ⟨before', ?_⟩
          rw [hnil, hrest, List.nil_append, heq, eventsFrom_nil, List.nil_append]
        · next hne =>
          obtain ⟨before', heq⟩ := ih (hnested.resolve_left hne) (eq_length_of_map h) (pos + 1) []
          exact ⟨before', by rw [heq]⟩

/-- Markup that is complete in itself is complete before a text that ends no string and no comment. -/
theorem closesAfter?_append {stack : List Mode} {before : Option Char} {skip : Nat} {w r : List Char}
    (hstack : Nested stack) (h : closesAfter? stack before skip w = some w.length) (hr : IsQuiet r) :
    closesAfter? stack before skip (w ++ r) = some w.length := by
  induction w generalizing stack before skip with
  | nil => cases h
  | cons c w ih =>
    have hnext : ∀ {stack : List Mode} {before : Option Char} {skip : Nat}, Nested stack →
        (closesAfter? stack before skip w).map (· + 1) = some (c :: w).length →
        (closesAfter? stack before skip (w ++ r)).map (· + 1) = some (c :: w).length := by
      intro stack before skip hstack h
      rw [ih hstack (eq_length_of_map h)]
      rfl
    cases skip with
    | succ skip => exact hnext hstack h
    | zero =>
      have hends : EndsAngle (c :: w) := by
        have hends := (closesAfter?_endsAngle hstack h).2
        rwa [List.take_length] at hends
      have hsettled := hstack.settled (c :: w)
      have hsettle : settle (c :: (w ++ r)) stack = settle (c :: w) stack := settle_local hends r stack
      have hlocal : Local (c :: w).length r (match? (current (settle (c :: w) stack)) false before (c :: (w ++ r)))
          (match? (current (settle (c :: w) stack)) false before (c :: w)) := match?_local _ false before hends r
      -- no match can run on over a quiet text
      have hsame := hlocal.eq_of_isQuiet hr (not_overruns_of_closesAfter? hstack h).1
      rw [closesAfter?] at h
      rw [List.cons_append, closesAfter?, hsettle, hsame]
      cases hm : match? (current (settle (c :: w) stack)) false before (c :: w) with
      | none =>
        rw [hm] at h
        exact hnext hsettled h
      | some m =>
        rw [hm] at h
        dsimp only at h ⊢
        split at h
        · next hnil => rw [if_pos hnil, h]
        · next hne =>
          rw [if_neg hne]
          exact hnext ((hsettled.step (rule_of_match hm)).1.resolve_left hne) h

end JsxEdit.Scan
