import JsxEdit.Proofs.Enclosed

/-
The pieces of a fragment, one after the other.

The text after the opening tag of a fragment is read as text, expressions and markup until the fragment is closed. `Encloses`
tells which pieces the fragment gets and which ones follow it. A piece of markup among them is the one that it would be
if it were the whole text, but for the places that its tokens record.
-/
set_option autoImplicit false

namespace JsxEdit.Piece

open Scan (markup? content? closingTagLength? closesAfter? eventsFrom match? current Nested IsQuiet)

/-- The fragment gets the pieces `qs` from the text after its opening tag, and the pieces `tail` follow it. -/
def Encloses (x : List Char) (qs tail : List Piece) : Prop :=
  ∀ d before items outer, items ≠ [] →
    nest items [(.fragment, outer)] (eventsFrom [.fragment, .markup] before (3 + d) 0 [] x) =
      outer.reverse ++ .stretch .fragment (items.reverse ++ qs.map (shift d)) :: tail.map (shift d)

/-- Between tags it makes no difference what stands before. -/
theorem eventsFrom_before (around : List Mode) (before before' : Option Char) (pos : Nat) (x : List Char) :
    eventsFrom (.fragment :: around) before pos 0 [] x = eventsFrom (.fragment :: around) before' pos 0 [] x := by
  cases x <;> rfl

theorem exists_encloses (x : List Char) : ∃ qs tail, Encloses x qs tail := by
  -- what the stretch of the fragment gets at one place, it gets moved on at every other
  obtain ⟨qs, es, -, heq⟩ := nest_stretch (eventsFrom [.fragment, .markup] none 3 0 [] x)
  refine ⟨qs, nest [] [] es, ?_⟩
  intro d before items outer hitems
  have hne : (qs.map (shift d)).reverse ++ items ≠ [] := by
    intro hnil
    exact hitems (List.append_eq_nil_iff.mp hnil).2
  rw [eventsFrom_before _ before none, Scan.eventsFrom_shift d _ _ _ _ (by decide), heq, close_of_ne_nil hne, nest_root,
    List.reverse_cons, List.append_assoc, List.reverse_append, List.reverse_reverse]
  exact congrArg (outer.reverse ++ .stretch .fragment (items.reverse ++ qs.map (shift d)) :: ·) (nest_shift d [] [] es)

/-- The opening tag of the fragment, wherever it stands. -/
def opening : Token := ⟨.delimiter, 0, "<>"⟩

/-- The pieces are the only ones. -/
theorem Encloses.unique {x : List Char} {qs tail ps more : List Piece} {before : Option Char} {t : Token}
    (h : Encloses x qs tail) (heq : nest [.token t] [(.fragment, [])] (eventsFrom [.fragment, .markup] before 3 0 [] x) =
      .stretch .fragment (.token t :: ps) :: more) : qs = ps ∧ tail = more := by
  have hzero := h 0 before [.token t] [] (List.cons_ne_nil _ _)
  rw [Nat.add_zero, heq, map_shift_zero, map_shift_zero] at hzero
  obtain ⟨hstretch, htail⟩ := List.cons.inj hzero
  injection hstretch with _ hitems
  exact ⟨(List.cons.inj hitems).2.symm, htail.symm⟩

theorem Encloses.eq {x : List Char} {qs tail ps more : List Piece} (h : Encloses x qs tail) (h' : Encloses x ps more) :
    qs = ps ∧ tail = more := by
  have hrun := h' 0 none [.token opening] [] (List.cons_ne_nil _ _)
  rw [map_shift_zero, map_shift_zero] at hrun
  exact h.unique hrun

/-- A token that leaves the fragment open. -/
theorem Encloses.token {w r : List Char} {kind : TokenKind} {qs tail : List Piece} (hne : w ≠ [])
    (hm : content? 1 (w ++ r) = Scan.one kind w.length .stay) (h : Encloses r qs tail) :
    Encloses (w ++ r) (.token ⟨kind, 3, .ofList w⟩ :: qs.map (shift w.length)) (tail.map (shift w.length)) := by
  intro d before items outer hitems
  have hmode : current [.fragment, .markup] ≠ .markup := by decide
  have hmatch : match? (current [.fragment, .markup]) (3 + d == 0) before (w ++ r) = Scan.one kind w.length .stay := hm
  obtain ⟨before', heq⟩ := Scan.eventsFrom_match [] hmode hne hmatch rfl
  have htoken : (Scan.Match.mk [(kind, w.length)] .stay).events (3 + d) (w ++ r) =
      [.token ⟨kind, 3 + d, .ofList w⟩] := by
    simp [Scan.Match.events, Scan.tokens]
  rw [heq, Scan.pendingToken_nil, List.nil_append, htoken, List.singleton_append, nest, Nat.add_assoc 3 d]
  have hrest := h (d + w.length) before' (.token ⟨kind, 3 + d, .ofList w⟩ :: items) outer (List.cons_ne_nil _ _)
  rw [map_shift_shift, List.map_cons, map_shift_shift, Nat.add_comm w.length d]
  refine hrest.trans ?_
  simp [Token.shift]

/-- The closing tag of the fragment is its last piece. -/
theorem Encloses.close {x : List Char} {n : Nat} {qs tail : List Piece} (hm : closingTagLength? x = some n)
    (h : Encloses x qs tail) : qs = [.token ⟨.delimiter, 3, .ofList (x.take n)⟩] := by
  obtain ⟨hpos, hle⟩ := Scan.closingTagLength?_spec hm
  have hlength : (x.take n).length = n := List.length_take_of_le hle
  have hne : x.take n ≠ [] := by
    intro hnil
    rw [hnil] at hlength
    exact absurd (hlength ▸ hpos) (by decide)
  have hmode : current [.fragment, .markup] ≠ .markup := by decide
  have hmatch : match? (current [.fragment, .markup]) (3 == 0) none (x.take n ++ x.drop n) =
      Scan.one .delimiter n (.leave 1) := by
    show content? 1 (x.take n ++ x.drop n) = _
    rw [List.take_append_drop]
    unfold Scan.content?
    rw [hm]
  obtain ⟨before, heq⟩ := Scan.eventsFrom_match [] hmode hne hmatch hlength.symm
  rw [List.take_append_drop, Scan.pendingToken_nil, List.nil_append] at heq
  have hrun : nest [.token opening] [(.fragment, [])] (eventsFrom [.fragment, .markup] none 3 0 [] x) =
      .stretch .fragment [.token opening, .token ⟨.delimiter, 3, .ofList (x.take n)⟩] ::
        nest [] [] (eventsFrom [.markup] before (3 + (x.take n).length) 0 [] (x.drop n)) := by
    rw [heq]
    exact nest_root [.stretch .fragment [.token opening, .token ⟨.delimiter, 3, .ofList (x.take n)⟩]] _
  exact (h.unique hrun).1

/-- A brace opens an expression, which is the next piece. -/
theorem Encloses.braces {x : List Char} {qs tail : List Piece} (h : Encloses ('\x7b' :: x) qs tail) :
    ∃ items qs', qs = .stretch .braces items :: qs' := by
  have hmode : current [.fragment, .markup] ≠ .markup := by decide
  have hmatch : match? (current [.fragment, .markup]) (3 == 0) none (['\x7b'] ++ x) =
      Scan.one .delimiter 1 (.enter .braces) := Scan.content?_brace 1 x
  obtain ⟨before, heq⟩ := Scan.eventsFrom_match [] hmode (List.cons_ne_nil _ _) hmatch rfl
  -- the expression first, and then the rest of the fragment
  obtain ⟨qs₁, es₁, -, heq₁⟩ := nest_stretch (eventsFrom (.braces :: [.fragment, .markup]) before (3 + 1) 0 [] x)
  obtain ⟨qs₂, es₂, -, heq₂⟩ := nest_stretch es₁
  have hrun₁ := heq₁ 0 .braces [.token ⟨.delimiter, 3, "\x7b"⟩] [.token opening] [(.fragment, [])]
  have hrun₂ := heq₂ 0 .fragment [.stretch .braces (.token ⟨.delimiter, 3, "\x7b"⟩ :: qs₁), .token opening] [] []
  rw [Event.map_shift_zero, Event.map_shift_zero, map_shift_zero, close_of_ne_nil (by simp), List.reverse_append,
    List.reverse_reverse] at hrun₁ hrun₂
  have hrun : nest [.token opening] [(.fragment, [])] (eventsFrom [.fragment, .markup] none 3 0 [] ('\x7b' :: x)) =
      .stretch .fragment (.token opening :: .stretch .braces (.token ⟨.delimiter, 3, "\x7b"⟩ :: qs₁) :: qs₂) ::
        nest [] [] es₂ := by
    rw [List.singleton_append, Scan.pendingToken_nil, List.nil_append] at heq
    rw [heq]
    exact (hrun₁.trans hrun₂).trans (nest_root _ _)
  exact ⟨_, _, (h.unique hrun).1⟩

/-! ## Complete markup -/

/-- The markup `v` is complete before the text `r`: at its end all the modes that it opened are left. -/
def CompleteBefore (v r : List Char) : Prop := ∃ w m mode, v = '<' :: w ∧ markup? (v ++ r) = some m ∧
  m.move = .enter mode ∧ closesAfter? [mode] (some '<') (m.length - 1) (w ++ r) = some w.length

/-- The text starts with markup that is not closed up to its end. -/
def Unclosed (x : List Char) : Prop := ∃ w m mode, x = '<' :: w ∧ markup? x = some m ∧
  m.move = .enter mode ∧ closesAfter? [mode] (some '<') (m.length - 1) w = none

/-- Markup is closed somewhere, or not at all. -/
theorem complete_or_unclosed {x : List Char} {m : Scan.Match} (h : markup? x = some m) :
    (∃ v r, x = v ++ r ∧ CompleteBefore v r) ∨ Unclosed x := by
  obtain ⟨mode, hmove⟩ := Scan.markup?_move h
  obtain ⟨w, rfl, -⟩ := Scan.markup?_cases h
  cases hclosed : closesAfter? [mode] (some '<') (m.length - 1) w with
  | none => exact .inr ⟨w, m, mode, rfl, h, hmove, hclosed⟩
  | some k =>
    have hlength : (w.take k).length = k :=
      List.length_take_of_le (Scan.closesAfter?_endsAngle (Scan.nested_of_markup? h hmove).2 hclosed).1
    refine .inl ⟨'<' :: w.take k, w.drop k, ?_, w.take k, m, mode, rfl, ?_, hmove, ?_⟩
    · rw [List.cons_append, List.take_append_drop]
    · rw [List.cons_append, List.take_append_drop, h]
    · rw [List.take_append_drop, hlength, hclosed]

namespace CompleteBefore

variable {v r : List Char}

theorem endsAngle (h : CompleteBefore v r) : EndsAngle v := by
  obtain ⟨w, m, mode, rfl, hm, hmove, hclosed⟩ := h
  have hends := (Scan.closesAfter?_endsAngle (Scan.nested_of_markup? hm hmove).2 hclosed).2
  rw [List.take_left' rfl] at hends
  exact hends.cons '<'

/-- What is complete before some text is complete alone. -/
theorem alone (h : CompleteBefore v r) : CompleteBefore v [] := by
  have hends := h.endsAngle
  obtain ⟨w, m, mode, rfl, hm, hmove, hclosed⟩ := h
  refine ⟨w, m, mode, rfl, ?_, hmove, ?_⟩
  · rw [List.append_nil, ← Scan.markup?_local hends r, hm]
  · rw [List.append_nil]
    exact Scan.closesAfter?_alone (Scan.nested_of_markup? hm hmove).2 hclosed

/-- What is complete alone is complete before a text that ends no string and no comment. -/
theorem before (h : CompleteBefore v []) (hr : IsQuiet r) : CompleteBefore v r := by
  have hends := h.endsAngle
  obtain ⟨w, m, mode, rfl, hm, hmove, hclosed⟩ := h
  rw [List.append_nil] at hm hclosed
  refine ⟨w, m, mode, rfl, ?_, hmove, ?_⟩
  · rw [Scan.markup?_local hends r, hm]
  · exact Scan.closesAfter?_append (Scan.nested_of_markup? hm hmove).2 hclosed hr

/-- Markup is complete at one place only. -/
theorem eq_nil (h : CompleteBefore v r) (h' : CompleteBefore (v ++ r) []) : r = [] := by
  obtain ⟨w, m, mode, rfl, hm, hmove, hclosed⟩ := h
  obtain ⟨w', m', mode', heq, hm', hmove', hclosed'⟩ := h'
  rw [List.append_nil, hm] at hm'
  obtain rfl := Option.some.inj hm'
  obtain rfl : mode = mode' := Scan.Move.enter.inj (hmove.symm.trans hmove')
  rw [List.cons_append] at heq
  rw [List.append_nil, ← (List.cons.inj heq).2, hclosed, List.length_append] at hclosed'
  exact List.length_eq_zero_iff.mp (Nat.left_eq_add.mp (Option.some.inj hclosed'))

end CompleteBefore

/-- Where markup can stand, what opens it is matched. -/
theorem match?_markup {stack : List Mode} {pos : Nat} {cs : List Char} {m : Scan.Match} (h : Scan.AtMarkup stack pos)
    (hm : markup? cs = some m) (before : Option Char) : match? (current stack) (pos == 0) before cs = some m := by
  have hclose := closingTagLength?_of_markup? hm
  rcases h with h | h | ⟨h, rfl⟩
  · rw [h]
    exact Scan.content?_markup hclose hm
  · rw [h]
    exact Scan.content?_markup hclose hm
  · obtain ⟨rest, rfl, -⟩ := Scan.markup?_cases hm
    rw [h]
    have hspace : Scan.spaceLength ('<' :: rest) = 0 := rfl
    simp [Scan.match?, Scan.firstMarkup?, hspace, hm]

/-- The events of markup, from where it can stand. -/
theorem eventsFrom_markup {stack : List Mode} {pos : Nat} {w : List Char} {m : Scan.Match} {mode : Mode}
    (h : Scan.AtMarkup stack pos) (hm : markup? ('<' :: w) = some m) (hmove : m.move = .enter mode) (before : Option Char) :
    eventsFrom stack before pos 0 [] ('<' :: w) =
      m.events pos ('<' :: w) ++ eventsFrom (mode :: stack) (some '<') (pos + 1) (m.length - 1) [] w := by
  rw [eventsFrom, Opened.settle_eq _ h.ne_markup, match?_markup h hm before, Scan.pendingToken_nil]
  show m.events pos ('<' :: w) ++ eventsFrom (m.move.apply stack) _ _ _ _ _ = _
  rw [hmove]
  rfl

/-- Markup that is not closed is one invalid node, from its opening on. -/
theorem Unclosed.nest_events {w : List Char} {m : Scan.Match} {mode : Mode} (h : Unclosed ('<' :: w))
    (hm : markup? ('<' :: w) = some m) (hmove : m.move = .enter mode) (stack : List Mode) (pos : Nat) (outer : List Piece)
    (frames : List (Mode × List Piece)) :
    ∃ p n, Markup.part p = .leaf (.node n) ∧ n.kind.isInvalid = true ∧
      Piece.nest outer frames (m.events pos ('<' :: w) ++
        eventsFrom (mode :: stack) (some '<') (pos + 1) (m.length - 1) [] w) = closeAll (p :: outer) frames := by
  obtain ⟨w', m', mode', heq, hm', hmove', hopen⟩ := h
  obtain rfl := (List.cons.inj heq).2
  obtain rfl := Option.some.inj (hm.symm.trans hm')
  obtain rfl : mode = mode' := Scan.Move.enter.inj (hmove.symm.trans hmove')
  obtain ⟨first, hfirst⟩ := nest_markup hm hmove
  obtain ⟨started, here, -, heq⟩ := hfirst pos
  have hroot : Unfinished outer frames [mode] (first pos) ((mode, outer) :: frames) :=
    .root (Scan.nested_of_markup? hm hmove).1 here started
  obtain ⟨p, n, hpart, hinvalid, hclose⟩ := hroot.nest_invalid (some '<') (pos + 1) (m.length - 1) [] w stack hopen
  refine ⟨p, n, hpart, hinvalid, ?_⟩
  rw [heq]
  exact hclose

/-- Markup that is not closed is one invalid node. -/
theorem Unclosed.nest {x : List Char} (h : Unclosed x) {stack : List Mode} {pos : Nat} (hplace : Scan.AtMarkup stack pos)
    (before : Option Char) (outer : List Piece) (frames : List (Mode × List Piece)) :
    ∃ p n, Markup.part p = .leaf (.node n) ∧ n.kind.isInvalid = true ∧
      Piece.nest outer frames (eventsFrom stack before pos 0 [] x) = closeAll (p :: outer) frames := by
  obtain ⟨w, m, mode, rfl, hm, hmove, hopen⟩ := h
  rw [eventsFrom_markup hplace hm hmove]
  exact Unclosed.nest_events ⟨w, m, mode, rfl, hm, hmove, hopen⟩ hm hmove stack pos outer frames

/-- Complete markup is one piece from its opening on, the same wherever it stands and whatever follows, but for the
places. -/
theorem CompleteBefore.nest_events {v : List Char} (h : CompleteBefore v []) :
    ∃ mode items, (mode = .tag ∨ mode = .fragment) ∧
      ∀ {r w m}, CompleteBefore v r → v ++ r = '<' :: w → markup? ('<' :: w) = some m → m.move = .enter mode ∧
        ∀ stack d outer frames, ∃ before', Piece.nest outer frames (m.events d ('<' :: w) ++
            eventsFrom (mode :: stack) (some '<') (d + 1) (m.length - 1) [] w) =
          Piece.nest (shift d (.stretch mode items) :: outer) frames (eventsFrom stack before' (d + v.length) 0 [] r) := by
  have hends := h.endsAngle
  obtain ⟨w, m, mode, rfl, hm, hmove, hclosed⟩ := h
  rw [List.append_nil] at hm hclosed
  obtain ⟨place, hnested⟩ := Scan.nested_of_markup? hm hmove
  obtain ⟨first, hfirst⟩ := nest_markup hm hmove
  have hdepth : Scan.depth [mode] = 1 := by rcases place with rfl | rfl <;> rfl
  have hstretch := Scan.endsStretches_closed 1 [] hnested hclosed
  rw [hdepth] at hstretch
  obtain ⟨qs, hqs⟩ := nest_endsStretches hstretch
  refine ⟨mode, (first 0).reverse ++ qs, place, ?_⟩
  intro r x m' hr hx hm'
  -- the match at the start is the same before any text
  obtain ⟨w', m'', mode', heq, hm'', hmove', hclosed'⟩ := hr
  obtain rfl := (List.cons.inj heq).2
  obtain rfl := (List.cons.inj hx).2
  rw [← hx] at hm'
  obtain rfl := Option.some.inj (hm'.symm.trans hm'')
  obtain rfl : m = m' := by
    rw [Scan.markup?_local hends, hm] at hm'
    exact Option.some.inj hm'
  obtain rfl : mode = mode' := Scan.Move.enter.inj (hmove.symm.trans hmove')
  refine ⟨hmove, ?_⟩
  intro stack d outer frames
  -- the run over the markup does not see what is around it, and ends its stretch
  obtain ⟨before', hrun⟩ := Scan.eventsFrom_closed hnested hclosed' stack (d + 1) []
  refine ⟨before', ?_⟩
  have hlength : m.length ≤ ('<' :: w).length :=
    Nat.le_succ_of_le (Nat.le_of_pred_lt (Scan.closesAfter?_lt hclosed))
  have hshift : eventsFrom [mode] (some '<') (d + 1) (m.length - 1) [] w =
      (eventsFrom [mode] (some '<') 1 (m.length - 1) [] w).map (Event.shift d) := by
    rw [Nat.add_comm d 1]
    exact Scan.eventsFrom_shift d _ _ _ _ (by decide)
  obtain ⟨hne, -, -, heq⟩ := hfirst d
  have hitems : (qs.map (shift d)).reverse ++ first d ≠ [] := fun hnil => hne (List.append_eq_nil_iff.mp hnil).2
  have hmoved : first d = (first 0).map (shift d) := by
    rw [← (hfirst 0).2.2.1 d, Nat.zero_add]
  calc
    _ = Piece.nest outer frames (m.events d ('<' :: w) ++ (eventsFrom [mode] (some '<') (d + 1) (m.length - 1) [] w ++
          eventsFrom stack before' (d + 1 + w.length) 0 [] r)) := by
      rw [← hrun, ← Scan.events_append d hlength]
      rfl
    _ = Piece.nest (first d) ((mode, outer) :: frames) _ := heq outer frames _
    _ = Piece.nest (.stretch mode ((qs.map (shift d)).reverse ++ first d).reverse :: outer) frames _ := by
      rw [hshift, hqs, close_of_ne_nil hitems]
    _ = _ := by
      rw [hmoved, List.reverse_append, List.reverse_reverse, ← List.map_reverse, ← List.map_append, shift_stretch,
        List.length_cons, Nat.add_right_comm, Nat.add_assoc]

/-- Complete markup is one piece, the same wherever it stands and whatever follows, but for the places. -/
theorem CompleteBefore.nest {v : List Char} (h : CompleteBefore v []) : ∃ mode items, (mode = .tag ∨ mode = .fragment) ∧
    ∀ {r stack d}, CompleteBefore v r → Scan.AtMarkup stack d → ∀ before outer frames, ∃ before',
      Piece.nest outer frames (eventsFrom stack before d 0 [] (v ++ r)) =
        Piece.nest (shift d (.stretch mode items) :: outer) frames (eventsFrom stack before' (d + v.length) 0 [] r) := by
  obtain ⟨mode, items, place, hnest⟩ := h.nest_events
  refine ⟨mode, items, place, ?_⟩
  intro r stack d hr hplace before outer frames
  obtain ⟨w, m, -, rfl, hm, -⟩ := id hr
  obtain ⟨hmove, hrun⟩ := hnest hr rfl hm
  obtain ⟨before', heq⟩ := hrun stack d outer frames
  refine ⟨before', ?_⟩
  rw [← heq]
  exact congrArg _ (eventsFrom_markup hplace hm hmove before)

/-! ## Markup alone and in a fragment -/

/-- Complete markup is one piece: the first one of a text, and the next one of a fragment. -/
theorem CompleteBefore.piece {v : List Char} (h : CompleteBefore v []) : ∃ mode items, (mode = .tag ∨ mode = .fragment) ∧
    (∀ {r}, CompleteBefore v r → ∃ before, ofText (.ofList (v ++ r)) =
      .stretch mode items :: Piece.nest [] [] (eventsFrom [] before v.length 0 [] r)) ∧
    ∀ {r qs tail}, CompleteBefore v r → Encloses r qs tail →
      Encloses (v ++ r) (shift 3 (.stretch mode items) :: qs.map (shift v.length)) (tail.map (shift v.length)) := by
  obtain ⟨mode, items, place, hnest⟩ := h.nest
  refine ⟨mode, items, place, ?_, ?_⟩
  · intro r hr
    have hplace : Scan.AtMarkup [] 0 := .inr (.inr ⟨rfl, rfl⟩)
    obtain ⟨before, heq⟩ := hnest hr hplace none [] []
    refine ⟨before, ?_⟩
    rw [ofText, Scan.events, String.toList_ofList, heq, nest_root, shift_zero, Nat.zero_add]
    rfl
  · intro r qs tail hr htail d before outer around houter
    have hplace : Scan.AtMarkup [.fragment, .markup] (3 + d) := .inr (.inl rfl)
    obtain ⟨before', heq⟩ := hnest hr hplace before outer [(.fragment, around)]
    have hrest := htail (d + v.length) before' (shift (3 + d) (.stretch mode items) :: outer) around (List.cons_ne_nil _ _)
    rw [heq, Nat.add_assoc, hrest, List.reverse_cons, List.append_assoc, List.singleton_append, List.map_cons, shift_shift,
      map_shift_shift, map_shift_shift, Nat.add_comm v.length d]

/-- Markup that is not closed is all of the text, or of the fragment, and invalid. -/
theorem Unclosed.piece {x : List Char} (h : Unclosed x) :
    (∃ p n, ofText (.ofList x) = [p] ∧ Markup.part p = .leaf (.node n) ∧ n.kind.isInvalid = true) ∧
    ∀ {qs tail}, Encloses x qs tail → ∃ p n, qs = [p] ∧ Markup.part p = .leaf (.node n) ∧ n.kind.isInvalid = true := by
  constructor
  · have hplace : Scan.AtMarkup [] 0 := .inr (.inr ⟨rfl, rfl⟩)
    obtain ⟨p, n, hpart, hinvalid, heq⟩ := h.nest hplace none [] []
    refine ⟨p, n, ?_, hpart, hinvalid⟩
    rw [ofText, Scan.events, String.toList_ofList, heq]
    rfl
  · intro qs tail he
    have hplace : Scan.AtMarkup [.fragment, .markup] 3 := .inr (.inl rfl)
    obtain ⟨p, n, hpart, hinvalid, heq⟩ := h.nest hplace none [.token opening] [(.fragment, [])]
    exact ⟨p, n, (he.unique heq).1, hpart, hinvalid⟩

/-! ## Script text -/

/-- Script text that was put off is the next token. -/
theorem eventsFrom_pending (before : Option Char) (pos : Nat) {pending : List Char} (h : pending ≠ []) (cs : List Char) :
    ∃ t es, eventsFrom [] before pos 0 pending cs = .token t :: es := by
  have htoken : ∀ (pos : Nat) {pending : List Char}, pending ≠ [] →
      ∃ t, Scan.pendingToken .script pos pending = [.token t] := by
    intro pos pending h
    cases pending with
    | nil => exact absurd rfl h
    | cons c pending => exact ⟨_, rfl⟩
  induction cs generalizing before pos pending with
  | nil =>
    obtain ⟨t, ht⟩ := htoken pos h
    exact ⟨t, [], ht⟩
  | cons c cs ih =>
    have hmode : current (Scan.settle (c :: cs) []) = .script := rfl
    rw [eventsFrom, hmode]
    split
    · obtain ⟨t, ht⟩ := htoken pos h
      rw [ht]
      exact ⟨t, _, rfl⟩
    · exact ih _ _ (List.cons_ne_nil c pending)

/-- Where script text does not go on with markup, the first that comes of it is a token. -/
theorem starts_token {before : Option Char} {pos : Nat} {c : Char} {cs : List Char}
    (h : match? .script (pos == 0) before (c :: cs) = (Scan.lead? before (c :: cs) <|> Scan.literal? (c :: cs))) :
    ∃ p ps t leaves, nest [] [] (eventsFrom [] before pos 0 [] (c :: cs)) = p :: ps ∧
      (Markup.part p).leaves = .token t :: leaves := by
  have hstart : ∀ {es : List Event} {t : Token} {es' : List Event}, es = .token t :: es' →
      ∃ p ps t leaves, nest [] [] es = p :: ps ∧ (Markup.part p).leaves = .token t :: leaves := by
    rintro es t es' rfl
    exact ⟨.token t, _, t, [], nest_root [.token t] es', rfl⟩
  have hmode : current (Scan.settle (c :: cs) []) = .script := rfl
  rw [eventsFrom, hmode, h]
  cases hm : (Scan.lead? before (c :: cs) <|> Scan.literal? (c :: cs)) with
  | none =>
    obtain ⟨t, es, heq⟩ := eventsFrom_pending (some c) (pos + 1) (List.cons_ne_nil c []) cs
    exact hstart heq
  | some m =>
    dsimp only
    rw [Scan.pendingToken_nil, List.nil_append]
    rcases Scan.orElse_some hm with hlead | hliteral
    · obtain ⟨n, -, hn⟩ := Option.bind_eq_some_iff.mp hlead
      obtain rfl := Scan.one_eq hn
      exact hstart rfl
    · rcases Scan.literal?_spec hliteral with ⟨kind, n, rfl⟩ | ⟨rfl, -⟩
      · exact hstart rfl
      · -- a template literal is a group, which starts with its first token
        obtain ⟨qs, es, -, heq⟩ := nest_stretch (eventsFrom [.template] (some c) (pos + 1) 0 [] cs)
        have hrun := heq 0 .template [.token ⟨.template, pos, .ofList [c]⟩] [] []
        rw [Event.map_shift_zero, Event.map_shift_zero, close_of_ne_nil (by simp), nest_root, List.reverse_append,
          List.reverse_singleton] at hrun
        have hgroup : ∀ (t : Token) (items : List Piece), ∃ leaves,
            (Markup.part (.stretch .template ([.token t] ++ items))).leaves = .token t :: leaves :=
          fun t items => ⟨_, rfl⟩
        obtain ⟨leaves, hleaves⟩ := hgroup ⟨.template, pos, .ofList [c]⟩ ((qs.map (shift 0)).reverse.reverse)
        exact ⟨_, _, _, leaves, hrun, hleaves⟩

/-! ## The text around a fragment -/

/-- The text with a fragment that is announced at its start. -/
theorem Encloses.ofText {x : List Char} {qs tail : List Piece} (h : Encloses x qs tail) :
    Piece.ofText (.ofList ('(' :: '<' :: '>' :: x)) =
      .token ⟨.delimiter, 0, "("⟩ :: .stretch .fragment (.token ⟨.delimiter, 1, "<>"⟩ :: qs) :: tail := by
  have hrun := h 0 (some '>') [.token ⟨.delimiter, 1, "<>"⟩] [.token ⟨.delimiter, 0, "("⟩] (List.cons_ne_nil _ _)
  rw [map_shift_zero, map_shift_zero] at hrun
  rw [Piece.ofText, Scan.events, String.toList_ofList]
  exact hrun

theorem Encloses.formed {x : List Char} {qs tail : List Piece} (h : Encloses x qs tail) :
    (∀ p ∈ qs, Formed p) ∧ ∀ p ∈ tail, Formed p := by
  have hformed := ofText_formed (.ofList ('(' :: '<' :: '>' :: x))
  rw [h.ofText] at hformed
  constructor
  · have hstretch := (hformed _ (List.mem_cons_of_mem _ List.mem_cons_self)).2
    generalize hitems : Piece.token ⟨.delimiter, 1, "<>"⟩ :: qs = items at hstretch
    cases hstretch with
    | stretch opens ends accepted inner outer =>
      cases opens with
      | fragment =>
        cases ends with
        | none =>
          rw [List.append_nil] at hitems
          rw [(List.cons.inj hitems).2]
          exact inner
  · intro p hp
    exact (hformed p (List.mem_cons_of_mem _ (List.mem_cons_of_mem _ hp))).2

end JsxEdit.Piece
