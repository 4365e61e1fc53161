import JsxEdit.Proofs.Adjacent
import JsxEdit.Proofs.TagRun

/-
Where the elements of a document stand in its text.

The events of a text hold those of every element in it, one after the other, and the run over the text stands in the tag
of an element after its name.
-/
set_option autoImplicit false

namespace JsxEdit

namespace Piece

open Scan (eventsFrom)

/-! ## The events of an element -/

theorem level_endsStretches {n : Nat} {es : List Event} (h : EndsStretches n es) : Scan.level n es = some 0 := by
  induction es generalizing n with
  | nil =>
    cases n with
    | zero => rfl
    | succ n => cases h
  | cons e es ih =>
    cases n with
    | zero => cases h
    | succ n => cases e <;> exact ih h

theorem endsStretches_tokens {n : Nat} {ts es : List Event} (hts : ∀ e ∈ ts, ∃ t, e = .token t)
    (h : EndsStretches (n + 1) es) : EndsStretches (n + 1) (ts ++ es) := by
  induction ts with
  | nil => exact h
  | cons e ts ih =>
    rw [List.forall_mem_cons] at hts
    obtain ⟨⟨t, rfl⟩, hts⟩ := hts
    exact ih hts

/-- What is nested from events that end a stretch at their very end is that stretch. -/
theorem nest_closed {mode : Mode} {es : List Event} (h : EndsStretches 1 es) (hsolid : Solid (.enter mode :: es)) :
    ∃ q, q.events = .enter mode :: es ∧ ∀ more, nest [] [(mode, [])] (es ++ more) = q :: nest [] [] more := by
  obtain ⟨qs, hrun⟩ := nest_endsStretches h
  have hnest (more : List Event) : nest [] [(mode, [])] (es ++ more) = nest (close mode qs.reverse []) [] more := by
    have hzero := hrun 0 mode [] [] [] more
    rwa [Event.map_shift_zero, map_shift_zero, List.append_nil] at hzero
  have hevents : allEvents (nest [] [(mode, [])] es) = .enter mode :: es :=
    @allEvents_nest [] [(mode, [])] es (level_endsStretches h) hsolid
  have halone := hnest []
  rw [List.append_nil] at halone
  rw [halone] at hevents
  cases hqs : qs.reverse with
  | nil =>
    rw [hqs] at hevents
    cases hevents
  | cons q qs' =>
    rw [hqs] at hevents
    refine ⟨.stretch mode (q :: qs').reverse, ?_, fun more => ?_⟩
    · rw [← allEvents_singleton]
      exact hevents
    · rw [hnest, hqs, nest_root]
      rfl

/-- The events of markup that can be read stand together among those of the text. -/
theorem exists_events {text : String} {q : Piece} (h : q ∈ allMarkups (ofText text))
    (hvalid : ∀ n, Markup.part q = .leaf (.node n) → n.kind.isInvalid = false) :
    ∃ es₁ es₂, Scan.events text = es₁ ++ (q.events ++ es₂) := by
  cases origin_of_nest h with
  | here mem => cases mem
  | around mem => cases mem
  | opened found => simp at found
  | @entered es₁ es₂ mode more split hmode nested =>
    obtain ⟨a, w, m, around, hdrop, hm, hmove, hes⟩ := eventsFrom_enter hmode split
    rw [Nat.zero_add] at hes
    obtain ⟨hplace, hstack⟩ := Scan.nested_of_markup? hm hmove
    cases hclosed : Scan.closesAfter? [mode] (some '<') (m.length - 1) w with
    | none =>
      have hhead : nest [] [] (m.events a ('<' :: w) ++
          eventsFrom (mode :: around) (some '<') (a + 1) (m.length - 1) [] w) = q :: more := by
        rw [← hes]
        exact nested
      have hopen : Unclosed ('<' :: w) := ⟨w, m, mode, rfl, hm, hmove, hclosed⟩
      obtain ⟨p, n, hpart, hinvalid, hclose⟩ := hopen.nest_events hm hmove around a [] []
      rw [hclose] at hhead
      obtain ⟨hp, -⟩ := List.cons.inj hhead
      rw [hvalid n (hp ▸ hpart)] at hinvalid
      cases hinvalid
    | some k =>
      -- the run over the markup, and the run over what follows
      obtain ⟨v, r, rfl, rfl⟩ : ∃ v r, w = v ++ r ∧ v.length = k :=
        ⟨w.take k, w.drop k, (List.take_append_drop k w).symm,
          List.length_take_of_le (Scan.closesAfter?_endsAngle hstack hclosed).1⟩
      obtain ⟨before', hrun⟩ := Scan.eventsFrom_closed hstack hclosed around (a + 1) []
      have hends := Scan.endsStretches_closed (a + 1) [] hstack (Scan.closesAfter?_alone hstack hclosed)
      have hdepth : Scan.depth [mode] = 1 := by rcases hplace with rfl | rfl <;> rfl
      have hevents : m.events a ('<' :: (v ++ r)) = .enter mode :: Scan.tokens a ('<' :: (v ++ r)) m.parts := by
        unfold Scan.Match.events
        rcases hplace with rfl | rfl <;> rw [hmove]
      rw [hdepth] at hends
      have htokens : ∀ e ∈ Scan.tokens a ('<' :: (v ++ r)) m.parts, ∃ t, e = .token t := fun e he => Scan.mem_tokens he
      have hinner := endsStretches_tokens htokens hends
      rw [show mode :: around = [mode] ++ around from rfl, hrun, hevents, List.cons_append, ← List.append_assoc,
        List.cons.injEq] at hes
      obtain rfl := hes.2
      have hsolid : Solid (.enter mode :: (Scan.tokens a ('<' :: (v ++ r)) m.parts ++
          eventsFrom [mode] (some '<') (a + 1) (m.length - 1) [] v)) := by
        have hall : Solid (Scan.events text) := (Scan.Stand.run_solid .start text.toList).1
        rw [split] at hall
        exact hall.right_of_append.left_of_append
      obtain ⟨q', hq', hnest⟩ := nest_closed hinner hsolid
      rw [hnest] at nested
      obtain ⟨rfl, -⟩ := List.cons.inj nested
      exact ⟨es₁, _, by rw [split, hq', List.cons_append]⟩

end Piece

/-! ## The run over an opening tag -/

theorem Text.namePart_of_name {kind : NameKind} {cs : List Char} (h : nameLength? kind cs = some cs.length) :
    ∃ w c, cs = w ++ [c] ∧ isNamePart c = true := by
  have htail (cs : List Char) (h : nameTail kind cs = cs.length) : cs = [] ∨ ∃ w c, cs = w ++ [c] ∧ isNamePart c = true := by
    induction cs using nameTail.induct kind with
    | case1 => exact .inl rfl
    | case2 c hc => exact .inr ⟨[], c, rfl, hc⟩
    | case3 c hc => simp [nameTail, hc] at h
    | case4 c d cs hc ih =>
      rw [Scan.nameTail_cons hc, List.length_cons, Nat.add_right_cancel_iff] at h
      obtain ⟨w, e, heq, he⟩ := (ih h).resolve_left (List.cons_ne_nil _ _)
      exact .inr ⟨c :: w, e, by rw [heq, List.cons_append], he⟩
    | case5 c d cs hc hd ih =>
      rw [nameTail, if_neg hc, if_pos hd, List.length_cons, List.length_cons, Nat.add_right_cancel_iff] at h
      right
      rcases ih h with rfl | ⟨w, e, rfl, he⟩
      · exact ⟨[c], d, rfl, (Bool.and_eq_true_iff.mp hd).2⟩
      · exact ⟨c :: d :: w, e, rfl, he⟩
    | case6 c d cs hc hd => simp [nameTail, hc, hd] at h
  cases cs with
  | nil => cases h
  | cons c cs =>
    rw [nameLength?] at h
    split at h
    · next hc =>
      rcases htail cs (Nat.succ.inj (Option.some.inj h)) with rfl | ⟨w, e, rfl, he⟩
      · exact ⟨[], c, rfl, isNamePart_of_isNameStart hc⟩
      · exact ⟨c :: w, e, rfl, he⟩
    · cases h

namespace Scan.Stand

/-- A match that enters a tag is an angle and a name. -/
theorem match_of_enter {s : Stand} {c : Char} {w : List Char} {m : Match} (hm : s.matched? (c :: w) = some m) {pos : Nat}
    {p q : List Event} (hevents : m.events pos (c :: w) = p ++ .enter .tag :: q) : c = '<' ∧ p = [] ∧
      ∃ n, m = ⟨[(.delimiter, 1), (.tagName, n)], .enter .tag⟩ ∧ Text.nameLength? .tag w = some n ∧
        q = tokens pos (c :: w) [(.delimiter, 1), (.tagName, n)] := by
  have hmem : Event.enter .tag ∈ m.events pos (c :: w) := by
    rw [hevents]
    exact List.mem_append_right _ List.mem_cons_self
  obtain ⟨hmove, htokens⟩ := (Piece.events_enter rfl m _ _).resolve_right (not_not.mpr hmem)
  have hmarkup := Piece.markup?_of_match hm rfl hmove
  obtain ⟨rest, heq, hcases⟩ := markup?_cases hmarkup
  obtain ⟨rfl, -⟩ := List.cons.inj heq
  obtain ⟨n, rfl⟩ : ∃ n, m = ⟨[(.delimiter, 1), (.tagName, n)], .enter .tag⟩ := by
    rcases hcases with rfl | hcases
    · cases hmove
    · exact hcases
  have hname : Text.nameLength? .tag w = some n := by
    unfold markup? at hmarkup
    split at hmarkup
    · cases hmarkup
    · obtain ⟨k, hk, heq⟩ := Option.map_eq_some_iff.mp hmarkup
      cases heq
      exact hk
  rw [htokens] at hevents
  cases p with
  | nil => exact ⟨rfl, rfl, n, rfl, hname, (List.cons.inj hevents).2.symm⟩
  | cons e p =>
    obtain ⟨u, hu⟩ := mem_tokens (show Event.enter .tag ∈ tokens pos ('<' :: w) [(.delimiter, 1), (.tagName, n)] by
      rw [(List.cons.inj hevents).2]
      exact List.mem_append_right _ List.mem_cons_self)
    cases hu

/-- After the name of an element the run stands in its tag. -/
theorem exists_inTag {s : Stand} {cs : List Char} {es₁ es₂ : List Event} (h : s.run cs = es₁ ++ .enter .tag :: es₂) :
    ∃ x r around t u, cs = x ++ r ∧ s.brings r x = es₁ ++ [.enter .tag, .token t, .token u] ∧
      InTag around (s.after r x) ∧ es₂ = .token t :: .token u :: (s.after r x).run r ∧
      ∃ y c, x = y ++ [c] ∧ Text.isNamePart c = true := by
  have hnot : ¬ IsPending (.enter .tag) := fun ⟨_, heq, _⟩ => by cases heq
  obtain ⟨x, c, w, m, hcut, p, q, hevents, rfl, rfl⟩ := exists_cut h hnot
  obtain ⟨rfl, rfl, n, rfl, hname, rfl⟩ := match_of_enter hcut.matched hevents
  have hlength : (w.take n).length = n := List.length_take_of_le (nameLength?_le hname)
  have hstep := step_match hcut.skip hcut.matched
  rw [hevents] at hstep
  generalize hs₁ : (s.after ('<' :: w) x).step '<' w = s₁ at hstep
  have hskip₁ : s₁.2.skip = (w.take n).length := by
    rw [hstep, hlength]
    exact Nat.add_sub_cancel_left 1 n
  obtain ⟨hnone, hstack, hskip, hpending⟩ := passes_skip (r := w.drop n) hskip₁
  have hbrings : s.brings (w.drop n) (x ++ '<' :: w.take n) = s.brings ('<' :: w) x ++ s₁.1 ∧
      s.after (w.drop n) (x ++ '<' :: w.take n) = s₁.2.after (w.drop n) (w.take n) := by
    rw [brings_append, after_append, List.cons_append, List.take_append_drop]
    refine ⟨congrArg _ ?_, ?_⟩
    · show ((s.after ('<' :: w) x).step '<' (w.take n ++ w.drop n)).1 ++
        (((s.after ('<' :: w) x).step '<' (w.take n ++ w.drop n)).2.brings (w.drop n) (w.take n)) = _
      rw [List.take_append_drop, hs₁, hnone, List.append_nil]
    · show ((s.after ('<' :: w) x).step '<' (w.take n ++ w.drop n)).2.after (w.drop n) (w.take n) = _
      rw [List.take_append_drop, hs₁]
  refine ⟨x ++ '<' :: w.take n, w.drop n, settle ('<' :: w) (s.after ('<' :: w) x).stack,
    ⟨.delimiter, (s.after ('<' :: w) x).pos, "<"⟩, ⟨.tagName, (s.after ('<' :: w) x).pos + 1, .ofList (w.take n)⟩,
    ?_, ?_, ?_, ?_, ?_⟩
  · rw [hcut.text, List.append_assoc, List.cons_append, List.take_append_drop]
  · rw [hbrings.1, hstep, List.append_nil, List.append_assoc]
    rfl
  · rw [hbrings.2]
    refine ⟨?_, hskip, ?_, ?_⟩
    · rw [hstack, hstep]
      rfl
    · rw [hpending, hstep]
    · refine pos_after_ne ?_ _ _
      rw [hstep]
      exact Nat.succ_ne_zero _
  · have hrun := run_append s₁.2 (w.take n) (w.drop n)
    rw [List.take_append_drop, hnone, List.nil_append] at hrun
    rw [hbrings.2, ← hrun]
    rfl
  · obtain ⟨y, c, hy, hc⟩ := Text.namePart_of_name (nameLength?_take hname)
    exact ⟨x ++ '<' :: y, c, by rw [hy, List.append_assoc, List.cons_append], hc⟩

end Scan.Stand
end JsxEdit
