import JsxEdit.Proofs.Slot

/-
What is kept inside of what is kept.

A text that is written as it was read is so in every element in it, wherever in the others that stands.
-/
set_option autoImplicit false

namespace JsxEdit

open Piece (allEvents allMarkups)

namespace Piece

mutual

theorem enter_of_markups {q : Piece} : (p : Piece) → q ∈ p.markups → ∃ e ∈ p.events, ¬ Scan.Stand.Unmarked e
  | .token _, h => by cases h
  | .stretch mode items, h => by
    rw [markups, List.mem_append] at h
    rcases h with h | h
    · split at h
      · next hmode =>
        refine ⟨.enter mode, List.mem_cons_self, fun hun => ?_⟩
        rcases opensMarkup_iff.mp hmode with rfl | rfl
        · exact hun.1 rfl
        · exact hun.2 rfl
      · cases h
    · obtain ⟨e, he, hmarked⟩ := enter_of_allMarkups items h
      exact ⟨e, List.mem_cons_of_mem _ (List.mem_append_left _ he), hmarked⟩

theorem enter_of_allMarkups {q : Piece} : (ps : List Piece) → q ∈ allMarkups ps → ∃ e ∈ allEvents ps, ¬ Scan.Stand.Unmarked e
  | [], h => by cases h
  | p :: ps, h => by
    rw [allMarkups, List.mem_append] at h
    rw [allEvents]
    rcases h with h | h
    · obtain ⟨e, he, hmarked⟩ := enter_of_markups p h
      exact ⟨e, List.mem_append_left _ he, hmarked⟩
    · obtain ⟨e, he, hmarked⟩ := enter_of_allMarkups ps h
      exact ⟨e, List.mem_append_right _ he, hmarked⟩

end

/-- Where there is markup, not all is tokens. -/
theorem not_tokens_of_markups {p q : Piece} (h : Formed p) (hcontent : ∀ items, p ≠ .stretch .content items)
    (hq : q ∈ p.markups) : ¬ Leaf.AllTokens (Markup.part p).leaves := by
  intro htokens
  obtain ⟨e, he, hmarked⟩ := enter_of_markups p hq
  exact hmarked (unmarked_events h hcontent htokens e he)

end Piece

/-- What is between the brackets of a group is its pieces, perhaps but for a token at their end. -/
theorem inside_judgeAll (closers : List String) (p : Piece) (ps : List Piece) : ∃ qs,
    Judged.inside closers (judgeAll (p :: ps)) = judgeAll qs ∧ (ps = qs ∨ ∃ t, ps = qs ++ [.token t]) := by
  cases ps using List.reverseRecOn with
  | nil =>
    refine ⟨[], ?_, .inl rfl⟩
    simp [Judged.inside, judgeAll]
  | append_singleton ps q =>
    have hlast : (judge p :: (judgeAll ps ++ [judge q])).getLast? = some (judge q) := by
      rw [← List.cons_append, List.getLast?_concat]
    have hlength : (judge p :: (judgeAll ps ++ [judge q])).length > 1 := by simp
    rw [judgeAll, Judged.judgeAll_append, judgeAll, judgeAll]
    unfold Judged.inside
    rw [if_pos hlength, hlast, Option.bind_some]
    cases htail : (judge q).part.token?.filter (closers.contains ·.text) with
    | none =>
      refine ⟨ps ++ [q], ?_, .inl rfl⟩
      rw [Judged.judgeAll_append]
      rfl
    | some t =>
      refine ⟨ps, ?_, .inr ⟨t, ?_⟩⟩
      · exact List.dropLast_concat
      · obtain ⟨htoken, -⟩ := Option.filter_eq_some_iff.mp htail
        rw [Judged.part_judge] at htoken
        rw [token_of_part htoken]

/-- Braces that are kept as a value keep the markup between them. -/
theorem markup_of_reading {items : List Piece} (h : Piece.Formed (.stretch .braces items))
    (hkept : (judge (.stretch .braces items)).reading = true)
    (hitems : ∀ p ∈ items, (judge p).markup = true → ∀ q ∈ p.markups, (judge q).markup = true) :
    ∀ q ∈ (Piece.stretch .braces items).markups, (judge q).markup = true := by
  intro q hq
  rcases Piece.mem_markups_stretch hq with ⟨hmode, -⟩ | ⟨p, hp, hqp⟩
  · cases hmode
  cases h with
  | @stretch _ first its last opens ends accepted inner outer =>
    cases opens with
    | @braces t =>
      cases ends
      rw [List.append_nil] at hp hkept hitems
      have hits : p ∈ its := by
        rcases List.mem_cons.mp hp with rfl | hp
        · cases hqp
        · exact hp
      obtain ⟨qs, hinside, hqs⟩ := inside_judgeAll ["\x7d"] (.token t) its
      have hmem : p ∈ qs := by
        rcases hqs with rfl | ⟨u, rfl⟩
        · exact hits
        · rcases List.mem_append.mp hits with hits | hits
          · exact hits
          · obtain rfl := List.mem_singleton.mp hits
            cases hqp
      have hexpression : Judged.keepsExpression (judgeAll qs) = true := by
        rw [← hinside]
        exact hkept
      -- an expression with markup in it is no text
      have hnone : Leaf.tokenText? (Part.allLeaves (Judged.parts (judgeAll qs))) = none := by
        cases htext : Leaf.tokenText? (Part.allLeaves (Judged.parts (judgeAll qs))) with
        | none => rfl
        | some text =>
          have hcontent : ∀ items, p ≠ .stretch .content items := by
            rintro items rfl
            exact (accepted _ hits).1 rfl
          refine absurd (fun l hl => (Leaf.tokenText?_eq_some htext).1 l ?_)
            (Piece.not_tokens_of_markups (inner p hits) hcontent hqp)
          rw [Judged.parts_judgeAll]
          exact List.mem_flatMap.mpr ⟨_, Piece.mem_allParts hmem, hl⟩
      rw [Judged.keepsExpression, hnone] at hexpression
      refine hitems p hp ?_ q hqp
      rw [Likeness.judgeAll_eq_map] at hexpression
      exact List.all_eq_true.mp hexpression _ (List.mem_map_of_mem hmem)

theorem keepsInTag_of_mem {name : String} {afterEquals : Bool} {xs : List Judged} (h : Judged.keepsTag name afterEquals xs = true)
    {x : Judged} (hx : x ∈ xs) : ∃ b, x.keepsInTag name b = true := by
  induction xs generalizing afterEquals with
  | nil => cases hx
  | cons y ys ih =>
    rw [Judged.keepsTag, Bool.and_eq_true] at h
    rcases List.mem_cons.mp hx with rfl | hx
    · exact ⟨_, h.1⟩
    · exact ih h.2 hx

/-- A part with markup that is kept in content is kept as braces or as markup. -/
theorem kept_in_content {p q : Piece} (haccepts : p.Accepts .content) (hkeeps : (judge p).keepsInContent = true)
    (hq : q ∈ p.markups) : (∃ its, p = .stretch .braces its ∧ (judge p).reading = true) ∨ (judge p).markup = true := by
  cases p with
  | token t => cases hq
  | stretch inner its =>
    rcases haccepts with rfl | rfl | ⟨rfl, -⟩
    · exact .inr hkeeps
    · exact .inr hkeeps
    · exact .inl ⟨its, rfl, hkeeps⟩

/-- A part with markup that is kept in a tag is kept as braces, or as the content after the tag. -/
theorem kept_in_tag {name : String} {items last : List Piece} (haccepts : ∀ p ∈ items, p.Accepts .tag)
    (hends : Piece.Ends .tag last) (hkept : Judged.keepsTag name false (judgeAll (items ++ last)) = true) {p q : Piece}
    (hp : p ∈ items ++ last) (hq : q ∈ p.markups) :
    (p ∈ items ∧ ∃ its, p = .stretch .braces its ∧ (judge p).reading = true) ∨ (judge p).markup = true := by
  have hjudged : judge p ∈ judgeAll (items ++ last) := by
    rw [Likeness.judgeAll_eq_map]
    exact List.mem_map_of_mem hp
  obtain ⟨b, hb⟩ := keepsInTag_of_mem hkept hjudged
  cases p with
  | token t => cases hq
  | stretch inner its =>
    rcases List.mem_append.mp hp with hp | hp
    · obtain ⟨rfl, -⟩ := haccepts _ hp
      exact .inl ⟨hp, its, rfl, (Bool.and_eq_true_iff.mp hb).1⟩
    · cases hends with
      | none | selfClosing | opened => simp at hp
      | content kind text =>
        obtain ⟨rfl, rfl⟩ : inner = .content ∧ _ := by simpa using hp
        exact .inr (Bool.and_eq_true_iff.mp hb).1

/-- What is kept as markup keeps the markup in it, and so do braces that are kept as a value. -/
theorem markup_inside {p : Piece} (h : Piece.Formed p) :
    ((judge p).markup = true → ∀ q ∈ p.markups, (judge q).markup = true) ∧
      (∀ items, p = .stretch .braces items → (judge p).reading = true → ∀ q ∈ p.markups, (judge q).markup = true) := by
  induction h with
  | token t => exact ⟨fun _ q hq => (nomatch hq), fun items heq => (nomatch heq)⟩
  | @stretch mode first items last opens ends accepted inner outer ihinner ihouter =>
    have hfirst {p : Piece} (hp : p ∈ first) : p.markups = [] := by
      obtain ⟨t, rfl⟩ := Likeness.token_of_opens opens hp
      rfl
    have hall : ∀ p ∈ first ++ items ++ last, (judge p).markup = true → ∀ q ∈ p.markups, (judge q).markup = true := by
      intro p hp
      rcases List.mem_append.mp hp with hp | hp
      · rcases List.mem_append.mp hp with hp | hp
        · exact fun _ q hq => by rw [hfirst hp] at hq; cases hq
        · exact (ihinner p hp).1
      · exact (ihouter p hp).1
    refine ⟨fun hkept q hq => ?_, fun items' heq hreading => ?_⟩
    · rcases Piece.mem_markups_stretch hq with ⟨-, rfl⟩ | ⟨p, hp, hqp⟩
      · exact hkept
      have hinside : p ∈ items ++ last := by
        rw [List.append_assoc] at hp
        rcases List.mem_append.mp hp with hp | hp
        · rw [hfirst hp] at hqp
          cases hqp
        · exact hp
      have hmem : judge p ∈ judgeAll (first ++ items ++ last) := by
        rw [Likeness.judgeAll_eq_map]
        exact List.mem_map_of_mem hp
      -- as what the stretch keeps the part
      have hcases : (p ∈ items ∧ ∃ its, p = .stretch .braces its ∧ (judge p).reading = true) ∨ (judge p).markup = true := by
        cases opens with
        | @tag angle name text isName =>
          rw [List.append_assoc] at hkept
          exact kept_in_tag accepted ends hkept hinside hqp
        | content =>
          cases ends
          rw [List.append_nil] at hinside
          exact (kept_in_content (accepted p hinside) (List.all_eq_true.mp hkept _ hmem) hqp).imp_left (⟨hinside, ·⟩)
        | fragment text =>
          cases ends
          rw [List.append_nil] at hinside
          exact (kept_in_content (accepted p hinside) (List.all_eq_true.mp (Bool.and_eq_true_iff.mp hkept).1 _ hmem)
            hqp).imp_left (⟨hinside, ·⟩)
        | braces | group | template =>
          cases ends
          exact .inr (List.all_eq_true.mp hkept _ hmem)
      rcases hcases with ⟨hmem, its, hpart, hreading⟩ | hmarkup
      · exact (ihinner p hmem).2 its hpart hreading q hqp
      · exact hall p hp hmarkup q hqp
    · obtain ⟨rfl, rfl⟩ := Piece.stretch.inj heq
      exact markup_of_reading (.stretch opens ends accepted inner outer) hreading hall

/-- A text that is kept keeps every element and fragment in it. -/
theorem markup_of_keeps {text : String} (h : keeps text = true) : ∀ q ∈ allMarkups (Piece.ofText text),
    (judge q).markup = true := by
  intro q hq
  obtain ⟨p, hp, hqp⟩ := Piece.mem_allMarkups.mp hq
  rw [keeps, Bool.and_eq_true, Likeness.judgeAll_eq_map, List.all_map] at h
  exact (markup_inside (Piece.ofText_formed text p hp).2).1 (List.all_eq_true.mp h.2 p hp) q hqp

end JsxEdit
