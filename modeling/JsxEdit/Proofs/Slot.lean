import JsxEdit.Proofs.TagRun

/-
Object literals in the braces of an attribute, in the text and as parts.

Two pairs of braces stand around the properties. A run over the tag comes upon the properties inside both, so that they can
be read elsewhere if the object literal is kept.
-/
set_option autoImplicit false

namespace JsxEdit

open Judged (AllSound)

/-! ## Braces and what is between them -/

theorem token_of_part {q : Piece} {t : Token} (h : (Markup.part q).token? = some t) : q = .token t := by
  cases q with
  | token u =>
    rw [Markup.part] at h
    exact congrArg _ (Option.some.inj h)
  | stretch mode items =>
    rw [Markup.part] at h
    cases mode <;> cases h

/-- Parts between braces. -/
theorem asGroup_closed {t : Token} (ht : t.text = "\x7d") (h : Token) (ps : List Part) :
    Part.asGroup ["\x7d"] (.leaf (.token h) :: (ps ++ [.leaf (.token t)])) =
      .group ⟨h, Part.allLeaves ps, some t, Part.reading ps, Part.asObject ps⟩ := by
  have htail : Option.filter (["\x7d"].contains ·.text) (some t) = some t := by simp [Option.filter, ht]
  have hlast : ((Part.leaf (.token h) :: (ps ++ [.leaf (.token t)])).getLast?.bind Part.token?) = some t := by
    rw [← List.cons_append, List.getLast?_concat]
    rfl
  unfold Part.asGroup
  simp only [hlast, htail, List.length_cons, List.length_append, List.length_nil, List.drop_succ_cons, List.drop_zero,
    List.dropLast_concat, List.head?_cons]
  simp [Part.token?, Leaf.token?]

theorem inside_closed {t : Token} (ht : t.text = "\x7d") (x : Judged) (xs : List Judged) :
    Judged.inside ["\x7d"] (x :: (xs ++ [Tag.ofToken t])) = xs := by
  have hlast : ((x :: (xs ++ [Tag.ofToken t])).getLast?.bind (·.part.token?)) = some t := by
    rw [← List.cons_append, List.getLast?_concat]
    rfl
  unfold Judged.inside
  simp [hlast, ht]

/-- What a stretch of braces is, from what is between them. -/
theorem judge_braces {t : Token} (ht : t.text = "\x7d") (h : Token) (ps : List Piece) :
    (judge (.stretch .braces (.token h :: (ps ++ [.token t])))).part =
        .group ⟨h, Part.allLeaves (Markup.allParts ps), some t, Part.reading (Markup.allParts ps),
          Part.asObject (Markup.allParts ps)⟩ ∧
      (judge (.stretch .braces (.token h :: (ps ++ [.token t])))).reading = Judged.keepsExpression (judgeAll ps) ∧
      (judge (.stretch .braces (.token h :: (ps ++ [.token t])))).object = Judged.keepsObject (judgeAll ps) := by
  have hall : judgeAll (.token h :: (ps ++ [.token t])) = Tag.ofToken h :: (judgeAll ps ++ [Tag.ofToken t]) := by
    rw [judgeAll, Judged.judgeAll_append]
    rfl
  rw [judge, hall]
  simp only [Judged.ofStretch, Judged.ofGroup, inside_closed ht, and_self, and_true]
  rw [Judged.parts, List.map_cons, List.map_append, ← Judged.parts, Judged.parts_judgeAll]
  exact asGroup_closed ht h (Markup.allParts ps)

/-- A stretch of braces that is closed. -/
theorem exists_closed {items : List Piece} (hformed : Piece.Formed (.stretch .braces items)) {g : Group}
    (hg : Markup.part (.stretch .braces items) = .group g) (htail : g.tail.isSome = true) :
    ∃ h ps t, items = .token h :: (ps ++ [.token t]) ∧ t.text = "\x7d" ∧ ∀ p ∈ ps, p.Accepts .braces ∧ p.Formed := by
  cases hformed with
  | @stretch _ first its last opens ends accepted inner outer =>
    cases opens with
    | @braces h =>
      cases ends with
      | none =>
        rw [List.append_nil] at hg ⊢
        rw [Markup.part, Markup.assemble, Part.asGroup, Markup.allParts_eq_map, List.getLast?_map] at hg
        obtain rfl := Part.group.inj hg
        dsimp only at htail
        split at htail
        · next hlength =>
          obtain ⟨t, htail⟩ := Option.isSome_iff_exists.mp htail
          obtain ⟨htoken, htext⟩ := Option.filter_eq_some_iff.mp htail
          obtain ⟨p, hp, ht⟩ := Option.bind_eq_some_iff.mp htoken
          obtain ⟨q, hq, rfl⟩ := Option.map_eq_some_iff.mp hp
          obtain rfl := token_of_part ht
          obtain ⟨ps, rfl⟩ | rfl : (∃ ps, its = ps ++ [.token t]) ∨ its = [] := by
            cases its using List.reverseRecOn with
            | nil => exact .inr rfl
            | append_singleton ps p =>
              rw [← List.append_assoc, List.getLast?_concat] at hq
              exact .inl ⟨ps, by rw [Option.some.inj hq]⟩
          · exact ⟨h, ps, t, rfl, by simpa using htext, fun p hp =>
              ⟨accepted p (List.mem_append_left _ hp), inner p (List.mem_append_left _ hp)⟩⟩
          · simp at hlength
        · cases htail

/-! ## The object literal in a value -/

theorem kind?_ne_object {text trailing : String} : Expression.kind? text ≠ some (.object trailing) := by
  unfold Expression.kind?
  dsimp only
  repeat' split
  all_goals simp

theorem kind_ofText {text trailing : String} : (Expression.ofText text).kind ≠ .object trailing := by
  unfold Expression.ofText
  dsimp only
  split
  · next k hk =>
    rintro rfl
    exact kind?_ne_object hk
  · rintro h
    cases h

/-- The parts that are read as an object literal are one stretch of braces with white space around it. -/
theorem exists_object {ps : List Piece} {o : Node} {trailing : String} (ho : o.kind = .object trailing)
    (h : (Part.reading (Markup.allParts ps)).node = some o) : ∃ before q after g, ps = before ++ q :: after ∧
      (∀ p ∈ before ++ after, ∃ t, p = .token t ∧ Text.isBlank t.text = true) ∧ Markup.part q = .group g ∧
      g.head.text = "\x7b" ∧ g.tail.isSome = true ∧ g.object = some o ∧
      Part.object? (Markup.allParts ps) = some o ∧ Leaf.AllTokens (Part.allLeaves (Markup.allParts ps)) := by
  unfold Part.reading at h
  split at h
  · cases Option.some.inj h
    cases ho
  · next text htext =>
    split at h
    · cases h
    · obtain h := Option.some.inj h
      have hobject : Part.object? (Markup.allParts ps) = some o := by
        cases hobject : Part.object? (Markup.allParts ps) with
        | some o' =>
          rw [hobject, Option.getD_some] at h
          rw [h]
        | none =>
          rw [hobject, Option.getD_none] at h
          rw [← h] at ho
          exact absurd ho kind_ofText
      have hgroup := hobject
      unfold Part.object? at hgroup
      split at hgroup
      · next g hfilter =>
        split at hgroup
        · next hends =>
          rw [Bool.and_eq_true, beq_iff_eq] at hends
          rw [Markup.allParts_eq_map, List.filter_map] at hfilter
          obtain ⟨q, rest, hq, hpart, hrest⟩ := List.map_eq_cons_iff.mp hfilter
          rw [List.map_eq_nil_iff.mp hrest] at hq
          obtain ⟨before, after, rfl, hbefore, -, hafter⟩ := List.filter_eq_cons_iff.mp hq
          refine ⟨before, q, after, g, rfl, fun p hp => ?_, hpart, hends.1, hends.2, hgroup, hobject,
            (Leaf.tokenText?_eq_some htext).1⟩
          have hblank : (Markup.part p).isBlank = true := by
            rcases List.mem_append.mp hp with hp | hp
            · simpa using hbefore p hp
            · simpa using List.filter_eq_nil_iff.mp hafter p hp
          obtain ⟨t, ht, hblank⟩ := (Option.any_eq_true _ _).mp hblank
          exact ⟨t, token_of_part ht, hblank⟩
        · cases hgroup
      · cases hgroup

theorem braces_of_head {q : Piece} (hq : Piece.Formed q) {g : Group} (hg : Markup.part q = .group g)
    (hhead : g.head.text = "\x7b") : ∃ items, q = .stretch .braces items := by
  cases q with
  | token t => cases hg
  | stretch mode items =>
    cases hq with
    | @stretch _ first its last opens ends accepted inner outer =>
      cases opens with
      | braces => exact ⟨_, rfl⟩
      | group text | template text =>
        rw [Markup.part, Markup.assemble, List.append_assoc, Markup.allParts_eq_map, List.map_append] at hg
        obtain rfl := Part.group.inj hg
        exact absurd hhead text
      | _ => rw [Markup.part] at hg; cases hg

open Scan (Nested) in
/-- A run that comes upon the value of an attribute comes upon the properties of the object literal that it is. -/
theorem exists_atItem {around : List Mode} {s : Scan.Stand} (h : s.InTag around) {cs : List Char} {items : List Piece}
    {es : List Event} (hrun : s.run cs = (Piece.stretch .braces items).events ++ es) (hunread : s.unread cs = [])
    {a b : Nat} (hcloses : s.closes a b cs = true) (ha : a ≤ s.pos)
    (hb : s.pos + (Event.allText (Piece.stretch .braces items).events).length ≤ b)
    (hformed : Piece.Formed (.stretch .braces items)) {g : Group}
    (hg : Markup.part (.stretch .braces items) = .group g) (htail : g.tail.isSome = true) {o : Node} {trailing : String}
    (ho : o.kind = .object trailing) (hreading : g.reading.node = some o)
    (hkept : (judge (.stretch .braces items)).reading = true) : ∃ s' cs' ps t es',
      AtItem a b [.braces, .tag] around s' cs' ps t es' ∧ Part.asObject (Judged.parts (judgeAll ps)) = some o ∧
        Judged.keepsObject (judgeAll ps) = true := by
  obtain ⟨head, mid, t, rfl, ht, hmid⟩ := exists_closed hformed hg htail
  obtain ⟨hpart, hread, -⟩ := judge_braces ht head mid
  rw [Judged.part_judge, hg] at hpart
  obtain rfl := Part.group.inj hpart
  rw [hread] at hkept
  obtain ⟨before, q, after, g, rfl, hblank, hq, hhead, htail', hobject, hobject?, htokens⟩ := exists_object ho hreading
  have hqmem : q ∈ before ++ q :: after := List.mem_append_right _ List.mem_cons_self
  obtain ⟨items, rfl⟩ := braces_of_head (hmid q hqmem).2 hq hhead
  obtain ⟨head', mid', t', rfl, ht', hmid'⟩ := exists_closed (hmid _ hqmem).2 hq htail'
  obtain ⟨hpart', -, hobjects⟩ := judge_braces ht' head' mid'
  rw [Judged.part_judge, hq] at hpart'
  obtain rfl := Part.group.inj hpart'
  obtain ⟨rest, hrest, hlength⟩ : ∃ rest, s.run cs = Piece.allEvents [] ++ .enter .braces :: .token head ::
      (Piece.allEvents before ++ .enter .braces :: .token head' :: (Piece.allEvents mid' ++ .token t' :: .leave :: rest)) ∧
      (Event.allText es).length ≤ (Event.allText rest).length := by
    refine ⟨Piece.allEvents after ++ [.token t, .leave] ++ es, ?_, ?_⟩
    · rw [hrun]
      simp only [Piece.events, Piece.allEvents, Piece.allEvents_append, List.append_assoc, List.cons_append, List.nil_append]
    · rw [Scan.allText_append, List.length_append]
      exact Nat.le_add_left _ _
  obtain ⟨s₁, w₁, hs₁, hrun₁, hunread₁, hcloses₁, hstart₁, hpos₁⟩ :=
    Scan.Stand.exists_inside (show s.stack = [.tag] ++ around from h.stack)
    h.inText .tag (show Mode.tag ≠ .markup ∧ Mode.tag ≠ .template by decide) hrest hunread hcloses h.skip h.pending
  obtain ⟨s₂, w₂, hs₂, hrun₂, hunread₂, hcloses₂, hstart₂, hpos₂⟩ := Scan.Stand.exists_inside
    (show s₁.stack = [.braces, .tag] ++ around from hs₁.stack) hs₁.inText (.inside (by decide) .tag)
    (show Mode.braces ≠ .markup ∧ Mode.braces ≠ .template by decide) hrun₁ hunread₁ hcloses₁ hs₁.skip hs₁.pending
  refine ⟨s₂, w₂, mid', t', _, ⟨hs₂, .inside (by decide) (.inside (by decide) .tag), hrun₂, .inr ht',
    Scan.Stand.kind_before_leave hrun₂, hunread₂, hcloses₂, ha.trans (hstart₁.trans hstart₂), ?_, hmid', ?_⟩, ?_, ?_⟩
  · -- the properties are within the two pairs of braces
    have hpos := hpos₂.trans hpos₁
    rw [← hrest, hrun, Scan.allText_append, Scan.allText_append, List.length_append, List.length_append] at hpos
    have hinner : (Event.allText rest).length ≤ (Event.allText (.token t' :: .leave :: rest)).length := by
      show _ ≤ (t'.text.toList ++ Event.allText rest).length
      rw [List.length_append]
      exact Nat.le_add_left _ _
    omega
  · intro l hl
    refine htokens l (List.mem_flatMap.mpr ⟨_, Piece.mem_allParts hqmem, ?_⟩)
    rw [hq]
    exact List.mem_cons_of_mem _ (List.mem_append_left _ hl)
  · rw [Judged.parts_judgeAll]
    exact hobject
  · rw [← hobjects]
    dsimp only at hreading
    rw [Part.reading, Leaf.tokenText?_of_allTokens htokens] at hreading
    rw [Judged.keepsExpression, Judged.parts_judgeAll, Leaf.tokenText?_of_allTokens htokens, hobject?] at hkept
    dsimp only at hreading hkept
    split at hreading
    · cases hreading
    · next hblank =>
      rw [Bool.or_eq_true, List.all_eq_true] at hkept
      have hall := hkept.resolve_left hblank (judge (.stretch .braces (.token head' :: (mid' ++ [.token t']))))
        (by rw [Likeness.judgeAll_eq_map]; exact List.mem_map_of_mem hqmem)
      rw [Judged.part_judge, hq, Bool.or_eq_true] at hall
      exact hall.resolve_left Bool.false_ne_true

end JsxEdit
