import JsxEdit.Proofs.Halt
import JsxEdit.Proofs.Recall

/-
Runs over opening tags.

Where a value is put into a tag, the run stands in the tag, and nothing is open above it. A value in braces brings a
stretch of its own, and the run stands in the tag after it as before.
-/
set_option autoImplicit false

namespace JsxEdit.Scan

open Piece (allEvents)

/-! ## No announcement stands over a tag -/

/-- The lowest of the modes is none that was only announced. -/
def Grounded (inner : List Mode) : Prop := ∀ mode ∈ inner.getLast?, mode ≠ .markup

theorem Grounded.nil : Grounded [] := fun _ h => nomatch h

theorem Grounded.settle {inner : List Mode} (h : Grounded inner) (cs : List Char) : Grounded (settle cs inner) := by
  induction inner with
  | nil => exact h
  | cons mode inner ih =>
    cases hmode : decide (mode = .markup) with
    | false =>
      have hne : current (mode :: inner) ≠ .markup := of_decide_eq_false hmode
      rw [Piece.Opened.settle_eq cs hne]
      exact h
    | true =>
      obtain rfl := of_decide_eq_true hmode
      rw [Scan.settle]
      split
      · exact h
      · cases inner with
        | nil => exact ih (fun _ h => by cases h)
        | cons mode inner => exact ih h

theorem Grounded.drop {inner : List Mode} (h : Grounded inner) (n : Nat) : Grounded (inner.drop n) := by
  intro mode hmode
  rw [List.getLast?_drop] at hmode
  split at hmode
  · cases hmode
  · exact h mode hmode

namespace Stand

variable {around inner inner' : List Mode} {s : Stand}

theorem grounded_step (h : Grounded inner) (hstack : s.stack = inner ++ .tag :: around) {c : Char} {cs : List Char}
    (hafter : (s.step c cs).2.stack = inner' ++ .tag :: around) : Grounded inner' := by
  have hsettle : Scan.settle (c :: cs) s.stack = Scan.settle (c :: cs) inner ++ .tag :: around := by
    rw [hstack, settle_append (show current (Mode.tag :: around) ≠ .markup from by simp [current])]
  have hgrounded := h.settle (c :: cs)
  generalize Scan.settle (c :: cs) inner = settled at hsettle hgrounded
  cases hk : s.skip with
  | succ k =>
    rw [step_skip hk] at hafter
    rwa [← List.append_cancel_right (hstack.symm.trans hafter)]
  | zero =>
    cases hm : s.matched? (c :: cs) with
    | none =>
      rw [step_none hk hm, hsettle] at hafter
      rwa [← List.append_cancel_right hafter]
    | some m =>
      rw [step_match hk hm, hsettle] at hafter
      unfold matched? at hm
      rw [hsettle] at hm
      cases hmove : m.move with
      | stay =>
        rw [hmove] at hafter
        rwa [← List.append_cancel_right hafter]
      | enter mode =>
        rw [hmove] at hafter
        have heq : mode :: settled = inner' := List.append_cancel_right hafter
        rw [← heq]
        cases settled with
        | cons mode' settled => exact hgrounded
        | nil =>
          rintro mode' hmode' rfl
          obtain rfl := Option.some.inj hmode'
          -- nothing is announced in a tag
          cases rule_of_match hm with
          | announce pos script => cases script
          | _ => cases hmove
      | leave n =>
        rw [hmove] at hafter
        have heq : (settled ++ .tag :: around).drop n = inner' ++ .tag :: around := hafter
        rw [List.drop_append] at heq
        have hlength := congrArg List.length heq
        simp only [List.length_append, List.length_drop, List.length_cons] at hlength
        have hzero : n - settled.length = 0 := by omega
        rw [hzero, List.drop_zero] at heq
        rw [← List.append_cancel_right heq]
        exact hgrounded.drop n

/-- In a tag, whatever the run passes over that closes what it opens leaves the tag as it was. -/
theorem grounded_passage {n : Nat} {r : List Char} (h : Grounded inner) (hstack : s.stack = inner ++ .tag :: around)
    (hnested : Nested (inner ++ [.tag])) (hpos : s.pos ≠ 0) {x : List Char}
    (hlevel : level (depth inner) (s.brings r x) = some n) :
    ∃ inner', (s.after r x).stack = inner' ++ .tag :: around ∧ Grounded inner' ∧ depth inner' = n := by
  induction x generalizing s inner with
  | nil => exact ⟨inner, hstack, h, Option.some.inj hlevel⟩
  | cons c x ih =>
    rw [brings] at hlevel
    obtain ⟨k, hstep, hrest⟩ := exists_level hlevel
    have hbeside : Beside inner ([.tag] ++ around) ([.tag] ++ around) s s := ⟨hstack, hstack, rfl, rfl, rfl, hpos, hpos⟩
    obtain ⟨-, inner₁, hafter, hnested₁, rfl⟩ := hbeside.step hnested (List.cons_ne_nil _ _)
      (show Mode.tag ≠ .markup by decide) rfl c (x ++ r) hstep
    exact ih (grounded_step h hstack hafter.stack) hafter.stack hnested₁ hafter.inText.1 hrest

theorem eq_nil_of_grounded (h : Grounded inner) (hdepth : depth inner = 0) : inner = [] := by
  cases hlast : inner.getLast? with
  | none => exact List.getLast?_eq_none_iff.mp hlast
  | some mode =>
    have hmem := List.mem_of_getLast? hlast
    have hall := List.countP_eq_zero.mp hdepth mode hmem
    exact absurd (by simpa using hall) (h mode hlast)

/-! ## Between the parts of a tag -/

/-- The run is in a tag, after one of its parts. -/
structure InTag (around : List Mode) (s : Stand) : Prop where
  stack : s.stack = .tag :: around
  skip : s.skip = 0
  pending : s.pending = []
  inText : s.pos ≠ 0

/-- A run that goes on after some parts of a tag goes on with a match in the tag. -/
theorem InTag.exists_match (h : InTag around s) {cs : List Char} {ps : List Piece} {e : Event} {es : List Event}
    (hrun : s.run cs = allEvents ps ++ e :: es) (he : Begins e)
    (hvalid : ∀ p ∈ ps, ∀ t, p = .token t → t.kind ≠ .invalid) :
    ∃ x c w m, cs = x ++ c :: w ∧ s.brings (c :: w) x = allEvents ps ∧ InTag around (s.after (c :: w) x) ∧
      tag? (c :: w) = some m ∧
      e :: es = m.events (s.after (c :: w) x).pos (c :: w) ++ ((s.after (c :: w) x).step c w).2.run w := by
  obtain ⟨x, c, w, m, inner, hstop⟩ := Stand.exists_stop (h.stack : s.stack = [.tag] ++ around) h.inText .tag
    (show Mode.tag ≠ .markup by decide) hrun he
  have hlevel : level 0 (s.brings (c :: w) x) = some 0 := by
    have hall := Piece.level_allEvents 0 [] ps
    rw [List.append_nil, hstop.events] at hall
    obtain ⟨k, hk, hpends⟩ := exists_level hall
    rw [pends, level_pendingToken] at hpends
    rw [hk, Option.some.inj hpends]
  obtain ⟨inner', hstack, hgrounded, hdepth⟩ :=
    grounded_passage .nil h.stack .tag h.inText hlevel
  obtain rfl := eq_nil_of_grounded hgrounded hdepth
  have hcurrent : current (settle (c :: w) (s.after (c :: w) x).stack) = .tag := by
    rw [hstack, List.nil_append, Piece.Opened.settle_eq _ (show current (Mode.tag :: around) ≠ .markup by simp [current])]
    rfl
  have hpends : (s.after (c :: w) x).pends (c :: w) =
      pendingToken .tag (s.after (c :: w) x).pos (s.after (c :: w) x).pending := by
    rw [pends, hcurrent]
  -- characters that were passed over would be an invalid token
  have hpending : (s.after (c :: w) x).pending = [] := by
    cases hpending : (s.after (c :: w) x).pending with
    | nil => rfl
    | cons d pending =>
      have hevents := hstop.events
      rw [hpends, hpending] at hevents
      obtain ⟨qs, rfl, -⟩ := Piece.split_last hevents
      exact absurd rfl (hvalid _ (List.mem_append_right _ List.mem_cons_self) _ rfl)
  have hevents : allEvents ps = s.brings (c :: w) x := by
    rw [hstop.events, hpends, hpending]
    exact List.append_nil _
  have hmatched := hstop.cut.matched
  rw [matched?, hcurrent] at hmatched
  exact ⟨x, c, w, m, hstop.cut.text, hevents.symm, ⟨hstack, hstop.cut.skip, hpending, hstop.inText⟩, hmatched, hstop.rest⟩

/-- A run that goes on after some parts of a tag stands in the tag there. -/
theorem InTag.exists_stop (h : InTag around s) {cs : List Char} {ps : List Piece} {e : Event} {es : List Event}
    (hrun : s.run cs = allEvents ps ++ e :: es) (he : Begins e)
    (hvalid : ∀ p ∈ ps, ∀ t, p = .token t → t.kind ≠ .invalid) :
    ∃ x r, cs = x ++ r ∧ r ≠ [] ∧ s.brings r x = allEvents ps ∧ InTag around (s.after r x) ∧
      (s.after r x).run r = e :: es := by
  obtain ⟨x, c, w, m, rfl, hbrings, hin, -⟩ := h.exists_match hrun he hvalid
  refine ⟨x, c :: w, rfl, List.cons_ne_nil _ _, hbrings, hin, ?_⟩
  rw [run_append, hbrings] at hrun
  exact List.append_cancel_left hrun

/-! ## Values in braces -/

/-- Where nothing but announced markup is open above, either that comes, or what was announced is dropped. -/
theorem settle_of_depth {inner base : List Mode} (hdepth : depth inner = 0) (hbase : current base ≠ .markup)
    (cs : List Char) : settle cs (inner ++ base) = base ∨ current (settle cs (inner ++ base)) = .markup := by
  induction inner with
  | nil => exact .inl (Piece.Opened.settle_eq cs hbase)
  | cons mode inner ih =>
    have hall := List.countP_eq_zero.mp hdepth
    obtain rfl : mode = .markup := by simpa using hall mode List.mem_cons_self
    rw [List.cons_append, settle]
    split
    · exact .inr rfl
    · exact ih (List.countP_eq_zero.mpr fun mode hmode => hall mode (List.mem_cons_of_mem _ hmode))

theorem settle_brace {inner base : List Mode} (hdepth : depth inner = 0) (hbase : current base ≠ .markup) {c : Char}
    (hc : c = '\x7b' ∨ c = '\x7d') (w : List Char) : settle (c :: w) (inner ++ base) = base := by
  induction inner with
  | nil => exact Piece.Opened.settle_eq _ hbase
  | cons mode inner ih =>
    have hall := List.countP_eq_zero.mp hdepth
    obtain rfl : mode = .markup := by simpa using hall mode List.mem_cons_self
    have hnone : match? .markup false none (c :: w) = none := by rcases hc with rfl | rfl <;> rfl
    rw [List.cons_append, settle, hnone]
    exact ih (List.countP_eq_zero.mpr fun mode hmode => hall mode (List.mem_cons_of_mem _ hmode))

/-- Where a stretch of braces comes next, the run goes on inside it. -/
theorem Stop.opens {st : List Mode} {cs : List Char} {ps : List Piece} {es : List Event} {x : List Char} {c : Char}
    {w : List Char} {m : Match} (h : Stop s (st ++ around) cs ps (.enter .braces :: es) x c w m inner) (hst : st ≠ [])
    (hmode : current st ≠ .markup ∧ current st ≠ .template) : c = '\x7b' ∧
      (s.after w (x ++ [c])).At (.braces :: (st ++ around)) ∧
      ∃ t, t.text = .ofList [c] ∧ es = .token t :: (s.after w (x ++ [c])).run w := by
  have hcurrent : current (st ++ around) = current st := by
    cases st with
    | nil => exact absurd rfl hst
    | cons mode st => rfl
  have hbase : current (st ++ around) ≠ .markup := hcurrent ▸ hmode.1
  have hmatched := h.cut.matched
  rw [matched?, h.stack] at hmatched
  have hafter := step_match h.cut.skip h.cut.matched
  rw [h.stack] at hafter
  have hrest := h.rest
  have hstep : s.after w (x ++ [c]) = ((s.after (c :: w) x).step c w).2 := by
    rw [after_append]
    rfl
  rw [hstep]
  rw [hafter] at hrest ⊢
  have hplace : current (settle (c :: w) (inner ++ (st ++ around))) ≠ .template := by
    rcases settle_of_depth h.depth hbase (c :: w) with hsettle | hmarkup
    · rw [hsettle, hcurrent]
      exact hmode.2
    · rw [hmarkup]
      decide
  cases rule_of_match hmatched with
  | braces text =>
    obtain rfl : c = '\x7b' := (List.cons.inj text).1
    refine ⟨rfl, ⟨?_, by show atWordStart (some '\x7b') = true; decide, Nat.succ_ne_zero _, rfl, rfl⟩,
      ⟨.delimiter, _, .ofList ['\x7b']⟩, rfl, (List.cons.inj hrest).2⟩
    show .braces :: settle _ _ = _
    rw [settle_brace h.depth hbase (.inl rfl)]
  | substitution place => exact absurd place hplace
  | _ => simp [Match.events, tokens] at hrest

/-- A run comes into the stretch of braces that is next. -/
theorem exists_inside {st : List Mode} {cs : List Char} {ps : List Piece} {t : Token} {es : List Event}
    (hstack : s.stack = st ++ around) (hpos : s.pos ≠ 0) (hnested : Nested st)
    (hmode : current st ≠ .markup ∧ current st ≠ .template)
    (hrun : s.run cs = allEvents ps ++ .enter .braces :: .token t :: es) (hunread : s.unread cs = [])
    {a b : Nat} (hcloses : s.closes a b cs = true) (hskip : s.skip = 0) (hpending : s.pending = []) :
    ∃ s' w, At (.braces :: (st ++ around)) s' ∧ s'.run w = es ∧ s'.unread w = [] ∧ s'.closes a b w = true ∧
      s.pos ≤ s'.pos ∧ s'.pos + (Event.allText es).length =
        s.pos + (Event.allText (allEvents ps ++ .enter .braces :: .token t :: es)).length := by
  have hbegins : Begins (.enter .braces) := ⟨(by rintro ⟨u, hu, -⟩; cases hu), nofun, by decide⟩
  obtain ⟨x, c, w, m, inner, hstop⟩ := Stand.exists_stop hstack hpos hnested hmode.1 hrun hbegins
  obtain ⟨rfl, hat, u, hu, heq⟩ := hstop.opens hnested.ne_nil hmode
  have hcs : cs = (x ++ ['\x7b']) ++ w := by rw [hstop.cut.text, List.append_assoc]; rfl
  have htext := hstop.allText_eq hskip hpending hunread
  rw [hcs] at hunread hcloses
  obtain ⟨htoken, rfl⟩ := List.cons.inj heq
  obtain rfl := Event.token.inj htoken
  refine ⟨_, w, hat, rfl, (brings_covers hunread hat.skip).2, closes_after hcloses,
    by rw [pos_after]; exact Nat.le_add_right _ _, ?_⟩
  have hbrace : Event.allText (.enter .braces :: .token t :: (s.after w (x ++ ['\x7b'])).run w) =
      '\x7b' :: Event.allText ((s.after w (x ++ ['\x7b'])).run w) := by
    show t.text.toList ++ _ = _
    rw [hu]
    rfl
  rw [allText_append, hbrace, htext, pos_after]
  simp only [List.length_append, List.length_cons, List.length_nil]
  omega

/-- What ends an expression is a bracket or a backtick. -/
theorem kind_of_leave {mode : Mode} {atStart : Bool} {before : Option Char} {cs : List Char} {kind : TokenKind} {n : Nat}
    (h : match? mode atStart before cs = some ⟨[(kind, n)], .leave 1⟩)
    (hmode : mode = .braces ∨ mode = .group ∨ mode = .template) : kind = .delimiter ∨ kind = .template := by
  have hone {kind' : TokenKind} {n' : Nat} (h : one kind' n' (.leave 1) = some ⟨[(kind, n)], .leave 1⟩) : kind = kind' := by
    injection one_eq h with hparts
    exact (Prod.mk.inj (List.cons.inj hparts).1).1
  have hnone {kind' : TokenKind} {n' : Nat} {move : Move} (hmove : move ≠ .leave 1)
      (h : one kind' n' move = some ⟨[(kind, n)], .leave 1⟩) : False := by
    injection one_eq h with _ heq
    exact hmove heq.symm
  have hexpression {closers : List Char} (h : expression? closers before cs = some ⟨[(kind, n)], .leave 1⟩) :
      kind = .delimiter := by
    unfold expression? at h
    split at h
    · cases h
    · split at h
      · exact hone h
      · rcases orElse_some h with hlead | h
        · obtain ⟨k, -, hm⟩ := Option.bind_eq_some_iff.mp hlead
          exact (hnone (by decide) hm).elim
        · split at h
          · exact (hnone (by decide) h).elim
          · split at h
            · exact (hnone (by decide) h).elim
            · split at h
              · exact (hnone (by decide) h).elim
              · rcases literal?_spec h with ⟨_, _, heq⟩ | ⟨heq, -⟩
                · injection heq with _ hmove
                  cases hmove
                · injection heq with _ hmove
                  cases hmove
  rcases hmode with rfl | rfl | rfl
  · exact .inl (hexpression h)
  · exact .inl (hexpression h)
  · right
    unfold match? template? at h
    dsimp only at h
    split at h
    · cases h
    · exact hone h
    all_goals first
      | exact (hnone (by decide) h).elim
      | cases h

/-- The token before the end of a stretch is one of a match. -/
theorem kind_before_leave {cs : List Char} {es₁ es₂ : List Event} {t : Token}
    (h : s.run cs = es₁ ++ .token t :: .leave :: es₂) : t.kind ≠ .text ∧ t.kind ≠ .invalid := by
  have h' : s.run cs = (es₁ ++ [.token t]) ++ .leave :: es₂ := by rw [h, List.append_assoc]; rfl
  obtain ⟨x, c, w, m, hcut, p, q, hp, hes, -⟩ := exists_cut h' (by rintro ⟨u, hu, -⟩; cases hu)
  have hlast (u : Token) (hu : p = [.token u]) : t = u := by
    rw [hu] at hes
    exact Event.token.inj (List.cons.inj (List.append_inj_right' hes rfl)).1
  have hone {kind : TokenKind} {n : Nat} (hm : m.events (s.after (c :: w) x).pos (c :: w) =
      [.token ⟨kind, (s.after (c :: w) x).pos, .ofList ((c :: w).take n)⟩, .leave]) : t.kind = kind := by
    rw [hm] at hp
    cases p with
    | nil => cases hp
    | cons f p =>
      obtain ⟨hf, hp⟩ := List.cons.inj hp
      cases p with
      | nil =>
        subst hf
        exact congrArg Token.kind (hlast _ rfl)
      | cons g p => simp at hp
  have hkind {kind : TokenKind} (heq : t.kind = kind) (hkind : kind = .delimiter ∨ kind = .template) :
      t.kind ≠ .text ∧ t.kind ≠ .invalid := by
    rw [heq]
    rcases hkind with rfl | rfl <;> decide
  have hmatched := hcut.matched
  cases rule_of_match hcut.matched with
  | selfClose => exact hkind (hone rfl) (.inl rfl)
  | closeFragment => exact hkind (hone rfl) (.inl rfl)
  | closeExpression place => exact hkind (hone rfl) (kind_of_leave hmatched place)
  | @closeElement n =>
    have hevents : (⟨[(.delimiter, n)], .leave 2⟩ : Match).events (s.after (c :: w) x).pos (c :: w) =
      [.token ⟨.delimiter, (s.after (c :: w) x).pos, .ofList ((c :: w).take n)⟩, .leave, .leave] := rfl
    rw [hevents] at hp
    cases p with
    | nil => cases hp
    | cons f p =>
      obtain ⟨hf, hp⟩ := List.cons.inj hp
      cases p with
      | nil =>
        subst hf
        exact hkind (congrArg Token.kind (hlast _ rfl)) (.inl rfl)
      | cons g p =>
        -- then the element would end after a leave, and not after the token
        obtain ⟨rfl, hp⟩ := List.cons.inj hp
        cases p with
        | nil =>
          have hlast := congrArg List.getLast? hes
          simp at hlast
        | cons => simp at hp
  | _ =>
    have hmem : Event.leave ∈ p ++ .leave :: q := List.mem_append_right _ List.mem_cons_self
    rw [← hp] at hmem
    simp [Match.events, tokens] at hmem

end Stand
end JsxEdit.Scan
