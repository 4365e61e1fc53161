import JsxEdit.Proofs.Enclosed

/-
Runs of the scanner over a part of a text, with what comes after it in view.

A run stands somewhere in the text: it has modes open, and may be in the middle of a match. Passing over some characters
brings events and leads to another such place. Where events come from can be said in these terms: an event that is in the
run of a text stands at one character of it, and the run up to there is a passage. And a passage that ends no stretch that
was open before does not depend on what those are, nor on where in the text it is.
-/
set_option autoImplicit false

namespace JsxEdit

/-- The event without its position. -/
def Event.blind : Event → Event
  | .token t => .token { t with pos := 0 }
  | e => e

namespace Scan

/-- Where a run stands: the open modes, the character before, the position, how much of the last match is still to come,
and the unmatched characters before the position, last one first. -/
structure Stand where
  stack : List Mode
  before : Option Char
  pos : Nat
  skip : Nat
  pending : List Char

namespace Stand

/-- The start of a text. -/
def start : Stand := ⟨[], none, 0, 0, []⟩

/-- The events of the rest of a text from here on. -/
def run (s : Stand) (cs : List Char) : List Event := eventsFrom s.stack s.before s.pos s.skip s.pending cs

/-- The match that the rest of a text starts with. -/
def matched? (s : Stand) (cs : List Char) : Option Match :=
  match? (current (settle cs s.stack)) (s.pos == 0) s.before cs

/-- The token of the unmatched characters before a match. -/
def pends (s : Stand) (cs : List Char) : List Event := pendingToken (current (settle cs s.stack)) s.pos s.pending

/-- What the next character brings, and where the run stands after it. -/
def step (s : Stand) (c : Char) (cs : List Char) : List Event × Stand :=
  match s.skip with
  | skip + 1 => ([], { s with before := some c, pos := s.pos + 1, skip := skip })
  | 0 =>
    match s.matched? (c :: cs) with
    | some m =>
      (s.pends (c :: cs) ++ m.events s.pos (c :: cs),
        ⟨m.move.apply (settle (c :: cs) s.stack), some c, s.pos + 1, m.length - 1, []⟩)
    | none => ([], ⟨settle (c :: cs) s.stack, some c, s.pos + 1, 0, c :: s.pending⟩)

/-- What passing over the characters brings if `r` comes after them. -/
def brings (r : List Char) (s : Stand) : List Char → List Event
  | [] => []
  | c :: cs => (s.step c (cs ++ r)).1 ++ brings r (s.step c (cs ++ r)).2 cs

/-- Where the run stands after passing over the characters if `r` comes after them. -/
def after (r : List Char) (s : Stand) : List Char → Stand
  | [] => s
  | c :: cs => after r (s.step c (cs ++ r)).2 cs

theorem run_cons (s : Stand) (c : Char) (cs : List Char) :
    s.run (c :: cs) = (s.step c cs).1 ++ (s.step c cs).2.run cs := by
  obtain ⟨stack, before, pos, skip, pending⟩ := s
  cases skip with
  | succ skip => rfl
  | zero =>
    unfold run step matched?
    rw [eventsFrom]
    dsimp only
    cases match? (current (settle (c :: cs) stack)) (pos == 0) before (c :: cs) <;> rfl

/-- The run over a text is the passage over its first part and the run over the rest. -/
theorem run_append (s : Stand) (x r : List Char) : s.run (x ++ r) = s.brings r x ++ (s.after r x).run r := by
  induction x generalizing s with
  | nil => rfl
  | cons c x ih => rw [List.cons_append, run_cons, ih, brings, after, List.append_assoc]

theorem after_append (s : Stand) (x y r : List Char) : s.after r (x ++ y) = (s.after (y ++ r) x).after r y := by
  induction x generalizing s with
  | nil => rfl
  | cons c x ih => rw [List.cons_append, after, after, List.append_assoc, ih]

theorem brings_append (s : Stand) (x y r : List Char) :
    s.brings r (x ++ y) = s.brings (y ++ r) x ++ (s.after (y ++ r) x).brings r y := by
  induction x generalizing s with
  | nil => rfl
  | cons c x ih => rw [List.cons_append, brings, brings, after, List.append_assoc, ih, List.append_assoc]

theorem step_skip {s : Stand} {k : Nat} (h : s.skip = k + 1) (c : Char) (cs : List Char) :
    s.step c cs = ([], { s with before := some c, pos := s.pos + 1, skip := k }) := by
  unfold step
  rw [h]

theorem step_match {s : Stand} {c : Char} {cs : List Char} {m : Match} (h : s.skip = 0)
    (hm : s.matched? (c :: cs) = some m) : s.step c cs =
      (s.pends (c :: cs) ++ m.events s.pos (c :: cs),
        ⟨m.move.apply (settle (c :: cs) s.stack), some c, s.pos + 1, m.length - 1, []⟩) := by
  unfold step
  rw [h]
  dsimp only
  rw [hm]

theorem step_none {s : Stand} {c : Char} {cs : List Char} (h : s.skip = 0) (hm : s.matched? (c :: cs) = none) :
    s.step c cs = ([], ⟨settle (c :: cs) s.stack, some c, s.pos + 1, 0, c :: s.pending⟩) := by
  unfold step
  rw [h]
  dsimp only
  rw [hm]

theorem pos_step (s : Stand) (c : Char) (cs : List Char) : (s.step c cs).2.pos = s.pos + 1 := by
  cases hskip : s.skip with
  | succ k => rw [step_skip hskip]
  | zero =>
    cases hm : s.matched? (c :: cs) with
    | none => rw [step_none hskip hm]
    | some m => rw [step_match hskip hm]

theorem pos_after (s : Stand) (r x : List Char) : (s.after r x).pos = s.pos + x.length := by
  induction x generalizing s with
  | nil => rfl
  | cons c x ih => rw [after, ih, pos_step, List.length_cons, Nat.add_assoc, Nat.add_comm 1]

/-- A match that is not at its end where a passage ends was there at its start, or the passage is longer. -/
theorem skip_le {r x : List Char} {s : Stand} (h : (s.after r x).skip = 0) : s.skip ≤ x.length := by
  induction x generalizing s with
  | nil => exact Nat.le_of_eq h
  | cons c x ih =>
    cases hskip : s.skip with
    | zero => exact Nat.zero_le _
    | succ k =>
      rw [after, step_skip hskip] at h
      exact Nat.succ_le_succ (ih h)

/-- A match that a passage starts with is over where the passage ends in no match. -/
theorem match_le {r x : List Char} {c : Char} {s : Stand} {m : Match} (h : (s.after r (c :: x)).skip = 0)
    (hs : s.skip = 0) (hm : s.matched? (c :: (x ++ r)) = some m) : m.length ≤ (c :: x).length := by
  rw [after, step_match hs hm] at h
  have hle := skip_le h
  exact Nat.le_trans (Nat.le_succ_of_pred_le hle) (Nat.le_refl _)

/-! ## Where an event comes from -/

/-- The tokens of unmatched characters. -/
def IsPending (e : Event) : Prop := ∃ t : Token, e = .token t ∧ (t.kind = .text ∨ t.kind = .invalid)

theorem isPending_of_mem {mode : Mode} {pos : Nat} {pending : List Char} {e : Event}
    (h : e ∈ pendingToken mode pos pending) : IsPending e := by
  unfold pendingToken at h
  split at h
  · next kind hkind =>
    split at h
    · cases h
    · rw [List.mem_singleton.mp h]
      refine ⟨_, rfl, ?_⟩
      cases mode <;> cases hkind <;> first | exact .inl rfl | exact .inr rfl
  · cases h

/-- An event of two runs is one of the first or of the second. -/
theorem split_append {e : Event} {as bs es₁ es₂ : List Event} (h : as ++ bs = es₁ ++ e :: es₂) :
    (∃ cs, es₁ = as ++ cs ∧ bs = cs ++ e :: es₂) ∨ ∃ cs, as = es₁ ++ e :: cs ∧ es₂ = cs ++ bs := by
  rcases List.append_eq_append_iff.mp h with ⟨cs, hes, hbs⟩ | ⟨cs, has, hbs⟩
  · exact .inl ⟨cs, hes, hbs⟩
  · cases cs with
    | nil => exact .inl ⟨[], by rw [has, List.append_nil, List.append_nil], hbs.symm⟩
    | cons e' cs =>
      obtain ⟨rfl, hes₂⟩ := List.cons.inj hbs
      exact .inr ⟨cs, has, hes₂⟩

/-- A place in a text where a match starts, with the passage that leads there. -/
structure Cut (s : Stand) (cs : List Char) (x : List Char) (c : Char) (w : List Char) (m : Match) : Prop where
  text : cs = x ++ c :: w
  skip : (s.after (c :: w) x).skip = 0
  matched : (s.after (c :: w) x).matched? (c :: w) = some m

/-- An event other than the token of unmatched characters is one of those of a match. -/
theorem exists_cut {s : Stand} {cs : List Char} {es₁ es₂ : List Event} {e : Event} (h : s.run cs = es₁ ++ e :: es₂)
    (he : ¬ IsPending e) : ∃ x c w m, Cut s cs x c w m ∧ ∃ p q,
      m.events (s.after (c :: w) x).pos (c :: w) = p ++ e :: q ∧
      es₁ = s.brings (c :: w) x ++ (s.after (c :: w) x).pends (c :: w) ++ p ∧
      es₂ = q ++ ((s.after (c :: w) x).step c w).2.run w := by
  induction cs generalizing s es₁ with
  | nil =>
    have hmem : e ∈ s.run [] := h ▸ List.mem_append_right _ List.mem_cons_self
    rw [run, eventsFrom] at hmem
    exact absurd (isPending_of_mem hmem) he
  | cons c cs ih =>
    rw [run_cons] at h
    rcases split_append h with ⟨as, rfl, hrest⟩ | ⟨as, hstep, rfl⟩
    · obtain ⟨x, c', w, m, ⟨htext, hskip, hm⟩, p, q, hp, rfl, hes₂⟩ := ih hrest
      subst htext
      refine ⟨c :: x, c', w, m, ⟨rfl, hskip, hm⟩, p, q, hp, ?_, hes₂⟩
      rw [brings, after]
      simp only [List.append_assoc]
    · have hmem : e ∈ (s.step c cs).1 := hstep ▸ List.mem_append_right _ List.mem_cons_self
      cases hskip : s.skip with
      | succ k =>
        rw [step_skip hskip] at hmem
        cases hmem
      | zero =>
        cases hm : s.matched? (c :: cs) with
        | none =>
          rw [step_none hskip hm] at hmem
          cases hmem
        | some m =>
          refine ⟨[], c, cs, m, ⟨rfl, hskip, hm⟩, ?_⟩
          rw [step_match hskip hm] at hstep
          rcases split_append hstep with ⟨bs, hes₁, hevents⟩ | ⟨bs, hpending, -⟩
          · exact ⟨bs, as, hevents, hes₁, rfl⟩
          · exact absurd (isPending_of_mem (hpending ▸ List.mem_append_right _ List.mem_cons_self)) he

end Stand

/-! ## Open stretches -/

/-- How many stretches are open after the events if there were `n` before; nothing if more are ended than there are. -/
def level : Nat → List Event → Option Nat
  | n, [] => some n
  | n, .token _ :: es => level n es
  | n, .enter _ :: es => level (n + 1) es
  | 0, .leave :: _ => none
  | n + 1, .leave :: es => level n es

theorem level_append (n : Nat) (es fs : List Event) : level n (es ++ fs) = (level n es).bind (level · fs) := by
  fun_induction level n es with
  | case1 n => rfl
  | case2 n t es ih => exact ih
  | case3 n mode es ih => exact ih
  | case4 es => rfl
  | case5 n es ih => exact ih

theorem level_pendingToken (n : Nat) (mode : Mode) (pos : Nat) (pending : List Char) :
    level n (pendingToken mode pos pending) = some n := by
  unfold pendingToken
  split
  · split <;> rfl
  · rfl

/-- The events up to a place where no stretch was ended that was open before. -/
theorem exists_level {n k : Nat} {es fs : List Event} (h : level n (es ++ fs) = some k) :
    ∃ m, level n es = some m ∧ level m fs = some k := by
  rw [level_append] at h
  exact Option.bind_eq_some_iff.mp h

theorem settle_append {base : List Mode} (h : current base ≠ .markup) (cs : List Char) (inner : List Mode) :
    settle cs (inner ++ base) = settle cs inner ++ base := by
  induction inner with
  | nil => exact Piece.Opened.settle_eq cs h
  | cons mode inner ih =>
    by_cases hmode : mode = .markup
    · subst hmode
      rw [List.cons_append, settle, settle]
      split
      · rfl
      · exact ih
    · rw [Piece.Opened.settle_eq cs (show current ((mode :: inner) ++ base) ≠ .markup from hmode),
        Piece.Opened.settle_eq cs (show current (mode :: inner) ≠ .markup from hmode)]

theorem current_append {base base' : List Mode} (h : current base' = current base) (inner : List Mode) :
    current (inner ++ base') = current (inner ++ base) := by
  cases inner with
  | nil => exact h
  | cons mode inner => rfl

theorem drop_of_depth {inner st : List Mode} {n : Nat} (hmode : current (inner ++ st) ≠ .markup)
    (hn : depth inner = n + 1) : ∃ mode inner', inner = mode :: inner' ∧ depth inner' = n := by
  cases inner with
  | nil => cases hn
  | cons mode inner' =>
    rw [depth_cons (show mode ≠ .markup from hmode)] at hn
    exact ⟨mode, inner', rfl, Nat.succ.inj hn⟩

/-- A match that ends no stretch outside leaves the modes there alone. -/
theorem apply_append {inner st : List Mode} {cs : List Char} {m : Match} {pos n : Nat} (hstack : Nested (inner ++ st))
    (hst : st ≠ []) (rule : Rule (current (inner ++ st)) cs m) (h : level (depth inner) (m.events pos cs) = some n) :
    ∃ inner', (∀ base, m.move.apply (inner ++ base) = inner' ++ base) ∧ depth inner' = n ∧ Nested (inner' ++ st) := by
  have hnested {inner' : List Mode} (heq : m.move.apply (inner ++ st) = inner' ++ st) : Nested (inner' ++ st) := by
    refine (heq ▸ (hstack.step rule).1).resolve_left fun hnil => hst ?_
    exact (List.append_eq_nil_iff.mp hnil).2
  have hleave {kind : TokenKind} {k : Nat} (hm : m = ⟨[(kind, k)], .leave 1⟩) (hmode : current (inner ++ st) ≠ .markup) :
      ∃ inner', (∀ base, m.move.apply (inner ++ base) = inner' ++ base) ∧ depth inner' = n ∧ Nested (inner' ++ st) := by
    subst hm
    cases hdepth : depth inner with
    | zero =>
      rw [hdepth] at h
      cases h
    | succ k =>
      rw [hdepth] at h
      cases h
      obtain ⟨mode, inner', rfl, hinner⟩ := drop_of_depth hmode hdepth
      exact ⟨inner', fun base => rfl, hinner, hnested rfl⟩
  cases rule with
  | token => exact ⟨inner, fun base => rfl, Option.some.inj h, hnested rfl⟩
  | announce => exact ⟨.markup :: inner, fun base => rfl, Option.some.inj h, hnested rfl⟩
  | fragment => exact ⟨.fragment :: inner, fun base => rfl, (depth_cons (by decide) _).trans (Option.some.inj h), hnested rfl⟩
  | tag => exact ⟨.tag :: inner, fun base => rfl, (depth_cons (by decide) _).trans (Option.some.inj h), hnested rfl⟩
  | content => exact ⟨.content :: inner, fun base => rfl, (depth_cons (by decide) _).trans (Option.some.inj h), hnested rfl⟩
  | braces => exact ⟨.braces :: inner, fun base => rfl, (depth_cons (by decide) _).trans (Option.some.inj h), hnested rfl⟩
  | substitution => exact ⟨.braces :: inner, fun base => rfl, (depth_cons (by decide) _).trans (Option.some.inj h), hnested rfl⟩
  | group => exact ⟨.group :: inner, fun base => rfl, (depth_cons (by decide) _).trans (Option.some.inj h), hnested rfl⟩
  | template => exact ⟨.template :: inner, fun base => rfl, (depth_cons (by decide) _).trans (Option.some.inj h), hnested rfl⟩
  | selfClose text place => exact hleave rfl (by rw [place]; decide)
  | closeFragment _ fits place => exact hleave rfl (by rw [place]; decide)
  | closeExpression place => exact hleave rfl (by rcases place with h | h | h <;> rw [h] <;> decide)
  | closeElement _ fits place =>
    -- the content stands over its tag, and both are ended
    cases hdepth : depth inner with
    | zero =>
      rw [hdepth] at h
      cases h
    | succ k =>
      obtain ⟨mode, inner', rfl, hinner⟩ := drop_of_depth (by rw [place]; decide) hdepth
      rw [hdepth] at h
      cases k with
      | zero => cases h
      | succ k =>
        cases h
        obtain rfl : mode = .content := place
        have htag : current (inner' ++ st) = .tag := by
          generalize heq : Mode.content :: inner' ++ st = stack at hstack
          cases hstack with
          | tag => cases heq
          | fragment => cases heq
          | @content stack below =>
            rw [show inner' ++ st = .tag :: stack from (List.cons.inj heq).2]
            rfl
          | inside place' => exact absurd (List.cons.inj heq).1.symm place'.1
        obtain ⟨mode, inner'', rfl, hinner'⟩ := drop_of_depth (by rw [htag]; decide) hinner
        exact ⟨inner'', fun base => rfl, hinner', hnested rfl⟩

/-! ## Passages inside a stretch -/

theorem match?_before {before before' : Option Char} (h : atWordStart before' = atWordStart before) (mode : Mode)
    (atStart : Bool) (cs : List Char) : match? mode atStart before' cs = match? mode atStart before cs := by
  cases mode <;> simp only [match?, expression?, lead?, leadLength?, h]

theorem tokens_blind (pos pos' : Nat) (cs : List Char) (parts : List (TokenKind × Nat)) :
    (tokens pos cs parts).map Event.blind = (tokens pos' cs parts).map Event.blind := by
  induction parts generalizing pos pos' cs with
  | nil => rfl
  | cons part parts ih =>
    obtain ⟨kind, n⟩ := part
    rw [tokens, tokens, List.map_cons, List.map_cons, ih]
    rfl

theorem events_blind (m : Match) (pos pos' : Nat) (cs : List Char) :
    (m.events pos cs).map Event.blind = (m.events pos' cs).map Event.blind := by
  have htokens := tokens_blind pos pos' cs m.parts
  obtain ⟨parts, move⟩ := m
  unfold Match.events
  split
  · exact htokens
  · exact htokens
  · rw [List.map_append, List.map_append, htokens]
  · rw [List.map_cons, List.map_cons, htokens]
  · rw [List.map_append, List.map_append, htokens]

theorem pendingToken_blind (mode : Mode) (pos pos' : Nat) (pending : List Char) :
    (pendingToken mode pos pending).map Event.blind = (pendingToken mode pos' pending).map Event.blind := by
  unfold pendingToken
  split
  · split <;> rfl
  · rfl

namespace Stand

/-- Two runs that stand in the same place of a stretch, wherever in a text that is and whatever is open around it. -/
structure Beside (inner base base' : List Mode) (s t : Stand) : Prop where
  stack : s.stack = inner ++ base
  stack' : t.stack = inner ++ base'
  word : atWordStart t.before = atWordStart s.before
  skip : t.skip = s.skip
  pending : t.pending = s.pending
  inText : s.pos ≠ 0 ∧ t.pos ≠ 0

variable {inner st around base' : List Mode} {s t : Stand}

theorem Beside.step {n : Nat} (h : Beside inner (st ++ around) base' s t) (hnested : Nested (inner ++ st)) (hst : st ≠ [])
    (hmode : current st ≠ .markup) (hbase : current base' = current st) (c : Char) (cs : List Char)
    (hlevel : level (depth inner) (s.step c cs).1 = some n) :
    (t.step c cs).1.map Event.blind = (s.step c cs).1.map Event.blind ∧
      ∃ inner', Beside inner' (st ++ around) base' (s.step c cs).2 (t.step c cs).2 ∧ Nested (inner' ++ st) ∧
        depth inner' = n := by
  obtain ⟨stack, stack', hword, hskip, hpending, hpos⟩ := h
  have haround : current (st ++ around) = current st := by
    cases st with
    | nil => exact absurd rfl hst
    | cons mode st => rfl
  cases hk : s.skip with
  | succ k =>
    rw [step_skip hk] at hlevel ⊢
    rw [step_skip (hskip.trans hk)]
    exact ⟨rfl, inner, ⟨stack, stack', rfl, rfl, hpending, Nat.succ_ne_zero _, Nat.succ_ne_zero _⟩, hnested,
      Option.some.inj hlevel⟩
  | zero =>
    -- both have the same modes open on top of what is around
    have hs : settle (c :: cs) s.stack = settle (c :: cs) inner ++ (st ++ around) := by
      rw [stack, settle_append (haround ▸ hmode)]
    have ht : settle (c :: cs) t.stack = settle (c :: cs) inner ++ base' := by
      rw [stack', settle_append (hbase ▸ hmode)]
    have hcurrent : current (settle (c :: cs) t.stack) = current (settle (c :: cs) s.stack) := by
      rw [hs, ht]
      exact current_append (hbase.trans haround.symm) _
    have hsettled : Nested (settle (c :: cs) inner ++ st) := by
      rw [← settle_append hmode]
      exact hnested.settled _
    have hmatched : t.matched? (c :: cs) = s.matched? (c :: cs) := by
      unfold matched?
      rw [hcurrent, match?_before hword, beq_false_of_ne hpos.1, beq_false_of_ne hpos.2]
    have hdepth := depth_settle (c :: cs) inner
    cases hm : s.matched? (c :: cs) with
    | none =>
      rw [step_none hk hm] at hlevel ⊢
      rw [step_none (hskip.trans hk) (hmatched.trans hm)]
      exact ⟨rfl, settle (c :: cs) inner, ⟨hs, ht, rfl, rfl, congrArg (c :: ·) hpending, Nat.succ_ne_zero _, Nat.succ_ne_zero _⟩,
        hsettled, hdepth.trans (Option.some.inj hlevel)⟩
    | some m =>
      rw [step_match hk hm] at hlevel ⊢
      rw [step_match (hskip.trans hk) (hmatched.trans hm)]
      have hrule : Rule (current (settle (c :: cs) inner ++ st)) (c :: cs) m := by
        have hinner : current (settle (c :: cs) inner ++ st) = current (settle (c :: cs) s.stack) := by
          rw [hs]
          exact current_append haround.symm _
        rw [hinner]
        exact rule_of_match hm
      obtain ⟨k, hpends, hevents⟩ := exists_level hlevel
      rw [pends, level_pendingToken] at hpends
      obtain rfl := Option.some.inj hpends
      rw [← hdepth] at hevents
      obtain ⟨inner', happly, hn, hnested'⟩ := apply_append hsettled hst hrule hevents
      refine ⟨?_, inner', ⟨?_, ?_, rfl, rfl, rfl, Nat.succ_ne_zero _, Nat.succ_ne_zero _⟩, hnested', hn⟩
      · rw [List.map_append, List.map_append, pends, pends, hcurrent, hpending, pendingToken_blind _ _ s.pos,
          events_blind m _ s.pos]
      · rw [← happly, ← hs]
      · rw [← happly, ← ht]

/-- A passage that ends no stretch which was open before is the same wherever it is, and leaves the modes around alone. -/
theorem Beside.passage {n : Nat} {r : List Char} (h : Beside inner (st ++ around) base' s t) (hnested : Nested (inner ++ st))
    (hst : st ≠ []) (hmode : current st ≠ .markup) (hbase : current base' = current st) (x : List Char)
    (hlevel : level (depth inner) (s.brings r x) = some n) :
    (t.brings r x).map Event.blind = (s.brings r x).map Event.blind ∧
      ∃ inner', Beside inner' (st ++ around) base' (s.after r x) (t.after r x) ∧ Nested (inner' ++ st) ∧
        depth inner' = n := by
  induction x generalizing s t inner with
  | nil => exact ⟨rfl, inner, h, hnested, Option.some.inj hlevel⟩
  | cons c x ih =>
    rw [brings] at hlevel
    obtain ⟨k, hstep, hrest⟩ := exists_level hlevel
    obtain ⟨hblind, inner', hbeside, hnested', rfl⟩ := h.step hnested hst hmode hbase c (x ++ r) hstep
    obtain ⟨hblind', hafter⟩ := ih hbeside hnested' hrest
    refine ⟨?_, hafter⟩
    rw [brings, brings, List.map_append, List.map_append, hblind, hblind']

end Stand
end Scan
end JsxEdit
