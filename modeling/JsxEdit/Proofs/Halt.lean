import JsxEdit.Proofs.Flatten

/-
Where a run over a text comes to the end of some pieces.

The events of the pieces are those of a passage, with the token of the characters that are unmatched at its end. It ends
where the next event comes from, and there the same stretches are open as at its start.
-/
set_option autoImplicit false

namespace JsxEdit.Scan

open Piece (allEvents)

/-- A match gives tokens, and what it enters or leaves; it enters before its tokens, but for content. -/
theorem Rule.events_cases {mode : Mode} {cs : List Char} {m : Match} (h : Rule mode cs m) (pos : Nat) :
    ∃ t, (m.events pos cs = [.token t] ∨ m.events pos cs = [.token t, .enter .content] ∨
      m.events pos cs = [.token t, .leave] ∨ m.events pos cs = [.token t, .leave, .leave]) ∨
      (∃ mode, m.events pos cs = [.enter mode, .token t]) ∨
      ∃ mode u, m.events pos cs = [.enter mode, .token t, .token u] := by
  cases h with
  | token | announce => exact ⟨_, .inl (.inl rfl)⟩
  | content => exact ⟨_, .inl (.inr (.inl rfl))⟩
  | selfClose | closeFragment | closeExpression => exact ⟨_, .inl (.inr (.inr (.inl rfl)))⟩
  | closeElement => exact ⟨_, .inl (.inr (.inr (.inr rfl)))⟩
  | fragment | braces | substitution | group | template => exact ⟨_, .inr (.inl ⟨_, rfl⟩)⟩
  | tag => exact ⟨_, .inr (.inr ⟨_, _, rfl⟩)⟩

/-- The event can be the first one of a match, and is no token of unmatched characters. -/
structure Begins (e : Event) : Prop where
  matched : ¬ Stand.IsPending e
  starts : e ≠ .leave ∧ e ≠ .enter .content

/-- An event of a match that can be the first is the first, or a stretch is entered before it. -/
theorem Rule.split_events {mode : Mode} {cs : List Char} {m : Match} (h : Rule mode cs m) {pos : Nat} {p q : List Event}
    {e : Event} (heq : m.events pos cs = p ++ e :: q) (he : Begins e) :
    p = [] ∨ ∃ inner ts, p = .enter inner :: ts ∧ ∀ f ∈ ts, ∃ t, f = .token t := by
  obtain ⟨t, hm⟩ := h.events_cases pos
  rcases p with - | ⟨f, p⟩
  · exact .inl rfl
  · right
    rcases hm with (hm | hm | hm | hm) | ⟨inner, hm⟩ | ⟨inner, u, hm⟩
    · rw [hm] at heq
      simp at heq
    · rw [hm] at heq
      obtain ⟨-, heq⟩ := List.cons.inj heq
      rcases p with - | ⟨f, p⟩
      · exact absurd (List.cons.inj heq).1.symm he.starts.2
      · simp at heq
    · rw [hm] at heq
      obtain ⟨-, heq⟩ := List.cons.inj heq
      rcases p with - | ⟨f, p⟩
      · exact absurd (List.cons.inj heq).1.symm he.starts.1
      · simp at heq
    · rw [hm] at heq
      obtain ⟨-, heq⟩ := List.cons.inj heq
      have hmem : e ∈ [Event.leave, .leave] := heq ▸ List.mem_append_right _ List.mem_cons_self
      simp only [List.mem_cons, List.not_mem_nil, or_false, or_self] at hmem
      exact absurd hmem he.starts.1
    · rw [hm] at heq
      obtain ⟨rfl, heq⟩ := List.cons.inj heq
      rcases p with - | ⟨f, p⟩
      · exact ⟨inner, [], rfl, fun _ hf => absurd hf List.not_mem_nil⟩
      · simp at heq
    · rw [hm] at heq
      obtain ⟨hf, hrest⟩ := List.cons.inj heq
      subst hf
      rcases p with - | ⟨g, p⟩
      · exact ⟨inner, [], rfl, fun _ hg => absurd hg List.not_mem_nil⟩
      · obtain ⟨hg, hrest⟩ := List.cons.inj hrest
        subst hg
        rcases p with - | ⟨g, p⟩
        · exact ⟨inner, [.token t], rfl, fun _ hg => ⟨t, List.mem_singleton.mp hg⟩⟩
        · simp at hrest

theorem level_tokens {ts : List Event} (h : ∀ f ∈ ts, ∃ t, f = .token t) (n : Nat) : level n ts = some n := by
  induction ts with
  | nil => rfl
  | cons f ts ih =>
    rw [List.forall_mem_cons] at h
    obtain ⟨⟨t, rfl⟩, hts⟩ := h
    exact ih hts

namespace Stand

/-- A run at the start of something, with these modes open. -/
structure At (stack : List Mode) (s : Stand) : Prop where
  stack : s.stack = stack
  word : atWordStart s.before = true
  inText : s.pos ≠ 0
  skip : s.skip = 0
  pending : s.pending = []

/-- Something can start after a character that is in no word. -/
theorem At.of_before {stack : List Mode} {c : Char} (hc : Text.isWord c = false) (pos : Nat) :
    At stack ⟨stack, some c, pos + 1, 0, []⟩ where
  stack := rfl
  word := by rw [atWordStart, Option.any_some, hc, Bool.not_false]
  inText := Nat.succ_ne_zero pos
  skip := rfl
  pending := rfl

/-- Where a run has passed over pieces: the match for the next event starts there, with nothing open but what was open
before, and announced markup. -/
structure Stop (s : Stand) (base : List Mode) (cs : List Char) (ps : List Piece) (es : List Event) (x : List Char) (c : Char)
    (w : List Char) (m : Match) (inner : List Mode) : Prop where
  cut : Cut s cs x c w m
  stack : (s.after (c :: w) x).stack = inner ++ base
  depth : depth inner = 0
  inText : (s.after (c :: w) x).pos ≠ 0
  events : allEvents ps = s.brings (c :: w) x ++ (s.after (c :: w) x).pends (c :: w)
  rest : es = m.events (s.after (c :: w) x).pos (c :: w) ++ ((s.after (c :: w) x).step c w).2.run w

/-- After the events of some pieces a run has passed over them. -/
theorem exists_stop {st around : List Mode} {s : Stand} {cs : List Char} {ps : List Piece} {e : Event} {es : List Event}
    (hstack : s.stack = st ++ around) (hpos : s.pos ≠ 0) (hnested : Nested st) (hmode : current st ≠ .markup)
    (h : s.run cs = allEvents ps ++ e :: es) (he : Begins e) :
    ∃ x c w m inner, Stop s (st ++ around) cs ps (e :: es) x c w m inner := by
  obtain ⟨x, c, w, m, hcut, p, q, hp, hps, hes⟩ := exists_cut h he.matched
  have hlevel : level 0 (allEvents ps) = some 0 := by
    rw [← List.append_nil (allEvents ps), Piece.level_allEvents]
    rfl
  rw [hps, List.append_assoc] at hlevel
  obtain ⟨k, hbrings, hlevel⟩ := exists_level hlevel
  obtain ⟨k', hpends, hlevel⟩ := exists_level hlevel
  rw [pends, level_pendingToken] at hpends
  obtain rfl := Option.some.inj hpends
  -- nothing of the match comes before, as this would leave a stretch open
  obtain rfl : p = [] := by
    rcases (rule_of_match hcut.matched).split_events hp he with hp | ⟨inner, ts, rfl, hts⟩
    · exact hp
    · rw [level, level_tokens hts] at hlevel
      cases hlevel
  obtain rfl := Option.some.inj hlevel
  have hne : st ≠ [] := hnested.ne_nil
  have hbeside : Beside [] (st ++ around) (st ++ around) s s := ⟨hstack, hstack, rfl, rfl, rfl, hpos, hpos⟩
  obtain ⟨-, inner, hafter, -, hinner⟩ :=
    hbeside.passage (n := 0) (r := c :: w) hnested hne hmode (hnested.current_append around) x hbrings
  refine ⟨x, c, w, m, inner, hcut, hafter.stack, hinner, hafter.inText.1, ?_, ?_⟩
  · rw [hps, List.append_nil]
  · rw [hes, hp, List.nil_append]
    rfl

/-- The text of the pieces is that of the passage over them. -/
theorem Stop.allText_eq {s : Stand} {base inner : List Mode} {cs x w : List Char} {ps : List Piece} {es : List Event} {c : Char}
    {m : Match} (h : Stop s base cs ps es x c w m inner) (hskip : s.skip = 0) (hpending : s.pending = [])
    (hunread : s.unread cs = []) : Event.allText (allEvents ps) = x := by
  obtain ⟨hcovers, hrest⟩ := brings_covers (h.cut.text ▸ hunread) h.cut.skip
  rw [hpending, hskip, List.reverse_nil, List.nil_append, List.drop_zero] at hcovers
  rw [h.events, allText_append, (unread_match h.cut.skip h.cut.matched hrest).1, hcovers]

end Stand
end JsxEdit.Scan
