import JsxEdit.Proofs.Extent
import JsxEdit.Proofs.Run

/-
The scanner as a machine that goes on from match to match.

In each step it looks for the next match of the innermost mode. The text before it becomes a token, and the machine goes
on after the match. Where announced markup is over, its mode is left and nothing is taken. Every step takes something of
the text or leaves a mode, and only a step that takes something opens one, so the machine stops.
-/
set_option autoImplicit false

namespace JsxEdit.Scan

/-! ## Steps -/

/-- Where the scanner is: the open modes, the character before it, the position, and the text from there on. -/
structure State where
  stack : List Mode
  before : Option Char
  pos : Nat
  rest : List Char
  deriving DecidableEq, Repr

/-- The scanner at the start of a text. -/
def State.start (text : String) : State := ⟨[], none, 0, text.toList⟩

/-- What a search for the next match comes to: the characters passed over, last one first, the place where it ended, and
the match there. -/
structure Found where
  passed : List Char
  before : Option Char
  pos : Nat
  rest : List Char
  hit : Option Match

/-- Looks for the next match in the mode. -/
def search (mode : Mode) (before : Option Char) (pos : Nat) (passed : List Char) : List Char → Found
  | [] => ⟨passed, before, pos, [], none⟩
  | c :: cs =>
    match match? mode (pos == 0) before (c :: cs) with
    | some m => ⟨passed, before, pos, c :: cs, some m⟩
    | none => search mode (some c) (pos + 1) (c :: passed) cs

/-- The state of the scanner after the match that was found. -/
def Found.after (f : Found) (stack : List Mode) (m : Match) : State :=
  ⟨m.move.apply stack, (f.rest.take m.length).getLast?.or f.before, f.pos + m.length, f.rest.drop m.length⟩

/-- One step, with the events it brings; there is none at the end of the text. -/
def State.step? (s : State) : Option (List Event × State) :=
  if s.rest = [] then none
  else if current s.stack = .markup ∧ match? .markup false none s.rest = none then
    some ([], { s with stack := s.stack.drop 1 })
  else
    let found := search (current s.stack) s.before s.pos [] s.rest
    let gap := pendingToken (current s.stack) found.pos found.passed
    match found.hit with
    | some m => some (gap ++ m.events found.pos found.rest, found.after s.stack m)
    | none => some (gap, ⟨s.stack, found.before, found.pos, []⟩)

/-- At most `n` steps, with the events they bring. -/
def State.run (s : State) : Nat → List Event × State
  | 0 => ([], s)
  | n + 1 =>
    match s.step? with
    | none => ([], s)
    | some (es, s') =>
      let (more, last) := s'.run n
      (es ++ more, last)

/-- A search ends at a match, or at the end of the text. It passes over nothing if there is a match at once. -/
theorem search_spec (mode : Mode) (before : Option Char) (pos : Nat) (passed cs : List Char) :
    let f := search mode before pos passed cs
    ∃ w, cs = w ++ f.rest ∧ f.passed = w.reverse ++ passed ∧ f.pos = pos + w.length ∧
      (∀ m, f.hit = some m → match? mode (f.pos == 0) f.before f.rest = some m) ∧ (f.hit = none → f.rest = []) ∧
      (w ≠ [] → match? mode (pos == 0) before cs = none) := by
  induction cs generalizing before pos passed with
  | nil => exact ⟨[], rfl, rfl, rfl, by simp [search], by simp [search], by simp⟩
  | cons c cs ih =>
    dsimp only
    rw [search]
    cases hm : match? mode (pos == 0) before (c :: cs) with
    | some m => exact ⟨[], rfl, rfl, rfl, fun k hk => hm.trans hk, by simp, by simp⟩
    | none =>
      obtain ⟨w, hcs, hpassed, hpos, hhit, hend, -⟩ := ih (some c) (pos + 1) (c :: passed)
      refine ⟨c :: w, congrArg (c :: ·) hcs, ?_, ?_, hhit, hend, fun _ => rfl⟩
      · rw [hpassed, List.reverse_cons, List.append_assoc]
        rfl
      · rw [hpos, List.length_cons, Nat.add_assoc, Nat.add_comm 1]

/-- What a step can do: it leaves the mode of announced markup, it takes a match and the text before it, or it takes all
of the text. A backslash at the end of a template literal is lost. -/
inductive Step (s : State) : List Event → State → Prop where
  | leave (mode : current s.stack = .markup) (more : s.rest ≠ []) : Step s [] { s with stack := s.stack.drop 1 }
  | take {w r : List Char} {m : Match} {before before' : Option Char} (split : s.rest = w ++ r)
      (found : match? (current s.stack) (s.pos + w.length == 0) before r = some m)
      (gap : w = [] ∨ (rest? (current s.stack)).isSome = true) :
      Step s (pendingToken (current s.stack) (s.pos + w.length) w.reverse ++ m.events (s.pos + w.length) r)
        ⟨m.move.apply s.stack, before', s.pos + w.length + m.length, r.drop m.length⟩
  | finish {before : Option Char} (more : s.rest ≠ []) (gap : (rest? (current s.stack)).isSome = true) :
      Step s (pendingToken (current s.stack) (s.pos + s.rest.length) s.rest.reverse)
        ⟨s.stack, before, s.pos + s.rest.length, []⟩
  | lose {before : Option Char} (mode : current s.stack = .template) (last : s.rest = ['\\']) :
      Step s [] ⟨s.stack, before, s.pos + 1, []⟩

/-- The machine takes one of these steps. -/
theorem step_of_step? {s s' : State} {es : List Event} (h : s.step? = some (es, s')) : Step s es s' := by
  unfold State.step? at h
  split at h
  · cases h
  · next hmore =>
    split at h
    · next hmode =>
      cases h
      exact .leave hmode.1 hmore
    · next hmode =>
      obtain ⟨w, hsplit, hpassed, hpos, hhit, hend, hnone⟩ := search_spec (current s.stack) s.before s.pos [] s.rest
      dsimp only at h
      generalize search (current s.stack) s.before s.pos [] s.rest = f at h hsplit hpassed hpos hhit hend
      obtain ⟨passed, before, pos, rest, hit⟩ := f
      dsimp only at h hsplit hpassed hpos hhit hend
      rw [List.append_nil] at hpassed
      subst hpassed hpos
      -- text is passed over only where there is a token for it, or at a last backslash
      have hgap : w = [] ∨ (rest? (current s.stack)).isSome = true ∨
          (current s.stack = .template ∧ s.rest = ['\\']) := by
        rcases List.eq_nil_or_concat w with hw | ⟨v, d, hw⟩
        · exact .inl hw
        · have hfirst := hnone (by rw [hw]; simp)
          obtain ⟨c, cs, hcs⟩ := List.exists_cons_of_ne_nil hmore
          rw [hcs] at hfirst hmode ⊢
          rcases match?_eq_none hfirst with hrest | hmarkup | hlast
          · exact .inr (.inl hrest)
          · rw [hmarkup] at hfirst
            exact absurd ⟨hmarkup, hfirst⟩ hmode
          · exact .inr (.inr hlast)
      cases hit with
      | some m =>
        cases h
        have hm := hhit m rfl
        refine .take hsplit hm (hgap.imp_right fun hrest => hrest.resolve_right ?_)
        -- a last backslash has no match before it, and nothing after it
        rintro ⟨hmode', hlast⟩
        rw [hlast] at hsplit
        rcases w with - | ⟨c, w⟩
        · rw [List.nil_append] at hsplit
          rw [← hsplit, hmode'] at hm
          cases hm
        · obtain ⟨-, hnil⟩ := List.cons.inj hsplit
          rw [(List.append_eq_nil_iff.mp hnil.symm).2] at hm
          have hlength := match?_le hm
          have hpos := (rule_of_match hm).length_pos
          rw [List.length_nil] at hlength
          omega
      | none =>
        cases h
        rw [hend rfl, List.append_nil] at hsplit
        subst hsplit
        rcases hgap with hw | hrest | ⟨hmode', hlast⟩
        · exact absurd hw hmore
        · exact .finish hmore hrest
        · rw [hlast, hmode']
          exact .lose hmode' hlast

/-- Without a step the text is at its end. -/
theorem step?_eq_none {s : State} : s.step? = none ↔ s.rest = [] := by
  unfold State.step?
  split
  · next h => exact ⟨fun _ => h, fun _ => rfl⟩
  · next h =>
    refine ⟨fun hnone => ?_, fun hrest => absurd hrest h⟩
    split at hnone
    · cases hnone
    · dsimp only at hnone
      split at hnone <;> cases hnone

/-! ## Termination -/

/-- What every step makes smaller. -/
def State.measure (s : State) : Nat := 2 * s.rest.length + s.stack.length

theorem length_apply_le (stack : List Mode) (move : Move) : (move.apply stack).length ≤ stack.length + 1 := by
  cases move with
  | stay => exact Nat.le_succ _
  | enter mode => exact Nat.le_refl _
  | leave count =>
    rw [Move.apply, List.length_drop]
    omega

theorem Step.measure_lt {s s' : State} {es : List Event} (h : Step s es s') : s'.measure < s.measure := by
  unfold State.measure
  cases h with
  | leave mode =>
    have hne : s.stack ≠ [] := by
      intro hnil
      rw [hnil] at mode
      cases mode
    have hpos := List.length_pos_iff.mpr hne
    dsimp only
    rw [List.length_drop]
    omega
  | @take w r m _ _ split found =>
    have hpos := (rule_of_match found).length_pos
    have hle := match?_le found
    have happly := length_apply_le s.stack m.move
    dsimp only
    rw [split, List.length_drop, List.length_append]
    omega
  | finish more =>
    have hpos := List.length_pos_iff.mpr more
    dsimp only
    rw [List.length_nil]
    omega
  | lose mode last =>
    dsimp only
    rw [last, List.length_nil, List.length_singleton]
    omega

/-- As many steps as the measure says lead to the end of the text. -/
theorem rest_run {s : State} {n : Nat} (h : s.measure ≤ n) : (s.run n).2.rest = [] := by
  induction n generalizing s with
  | zero =>
    rw [State.measure] at h
    exact List.length_eq_zero_iff.mp (show s.rest.length = 0 by omega)
  | succ n ih =>
    rw [State.run]
    cases hstep : s.step? with
    | none => exact step?_eq_none.mp hstep
    | some next =>
      have hlt := (step_of_step? hstep).measure_lt
      exact ih (by omega)

/-! ## The events of a run -/

/-- The events that the scanner brings from here on. -/
def State.events (s : State) : List Event := eventsFrom s.stack s.before s.pos 0 [] s.rest

/-- The rest of a match is passed over. -/
theorem eventsFrom_drop (stack : List Mode) (before : Option Char) (pos n : Nat) (pending cs : List Char)
    (h : n ≤ cs.length) : eventsFrom stack before pos n pending cs =
      eventsFrom stack ((cs.take n).getLast?.or before) (pos + n) 0 pending (cs.drop n) := by
  induction n generalizing before pos cs with
  | zero => rfl
  | succ n ih =>
    cases cs with
    | nil => cases h
    | cons c cs =>
      have hlast : ((c :: cs).take (n + 1)).getLast?.or before = (cs.take n).getLast?.or (some c) := by
        rw [List.take_succ_cons, List.getLast?_cons]
        cases (cs.take n).getLast? <;> rfl
      rw [eventsFrom, ih (some c) (pos + 1) cs (Nat.le_of_succ_le_succ h), hlast, List.drop_succ_cons, Nat.add_assoc,
        Nat.add_comm 1]

/-- The events after a match found at the start of the text. -/
theorem eventsFrom_hit {stack : List Mode} {before : Option Char} {pos : Nat} {pending : List Char} {c : Char}
    {cs : List Char} {m : Match} (hsettle : settle (c :: cs) stack = stack)
    (hm : match? (current stack) (pos == 0) before (c :: cs) = some m) :
    eventsFrom stack before pos 0 pending (c :: cs) = pendingToken (current stack) pos pending ++
      m.events pos (c :: cs) ++ (Found.after ⟨pending, before, pos, c :: cs, some m⟩ stack m).events := by
  have hpos := (rule_of_match hm).length_pos
  have hle := match?_le hm
  obtain ⟨n, hn⟩ := Nat.exists_eq_succ_of_ne_zero (Nat.ne_of_gt hpos)
  have hdrop := eventsFrom_drop (m.move.apply stack) before pos m.length [] (c :: cs) hle
  rw [eventsFrom, hsettle, hm]
  show _ ++ _ ++ _ = _ ++ _ ++ eventsFrom _ _ _ _ _ _
  rw [Found.after, ← hdrop, hn, eventsFrom]
  rfl

/-- The events from a place on are those of the next match and of the rest. -/
theorem eventsFrom_search {stack : List Mode} (hmode : current stack ≠ .markup) (before : Option Char) (pos : Nat)
    (pending cs : List Char) :
    let f := search (current stack) before pos pending cs
    eventsFrom stack before pos 0 pending cs = pendingToken (current stack) f.pos f.passed ++
      match f.hit with
      | some m => m.events f.pos f.rest ++ (f.after stack m).events
      | none => [] := by
  induction cs generalizing before pos pending with
  | nil => exact (List.append_nil _).symm
  | cons c cs ih =>
    have hsettle := Piece.Opened.settle_eq (c :: cs) hmode
    dsimp only
    rw [search]
    cases hm : match? (current stack) (pos == 0) before (c :: cs) with
    | some m =>
      rw [eventsFrom_hit hsettle hm, List.append_assoc]
    | none =>
      rw [eventsFrom, hsettle, hm]
      exact ih (some c) (pos + 1) (c :: pending)

/-- The events from a state on are those of its step and those from the next state on. -/
theorem events_step {s s' : State} {es : List Event} (h : s.step? = some (es, s')) : s.events = es ++ s'.events := by
  obtain ⟨stack, before, pos, rest⟩ := s
  unfold State.step? at h
  split at h
  · cases h
  · next hmore =>
    obtain ⟨c, cs, rfl⟩ := List.exists_cons_of_ne_nil (show rest ≠ [] from hmore)
    split at h
    · next hmode =>
      -- the mode that is left makes no difference to the events
      obtain ⟨hmarkup, hnone⟩ := hmode
      cases h
      cases stack with
      | nil => cases hmarkup
      | cons mode stack =>
        obtain rfl : mode = .markup := hmarkup
        have hsettle : settle (c :: cs) (.markup :: stack) = settle (c :: cs) stack := by
          rw [settle, show match? .markup false none (c :: cs) = none from hnone]
          rfl
        show eventsFrom (.markup :: stack) before pos 0 [] (c :: cs) = eventsFrom stack before pos 0 [] (c :: cs)
        rw [eventsFrom, eventsFrom, hsettle]
    · next hmode =>
      dsimp only at h hmode
      by_cases hmarkup : current stack = .markup
      · -- announced markup that is not over has its match here
        obtain ⟨m, hm⟩ := Option.ne_none_iff_exists'.mp fun hnone => hmode ⟨hmarkup, hnone⟩
        have hfirst : match? (current stack) (pos == 0) before (c :: cs) = some m := by
          rw [hmarkup]
          exact hm
        have hsettle : settle (c :: cs) stack = stack := by
          cases stack with
          | nil => rfl
          | cons mode stack =>
            obtain rfl : mode = .markup := hmarkup
            rw [settle, hm]
            rfl
        rw [search, hfirst] at h
        cases h
        exact eventsFrom_hit hsettle hfirst
      · have hevents := eventsFrom_search hmarkup before pos [] (c :: cs)
        dsimp only at hevents
        generalize search (current stack) before pos [] (c :: cs) = f at h hevents
        show eventsFrom stack before pos 0 [] (c :: cs) = _
        rw [hevents]
        cases hhit : f.hit with
        | some m =>
          rw [hhit] at h
          cases h
          exact (List.append_assoc _ _ _).symm
        | none =>
          rw [hhit] at h
          cases h
          show _ = _ ++ pendingToken _ _ _
          rw [pendingToken_nil]

/-- A run brings the events of its state up to where it ends. -/
theorem events_run (s : State) (n : Nat) : s.events = (s.run n).1 ++ (s.run n).2.events := by
  induction n generalizing s with
  | zero => rfl
  | succ n ih =>
    rw [State.run]
    cases hstep : s.step? with
    | none => rfl
    | some next =>
      obtain ⟨es, s'⟩ := next
      show s.events = es ++ (s'.run n).1 ++ (s'.run n).2.events
      rw [events_step hstep, ih s', List.append_assoc]

/-- With twice as many steps as the text has characters, the machine stops, and it has brought the events of the text. -/
theorem run_start (text : String) :
    ((State.start text).run (2 * text.length)).2.rest = [] ∧
      ((State.start text).run (2 * text.length)).1 = events text := by
  have hmeasure : (State.start text).measure ≤ 2 * text.length := by
    rw [State.measure, State.start, String.length_toList]
    exact Nat.le_refl _
  have hrest := rest_run hmeasure
  refine ⟨hrest, ?_⟩
  have hevents : (State.start text).events = _ := events_run (State.start text) (2 * text.length)
  have hnone : ((State.start text).run (2 * text.length)).2.events = [] := by
    rw [State.events, hrest]
    exact pendingToken_nil _ _
  rw [hnone, List.append_nil] at hevents
  exact hevents.symm

end JsxEdit.Scan
