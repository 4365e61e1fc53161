import JsxEdit.Proofs.Unclosed

/-
How what is read in an open stretch fits into it.

The pieces that a run adds to a stretch do not depend on what the stretch holds already, nor on what is around it, and they
stand further on with the text. For a piece of markup that is closed at its end this is one piece, the same as if the
markup were the whole text. A snippet is read in an open fragment, so that its pieces can be told one after the other.
-/
set_option autoImplicit false

namespace JsxEdit

/-! ## No shift -/

theorem Event.map_shift_zero (es : List Event) : es.map (Event.shift 0) = es := by
  have hid : Event.shift 0 = id := by
    funext e
    cases e <;> rfl
  rw [hid, List.map_id]

namespace Piece

mutual

theorem shift_shift (m n : Nat) : (p : Piece) → shift m (shift n p) = shift (n + m) p
  | .token t => by simp [Token.shift, Nat.add_assoc]
  | .stretch mode items => by
    rw [shift, shift, shift, allShift_shift m n items]

theorem allShift_shift (m n : Nat) : (ps : List Piece) → allShift m (allShift n ps) = allShift (n + m) ps
  | [] => rfl
  | p :: ps => by rw [allShift, allShift, allShift, shift_shift m n p, allShift_shift m n ps]

end

theorem map_shift_shift (m n : Nat) (ps : List Piece) : (ps.map (shift n)).map (shift m) = ps.map (shift (n + m)) := by
  rw [← allShift_eq_map, ← allShift_eq_map, ← allShift_eq_map, allShift_shift]

mutual

theorem shift_zero : (p : Piece) → shift 0 p = p
  | .token t => shift_token 0 t
  | .stretch mode items => by rw [shift, allShift_zero items]

theorem allShift_zero : (ps : List Piece) → allShift 0 ps = ps
  | [] => rfl
  | p :: ps => by rw [allShift, shift_zero p, allShift_zero ps]

end

theorem map_shift_zero (ps : List Piece) : ps.map (shift 0) = ps := by rw [← allShift_eq_map, allShift_zero]

/-! ## Nesting inside a stretch -/

theorem close_of_ne_nil {mode : Mode} {items : List Piece} (h : items ≠ []) (outer : List Piece) :
    close mode items outer = .stretch mode items.reverse :: outer := by
  rw [close, if_neg (by simpa using h)]

theorem close_append (mode : Mode) (items outer : List Piece) : close mode items outer = close mode items [] ++ outer := by
  cases items <;> rfl

/-- A stretch that ends is one piece more of the stretch around it. -/
theorem close_shifted (d : Nat) (mode : Mode) (qs items : List Piece) :
    close mode ((qs.map (shift d)).reverse ++ []) items =
      ((close mode qs.reverse []).reverse.map (shift d)).reverse ++ items := by
  rw [List.append_nil, ← List.map_reverse, ← List.map_reverse, List.reverse_reverse, close_append, ← close_shift]
  rfl

/-- A stretch gets some pieces more, whatever it holds and whatever is around it. -/
theorem nest_stretch (es : List Event) : ∃ (qs : List Piece) (es' : List Event), es'.length ≤ es.length ∧
    ∀ d mode items outer frames, nest items ((mode, outer) :: frames) (es.map (Event.shift d)) =
      nest (close mode ((qs.map (shift d)).reverse ++ items) outer) frames (es'.map (Event.shift d)) := by
  induction hlength : es.length using Nat.strongRecOn generalizing es with
  | ind n ih =>
    subst hlength
    cases es with
    | nil => exact ⟨[], [], Nat.le_refl 0, fun d mode items outer frames => rfl⟩
    | cons e es =>
      cases e with
      | token t =>
        obtain ⟨qs, es', hle, heq⟩ := ih es.length (Nat.lt_succ_self _) es rfl
        refine ⟨.token t :: qs, es', Nat.le_succ_of_le hle, ?_⟩
        intro d mode items outer frames
        rw [List.map_cons, Event.shift, nest, heq, List.map_cons, List.reverse_cons, List.append_assoc, shift_token]
        rfl
      | enter inner =>
        -- the inner stretch first, then what follows it
        obtain ⟨qs₁, es₁, hle₁, heq₁⟩ := ih es.length (Nat.lt_succ_self _) es rfl
        obtain ⟨qs₂, es₂, hle₂, heq₂⟩ := ih es₁.length (Nat.lt_succ_of_le hle₁) es₁ rfl
        refine ⟨(close inner qs₁.reverse []).reverse ++ qs₂, es₂, Nat.le_succ_of_le (Nat.le_trans hle₂ hle₁), ?_⟩
        intro d mode items outer frames
        rw [List.map_cons, Event.shift, nest, heq₁, heq₂, close_shifted, List.map_append, List.reverse_append,
          List.append_assoc]
      | leave => exact ⟨[], es, Nat.le_succ _, fun d mode items outer frames => rfl⟩

/-- Outside all stretches the pieces come one after the other. -/
theorem nest_root (items : List Piece) (es : List Event) : nest items [] es = items.reverse ++ nest [] [] es := by
  induction hlength : es.length using Nat.strongRecOn generalizing items es with
  | ind n ih =>
    subst hlength
    cases es with
    | nil => exact (List.append_nil _).symm
    | cons e es =>
      cases e with
      | token t =>
        have hrest := ih es.length (Nat.lt_succ_self _)
        rw [nest, nest, hrest (.token t :: items) es rfl, hrest [.token t] es rfl, List.reverse_cons, List.append_assoc]
        rfl
      | enter mode =>
        obtain ⟨qs, es', hle, heq⟩ := nest_stretch es
        have hrun := fun items => heq 0 mode [] items []
        simp only [Event.map_shift_zero, map_shift_zero, List.append_nil] at hrun
        have hrest := ih es'.length (Nat.lt_succ_of_le hle)
        rw [nest, nest, hrun, hrun, hrest _ es' rfl, hrest (close mode qs.reverse []) es' rfl, close_append,
          List.reverse_append, List.append_assoc]
      | leave => exact ih es.length (Nat.lt_succ_self _) items es rfl

/-! ## Events that end stretches -/

/-- The events end the innermost open stretches, as many as said, and the last of these at their very end. -/
def EndsStretches : Nat → List Event → Prop
  | 0, es => es = []
  | _ + 1, [] => False
  | n + 1, .token _ :: es => EndsStretches (n + 1) es
  | n + 1, .enter _ :: es => EndsStretches (n + 2) es
  | n + 1, .leave :: es => EndsStretches n es

theorem endsStretches_zero {es : List Event} : EndsStretches 0 es ↔ es = [] := by rw [EndsStretches]

/-- Stretches end one after the other. -/
theorem EndsStretches.split {m n : Nat} {es : List Event} (h : EndsStretches (m + n + 1) es) :
    ∃ es₁ es₂, es = es₁ ++ es₂ ∧ EndsStretches (m + 1) es₁ ∧ EndsStretches n es₂ := by
  induction es generalizing m with
  | nil => cases h
  | cons e es ih =>
    cases e with
    | token t =>
      obtain ⟨es₁, es₂, rfl, h₁, h₂⟩ := ih h
      exact ⟨.token t :: es₁, es₂, rfl, h₁, h₂⟩
    | enter mode =>
      have hinner : EndsStretches (m + 1 + n + 1) es := by
        rw [Nat.add_right_comm m 1 n]
        exact h
      obtain ⟨es₁, es₂, rfl, h₁, h₂⟩ := ih hinner
      exact ⟨.enter mode :: es₁, es₂, rfl, h₁, h₂⟩
    | leave =>
      cases m with
      | zero =>
        rw [Nat.zero_add] at h
        exact ⟨[.leave], es, rfl, rfl, h⟩
      | succ m =>
        have hrest : EndsStretches (m + n + 1) es := by
          rw [Nat.add_right_comm]
          exact h
        obtain ⟨es₁, es₂, rfl, h₁, h₂⟩ := ih hrest
        exact ⟨.leave :: es₁, es₂, rfl, h₁, h₂⟩

/-- Events that end a stretch bring it some pieces more, whatever comes after them. -/
theorem nest_endsStretches {es : List Event} (h : EndsStretches 1 es) : ∃ qs : List Piece,
    ∀ d mode items outer frames more, nest items ((mode, outer) :: frames) (es.map (Event.shift d) ++ more) =
      nest (close mode ((qs.map (shift d)).reverse ++ items) outer) frames more := by
  induction hlength : es.length using Nat.strongRecOn generalizing es with
  | ind n ih =>
    subst hlength
    cases es with
    | nil => cases h
    | cons e es =>
      cases e with
      | token t =>
        have hrest : EndsStretches 1 es := h
        obtain ⟨qs, heq⟩ := ih es.length (Nat.lt_succ_self _) hrest rfl
        refine ⟨.token t :: qs, ?_⟩
        intro d mode items outer frames more
        rw [List.map_cons, Event.shift, List.cons_append, nest, heq, List.map_cons, List.reverse_cons, List.append_assoc,
          shift_token]
        rfl
      | enter inner =>
        obtain ⟨es₁, es₂, rfl, h₁, h₂⟩ := EndsStretches.split (m := 0) (n := 1) h
        have hle₁ : es₁.length < (Event.enter inner :: (es₁ ++ es₂)).length := by
          rw [List.length_cons, List.length_append]
          exact Nat.lt_succ_of_le (Nat.le_add_right _ _)
        have hle₂ : es₂.length < (Event.enter inner :: (es₁ ++ es₂)).length := by
          rw [List.length_cons, List.length_append]
          exact Nat.lt_succ_of_le (Nat.le_add_left _ _)
        obtain ⟨qs₁, heq₁⟩ := ih es₁.length hle₁ h₁ rfl
        obtain ⟨qs₂, heq₂⟩ := ih es₂.length hle₂ h₂ rfl
        refine ⟨(close inner qs₁.reverse []).reverse ++ qs₂, ?_⟩
        intro d mode items outer frames more
        rw [List.map_cons, Event.shift, List.cons_append, nest, List.map_append, List.append_assoc, heq₁, heq₂,
          close_shifted, List.map_append, List.reverse_append, List.append_assoc]
      | leave =>
        obtain rfl := endsStretches_zero.mp h
        exact ⟨[], fun d mode items outer frames more => rfl⟩

end Piece

namespace Scan

open Piece (EndsStretches)

/-- How many stretches are open: one for each mode, but none where markup was announced. -/
def depth (stack : List Mode) : Nat := stack.countP (· ≠ .markup)

theorem endsStretches_pendingToken {n : Nat} (mode : Mode) (pos : Nat) (pending : List Char) {es : List Event}
    (h : EndsStretches (n + 1) es) : EndsStretches (n + 1) (pendingToken mode pos pending ++ es) := by
  unfold pendingToken
  split
  · split
    · exact h
    · exact h
  · exact h

theorem depth_cons {mode : Mode} (h : mode ≠ .markup) (stack : List Mode) : depth (mode :: stack) = depth stack + 1 := by
  simp [depth, h]

theorem depth_settle (cs : List Char) (stack : List Mode) : depth (settle cs stack) = depth stack := by
  induction stack with
  | nil => rfl
  | cons mode stack ih =>
    by_cases hmode : mode = .markup
    · subst hmode
      rw [settle]
      split
      · rfl
      · exact ih
    · have hcurrent : current (mode :: stack) ≠ .markup := hmode
      rw [Piece.Opened.settle_eq cs hcurrent]

theorem Nested.depth_pos {stack : List Mode} (h : Nested stack) : ∃ n, depth stack = n + 1 := by
  induction h with
  | tag => exact ⟨0, rfl⟩
  | fragment => exact ⟨0, rfl⟩
  | content => exact ⟨_, depth_cons (by decide) _⟩
  | @inside mode stack place below ih =>
    by_cases hmode : mode = .markup
    · subst hmode
      exact ih
    · exact ⟨_, depth_cons hmode stack⟩

/-- A match opens or ends stretches as it does modes. -/
theorem endsStretches_events {stack : List Mode} {cs : List Char} {m : Match} (pos : Nat) (hstack : Nested stack)
    (rule : Rule (current stack) cs m) {es : List Event} (h : EndsStretches (depth (m.move.apply stack)) es) :
    EndsStretches (depth stack) (m.events pos cs ++ es) := by
  obtain ⟨n, hn⟩ := hstack.depth_pos
  have henter : ∀ {mode : Mode}, mode ≠ .markup → EndsStretches (depth (mode :: stack)) es → EndsStretches (n + 2) es := by
    intro mode hmode h
    rwa [depth_cons hmode, hn] at h
  -- a mode that is left, unless markup was only announced, is one stretch less
  have hleave : current stack ≠ .markup → EndsStretches (depth (stack.drop 1)) es → EndsStretches n es := by
    intro hmode h
    cases stack with
    | nil => cases hn
    | cons mode stack =>
      rw [depth_cons (show mode ≠ .markup from hmode)] at hn
      rwa [← Nat.succ.inj hn]
  rw [hn]
  cases rule with
  | token =>
    have hsame : EndsStretches (depth stack) es := h
    rw [hn] at hsame
    exact hsame
  | announce =>
    have hsame : EndsStretches (depth stack) es := h
    rw [hn] at hsame
    exact hsame
  | fragment => exact henter (by decide) h
  | tag => exact henter (by decide) h
  | content => exact henter (by decide) h
  | braces => exact henter (by decide) h
  | substitution => exact henter (by decide) h
  | group => exact henter (by decide) h
  | template => exact henter (by decide) h
  | selfClose text place => exact hleave (by rw [place]; decide) h
  | closeElement pos fits place =>
    -- the content and its tag are two stretches
    cases hstack with
    | tag => cases place
    | fragment => cases place
    | content below =>
      rw [depth_cons (by decide), depth_cons (by decide)] at hn
      show EndsStretches n (.leave :: es)
      rw [← Nat.succ.inj hn]
      exact h
    | inside place' => exact absurd place place'.1
  | closeFragment pos fits place => exact hleave (by rw [place]; decide) h
  | closeExpression place => exact hleave (by rcases place with place | place | place <;> rw [place] <;> decide) h

/-- The run over markup ends all the stretches that it opened, at its very end. -/
theorem endsStretches_closed {stack : List Mode} {before : Option Char} {skip : Nat} {w : List Char} (pos : Nat)
    (pending : List Char) (hstack : Nested stack) (h : closesAfter? stack before skip w = some w.length) :
    EndsStretches (depth stack) (eventsFrom stack before pos skip pending w) := by
  induction w generalizing stack before skip pos pending with
  | nil => cases h
  | cons c w ih =>
    cases skip with
    | succ skip =>
      rw [eventsFrom]
      exact ih (pos + 1) pending hstack (eq_length_of_map h)
    | zero =>
      have hsettled := hstack.settled (c :: w)
      have hdepth := depth_settle (c :: w) stack
      rw [closesAfter?] at h
      rw [eventsFrom, match?_atStart hsettled.current_ne_script, ← hdepth]
      cases hm : match? (current (settle (c :: w) stack)) false before (c :: w) with
      | none =>
        rw [hm] at h
        exact ih (pos + 1) (c :: pending) hsettled (eq_length_of_map h)
      | some m =>
        rw [hm] at h
        have hrule := rule_of_match hm
        dsimp only at h ⊢
        obtain ⟨n, hn⟩ := hsettled.depth_pos
        have hrest : EndsStretches (depth (m.move.apply (settle (c :: w) stack)))
            (eventsFrom (m.move.apply (settle (c :: w) stack)) (some c) (pos + 1) (m.length - 1) [] w) := by
          split at h
          · next hnil =>
            -- the rest of the text belongs to the last match
            have hlength : m.length - 1 = w.length := by rw [Option.some.inj h, List.length_cons, Nat.add_sub_cancel]
            rw [hnil, hlength, eventsFrom_nil]
            rfl
          · next hne => exact ih (pos + 1) [] ((hsettled.step hrule).1.resolve_left hne) (eq_length_of_map h)
        have hevents := endsStretches_events pos hsettled hrule hrest
        rw [hn] at hevents ⊢
        rw [List.append_assoc]
        exact endsStretches_pendingToken _ _ _ hevents

end Scan

/-! ## The start of markup -/

namespace Piece

open Scan (markup? content? closingTagLength? closesAfter? eventsFrom match? current Nested)

/-- What opens markup opens a stretch with some tokens, and does not end it. -/
theorem nest_markup {cs : List Char} {m : Scan.Match} {mode : Mode} (h : markup? cs = some m)
    (hmove : m.move = .enter mode) : ∃ first : Nat → List Piece, ∀ pos,
      first pos ≠ [] ∧ Unended mode (first pos) ∧ (∀ d, first (pos + d) = (first pos).map (shift d)) ∧
      ∀ items frames es, nest items frames (m.events pos cs ++ es) = nest (first pos) ((mode, items) :: frames) es := by
  obtain ⟨rest, rfl, rfl | ⟨n, rfl⟩⟩ := Scan.markup?_cases h
  · cases hmove
    refine ⟨fun pos => [.token ⟨.delimiter, pos, .ofList (('<' :: rest).take 2)⟩], ?_⟩
    intro pos
    refine ⟨List.cons_ne_nil _ _, ⟨_, [], rfl, rfl⟩, ?_, fun items frames es => rfl⟩
    intro d
    simp [Token.shift]
  · cases hmove
    refine ⟨fun pos => [.token ⟨.tagName, pos + 1, .ofList ((('<' :: rest).drop 1).take n)⟩,
      .token ⟨.delimiter, pos, .ofList (('<' :: rest).take 1)⟩], ?_⟩
    intro pos
    refine ⟨List.cons_ne_nil _ _, ?_, ?_, fun items frames es => rfl⟩
    · refine List.forall_mem_cons.mpr ⟨Markup.not_endsIn_token (by simp), List.forall_mem_singleton.mpr ?_⟩
      exact Unfinished.not_endsIn_angle (by simp)
    · intro d
      simp [Token.shift, Nat.add_right_comm]

/-- Where markup starts there is no closing tag. -/
theorem closingTagLength?_of_markup? {cs : List Char} {m : Scan.Match} (h : markup? cs = some m) :
    closingTagLength? cs = none := by
  unfold Scan.markup? at h
  split at h
  · next hprefix =>
    obtain ⟨rest, rfl⟩ := List.isPrefixOf_iff_prefix.mp hprefix
    exact Scan.closingTagLength?_eq_none (by decide) (by decide)
  · unfold Scan.openingTag? at h
    split at h
    · next cs =>
      obtain ⟨n, hn, -⟩ := Option.map_eq_some_iff.mp h
      unfold Text.nameLength? at hn
      split at hn
      · cases hn
      · split at hn
        · next c cs hc =>
          refine Scan.closingTagLength?_eq_none ?_ ?_
          · cases hspace : Text.isSpace c with
            | false => rfl
            | true =>
              have hpart := Text.isNamePart_of_isNameStart hc
              rw [Text.isNamePart_of_isSpace hspace] at hpart
              cases hpart
          · rintro rfl
            cases hc
        · cases hn
    · cases h

end Piece
end JsxEdit
