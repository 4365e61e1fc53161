import JsxEdit.Proofs.Fence
import JsxEdit.Proofs.Standalone
import JsxEdit.Proofs.Swap
import Mathlib.Data.List.Chain

/-
Pieces and the events that they came from.

Nesting is undone by telling, for every stretch, where it is entered and where it is left. The events of a scanner come
back in this way, since it leaves no stretch that has nothing in it. So a list of pieces can be taken apart, and so can the
events for it, and the text with them.
-/
set_option autoImplicit false

open List (Forall₂)

namespace JsxEdit

namespace Piece

mutual

/-- The events that make up the piece. -/
def events : Piece → List Event
  | .token t => [.token t]
  | .stretch mode items => .enter mode :: (allEvents items ++ [.leave])

/-- The events that make up the pieces. -/
def allEvents : List Piece → List Event
  | [] => []
  | p :: ps => p.events ++ allEvents ps

end

theorem allEvents_append (ps qs : List Piece) : allEvents (ps ++ qs) = allEvents ps ++ allEvents qs := by
  induction ps with
  | nil => rfl
  | cons p ps ih => rw [List.cons_append, allEvents, allEvents, ih, List.append_assoc]

theorem allEvents_singleton (p : Piece) : allEvents [p] = p.events := List.append_nil _

theorem allEvents_tokens (ts : List Token) : allEvents (ts.map .token) = ts.map .token := by
  induction ts with
  | nil => rfl
  | cons t ts ih => rw [List.map_cons, allEvents, ih, List.map_cons, events, List.singleton_append]

mutual

/-- A piece ends all that it begins. -/
theorem level_events (n : Nat) (es : List Event) : (p : Piece) → Scan.level n (p.events ++ es) = Scan.level n es
  | .token _ => rfl
  | .stretch mode items => by
    rw [events, List.cons_append, List.append_assoc, Scan.level, level_allEvents (n + 1) _ items]
    rfl

theorem level_allEvents (n : Nat) (es : List Event) : (ps : List Piece) →
    Scan.level n (allEvents ps ++ es) = Scan.level n es
  | [] => rfl
  | p :: ps => by rw [allEvents, List.append_assoc, level_events n _ p, level_allEvents n es ps]

end

/-! ## Nesting and its undoing -/

/-- The second event does not leave what the first one enters. -/
def Holds (e f : Event) : Prop := f = .leave → ∀ mode, e ≠ .enter mode

/-- Events that leave no stretch which has nothing in it. -/
def Solid (es : List Event) : Prop := es.IsChain Holds

theorem Solid.left {es fs : List Event} (h : Solid (es ++ fs)) : Solid es := h.left_of_append

theorem Solid.right {es fs : List Event} (h : Solid (es ++ fs)) : Solid fs := h.right_of_append

/-- The events up to some point of a nesting. -/
def opened (items : List Piece) : List (Mode × List Piece) → List Event
  | [] => allEvents items.reverse
  | (mode, outer) :: frames => opened outer frames ++ .enter mode :: allEvents items.reverse

theorem opened_cons (p : Piece) (items : List Piece) (frames : List (Mode × List Piece)) :
    opened (p :: items) frames = opened items frames ++ p.events := by
  cases frames with
  | nil => rw [opened, opened, List.reverse_cons, allEvents_append, allEvents_singleton]
  | cons frame frames =>
    rw [opened, opened, List.reverse_cons, allEvents_append, allEvents_singleton, List.append_assoc, List.cons_append]

/-- Events that end what they begin are those of their nesting. -/
theorem allEvents_nest {items : List Piece} {frames : List (Mode × List Piece)} {es : List Event}
    (hlevel : Scan.level frames.length es = some 0) (hsolid : Solid (opened items frames ++ es)) :
    allEvents (nest items frames es) = opened items frames ++ es := by
  induction es generalizing items frames with
  | nil =>
    obtain rfl := List.length_eq_zero_iff.mp (Option.some.inj hlevel)
    exact (List.append_nil _).symm
  | cons e es ih =>
    cases e with
    | token t =>
      have hopened : opened (.token t :: items) frames ++ es = opened items frames ++ .token t :: es := by
        rw [opened_cons, events, List.append_assoc, List.singleton_append]
      rw [nest, ih hlevel (hopened ▸ hsolid), hopened]
    | enter mode =>
      have hopened : opened [] ((mode, items) :: frames) ++ es = opened items frames ++ .enter mode :: es := by
        rw [opened, List.reverse_nil, allEvents, List.append_assoc, List.singleton_append]
      rw [nest, ih hlevel (hopened ▸ hsolid), hopened]
    | leave =>
      cases frames with
      | nil => cases hlevel
      | cons frame frames =>
        obtain ⟨mode, outer⟩ := frame
        have hne : items ≠ [] := by
          rintro rfl
          rw [opened, List.reverse_nil, allEvents, List.append_assoc, List.singleton_append] at hsolid
          exact (List.isChain_cons_cons.mp hsolid.right).1 rfl mode rfl
        have hopened : opened (close mode items outer) frames ++ es = opened items ((mode, outer) :: frames) ++ .leave :: es := by
          rw [close_of_ne_nil hne, opened_cons, events, opened]
          simp only [List.append_assoc, List.cons_append, List.nil_append]
        rw [nest, ih hlevel (hopened ▸ hsolid), hopened]

mutual

/-- The events of a piece are nested to the piece. -/
theorem nest_events (items : List Piece) (frames : List (Mode × List Piece)) (es : List Event) : (p : Piece) →
    Solid p.events → nest items frames (p.events ++ es) = nest (p :: items) frames es
  | .token t, _ => rfl
  | .stretch mode ps, h => by
    have hne : ps.reverse ≠ [] := by
      rw [ne_eq, List.reverse_eq_nil_iff]
      rintro rfl
      exact (List.isChain_cons_cons.mp h).1 rfl mode rfl
    have hps : Solid (allEvents ps) := Solid.left (List.IsChain.tail h)
    rw [events, List.cons_append, List.append_assoc, nest, nest_allEvents [] _ _ ps hps, List.append_nil,
      List.singleton_append, nest, close_of_ne_nil hne, List.reverse_reverse]

/-- The events of pieces are nested to the pieces. -/
theorem nest_allEvents (items : List Piece) (frames : List (Mode × List Piece)) (es : List Event) : (ps : List Piece) →
    Solid (allEvents ps) → nest items frames (allEvents ps ++ es) = nest (ps.reverse ++ items) frames es
  | [], _ => rfl
  | p :: ps, h => by
    rw [allEvents, List.append_assoc, nest_events items frames _ p h.left, nest_allEvents _ _ _ ps h.right,
      List.reverse_cons, List.append_assoc, List.singleton_append]

end

/-- Pieces whose last event is that of a token end with the token. -/
theorem split_last {ps : List Piece} {es : List Event} {t : Token} (h : allEvents ps = es ++ [Event.token t]) :
    ∃ qs, ps = qs ++ [Piece.token t] ∧ allEvents qs = es := by
  induction ps using List.reverseRecOn with
  | nil => simp [allEvents] at h
  | append_singleton ps p _ =>
    rw [allEvents_append, allEvents_singleton] at h
    cases p with
    | token u =>
      obtain ⟨hes, hu⟩ := List.append_inj' h rfl
      cases hu
      exact ⟨ps, rfl, hes⟩
    | stretch mode items =>
      rw [events, ← List.cons_append, ← List.append_assoc] at h
      cases (List.append_inj' h rfl).2

end Piece

/-! ## Events that are alike -/

namespace Likeness

variable {L : Likeness} {B : Piece → Piece → Prop}

theorem level_alike {es fs : List Event} (h : Forall₂ L.Events es fs) (n : Nat) : Scan.level n fs = Scan.level n es := by
  induction h generalizing n with
  | nil => rfl
  | cons he _ ih =>
    cases he with
    | token => exact ih n
    | enter => exact ih (n + 1)
    | leave =>
      cases n with
      | zero => rfl
      | succ n => exact ih n

theorem solid_alike {es fs : List Event} (h : Forall₂ L.Events es fs) (hes : Piece.Solid es) : Piece.Solid fs := by
  induction h with
  | nil => exact .nil
  | @cons e f es fs he h ih =>
    cases h with
    | nil => exact .singleton f
    | @cons e' f' es fs he' h =>
      rw [Piece.Solid, List.isChain_cons_cons] at hes ⊢
      refine ⟨?_, ih hes.2⟩
      rintro rfl mode rfl
      cases he
      cases he'
      exact hes.1 rfl mode rfl

/-- What is alike to the events of pieces are events of pieces that are alike. -/
theorem exists_pieces {ps : List Piece} {fs : List Event} (h : Forall₂ L.Events (Piece.allEvents ps) fs)
    (hsolid : Piece.Solid (Piece.allEvents ps)) : ∃ qs, fs = Piece.allEvents qs ∧ Forall₂ (L.Pieces B) ps qs := by
  have hlevel : Scan.level 0 fs = some 0 := by
    rw [level_alike h, ← List.append_nil (Piece.allEvents ps), Piece.level_allEvents]
    rfl
  have hevents : Piece.allEvents (Piece.nest [] [] fs) = Piece.opened [] [] ++ fs :=
    Piece.allEvents_nest hlevel (solid_alike h hsolid)
  have hpieces : Forall₂ (L.Pieces B) (Piece.nest [] [] (Piece.allEvents ps)) (Piece.nest [] [] fs) :=
    nest_alike .nil .nil h
  rw [← List.append_nil (Piece.allEvents ps), Piece.nest_allEvents [] [] [] ps hsolid, List.append_nil] at hpieces
  refine ⟨Piece.nest [] [] fs, hevents.symm, ?_⟩
  rwa [Piece.nest, Piece.closeAll, List.reverse_reverse] at hpieces

end Likeness

/-! ## The events of a scanner -/

namespace Scan

open Piece (Holds Solid)

theorem solid_of_tokens {es : List Event} (h : ∀ e ∈ es, ∀ mode, e ≠ .enter mode) : Solid es := by
  rw [Solid, List.isChain_iff_getElem]
  intro i hi _ mode
  exact h _ (List.getElem_mem _) mode

theorem mem_tokens {pos : Nat} {cs : List Char} {parts : List (TokenKind × Nat)} {e : Event}
    (h : e ∈ tokens pos cs parts) : ∃ t, e = .token t := by
  induction parts generalizing pos cs with
  | nil => cases h
  | cons part parts ih =>
    obtain ⟨kind, n⟩ := part
    rcases List.mem_cons.mp h with rfl | h
    · exact ⟨_, rfl⟩
    · exact ih h

theorem tokens_cons_cons (pos : Nat) (cs : List Char) (part : TokenKind × Nat) (parts : List (TokenKind × Nat)) :
    ∃ t, tokens pos cs (part :: parts) = .token t :: tokens (pos + part.2) (cs.drop part.2) parts := ⟨_, rfl⟩

/-- A match does not start by leaving a stretch, nor does it leave one with nothing in it. -/
theorem Match.solid {m : Match} (hm : m.parts ≠ []) (pos : Nat) (cs : List Char) :
    Solid (m.events pos cs) ∧ (m.events pos cs).head? ≠ some .leave := by
  obtain ⟨parts, move⟩ := m
  obtain ⟨part, parts, rfl⟩ := List.exists_cons_of_ne_nil hm
  obtain ⟨t, ht⟩ := tokens_cons_cons pos cs part parts
  have htokens : ∀ e ∈ tokens pos cs (part :: parts), ∀ mode, e ≠ .enter mode := by
    intro e he mode
    obtain ⟨t, rfl⟩ := mem_tokens he
    exact Event.noConfusion
  have hleaves (n : Nat) : ∀ e ∈ tokens pos cs (part :: parts) ++ List.replicate n .leave, ∀ mode, e ≠ .enter mode := by
    intro e he mode
    rcases List.mem_append.mp he with he | he
    · exact htokens e he mode
    · rw [List.eq_of_mem_replicate he]
      exact Event.noConfusion
  have henter (mode : Mode) : Solid (.enter mode :: tokens pos cs (part :: parts)) := by
    rw [Solid, ht, List.isChain_cons_cons, ← ht]
    exact ⟨Event.noConfusion, solid_of_tokens htokens⟩
  have hcontent : Solid (tokens pos cs (part :: parts) ++ [Event.enter .content]) := by
    refine (solid_of_tokens htokens).append (.singleton _) ?_
    intro e he f hf
    cases hf
    exact Event.noConfusion
  cases move with
  | stay => exact ⟨solid_of_tokens htokens, by simp [Match.events, ht]⟩
  | leave n => exact ⟨solid_of_tokens (hleaves n), by simp [Match.events, ht]⟩
  | enter mode =>
    cases mode with
    | markup => exact ⟨solid_of_tokens htokens, by simp [Match.events, ht]⟩
    | content => exact ⟨hcontent, by simp [Match.events, ht]⟩
    | _ => exact ⟨henter _, by simp [Match.events]⟩

theorem Rule.parts_ne_nil {mode : Mode} {cs : List Char} {m : Match} (h : Rule mode cs m) : m.parts ≠ [] := by
  cases h <;> exact List.cons_ne_nil _ _

namespace Stand

theorem step_solid (s : Stand) (c : Char) (cs : List Char) :
    Solid (s.step c cs).1 ∧ (s.step c cs).1.head? ≠ some .leave := by
  have hpends : (∀ e ∈ s.pends (c :: cs), ∀ mode, e ≠ .enter mode) ∧ (s.pends (c :: cs)).head? ≠ some .leave := by
    have hmem : ∀ e ∈ s.pends (c :: cs), ∃ t, e = .token t := by
      intro e he
      obtain ⟨t, rfl, -⟩ := isPending_of_mem he
      exact ⟨t, rfl⟩
    refine ⟨fun e he mode => ?_, fun hhead => ?_⟩
    · obtain ⟨t, rfl⟩ := hmem e he
      exact Event.noConfusion
    · obtain ⟨t, ht⟩ := hmem _ (List.mem_of_head? hhead)
      cases ht
  cases hskip : s.skip with
  | succ k =>
    rw [step_skip hskip]
    exact ⟨.nil, nofun⟩
  | zero =>
    cases hm : s.matched? (c :: cs) with
    | none =>
      rw [step_none hskip hm]
      exact ⟨.nil, nofun⟩
    | some m =>
      obtain ⟨hevents, hhead⟩ := Match.solid (rule_of_match hm).parts_ne_nil s.pos (c :: cs)
      rw [step_match hskip hm]
      refine ⟨(solid_of_tokens hpends.1).append hevents ?_, ?_⟩
      · rintro e - f hf rfl
        exact absurd hf hhead
      · rw [List.head?_append]
        cases hfirst : (s.pends (c :: cs)).head? with
        | none => exact hhead
        | some e => exact fun heq => hpends.2 (hfirst.trans heq)

/-- The scanner leaves no stretch that has nothing in it. -/
theorem run_solid (s : Stand) (cs : List Char) : Solid (s.run cs) ∧ (s.run cs).head? ≠ some .leave := by
  induction cs generalizing s with
  | nil =>
    rw [run, eventsFrom]
    have hmem : ∀ e ∈ pendingToken (current s.stack) s.pos s.pending, ∃ t, e = .token t := by
      intro e he
      obtain ⟨t, rfl, -⟩ := isPending_of_mem he
      exact ⟨t, rfl⟩
    refine ⟨solid_of_tokens fun e he mode => ?_, fun hhead => ?_⟩
    · obtain ⟨t, rfl⟩ := hmem e he
      exact Event.noConfusion
    · obtain ⟨t, ht⟩ := hmem _ (List.mem_of_head? hhead)
      cases ht
  | cons c cs ih =>
    obtain ⟨hstep, hhead⟩ := s.step_solid c cs
    obtain ⟨hrun, hnext⟩ := ih (s.step c cs).2
    rw [run_cons]
    refine ⟨hstep.append hrun ?_, ?_⟩
    · rintro e - f hf rfl
      exact absurd hf hnext
    · rw [List.head?_append]
      cases hfirst : (s.step c cs).1.head? with
      | none => exact hnext
      | some e => exact fun heq => hhead (hfirst.trans heq)

/-! ## The text of a passage -/

/-- The characters that are in no token. -/
def unread (s : Stand) (cs : List Char) : List Char := unreadFrom s.stack s.before s.pos s.skip s.pending cs

/-- Without unread characters, what is unmatched before a match is in a token. -/
theorem unread_match {s : Stand} {c : Char} {cs : List Char} {m : Match} (hskip : s.skip = 0)
    (hm : s.matched? (c :: cs) = some m) (h : s.unread (c :: cs) = []) :
    Event.allText (s.pends (c :: cs)) = s.pending.reverse ∧
      unread ⟨m.move.apply (settle (c :: cs) s.stack), some c, s.pos + 1, m.length - 1, []⟩ cs = [] := by
  rw [unread, unreadFrom.eq_def] at h
  dsimp only at h
  rw [hskip] at h
  dsimp only at h
  rw [show match? (current (settle (c :: cs) s.stack)) (s.pos == 0) s.before (c :: cs) = some m from hm] at h
  obtain ⟨hlost, hrest⟩ := List.append_eq_nil_iff.mp h
  refine ⟨?_, hrest⟩
  rw [pends, allText_pendingToken]
  split
  · next hnone =>
    rw [if_pos hnone] at hlost
    exact hlost.symm
  · rfl

/-- Without unread characters, a passage brings its text, up to what is unmatched at its end. -/
theorem brings_covers {r : List Char} {s : Stand} {x : List Char} (h : s.unread (x ++ r) = [])
    (hend : (s.after r x).skip = 0) :
    Event.allText (s.brings r x) ++ (s.after r x).pending.reverse = s.pending.reverse ++ x.drop s.skip ∧
      (s.after r x).unread r = [] := by
  induction x generalizing s with
  | nil =>
    have hskip : s.skip = 0 := hend
    refine ⟨?_, h⟩
    rw [hskip]
    exact (List.append_nil _).symm
  | cons c x ih =>
    rw [List.cons_append] at h
    have hread := h
    rw [unread, unreadFrom.eq_def] at h
    rw [after] at hend ⊢
    rw [brings]
    cases hskip : s.skip with
    | succ k =>
      rw [hskip] at h
      rw [step_skip hskip] at hend ⊢
      exact ih h hend
    | zero =>
      rw [hskip] at h
      dsimp only at h
      cases hm : s.matched? (c :: (x ++ r)) with
      | none =>
        rw [show match? (current (settle (c :: (x ++ r)) s.stack)) (s.pos == 0) s.before (c :: (x ++ r)) = none from hm] at h
        rw [step_none hskip hm] at hend ⊢
        have hnext : unread ⟨settle (c :: (x ++ r)) s.stack, some c, s.pos + 1, 0, c :: s.pending⟩ (x ++ r) = [] := h
        obtain ⟨htext, hrest⟩ := ih hnext hend
        refine ⟨?_, hrest⟩
        rw [List.nil_append, htext, List.reverse_cons, List.append_assoc]
        rfl
      | some m =>
        obtain ⟨hpends, hnext⟩ := unread_match hskip hm hread
        have hle := match_le (r := r) (x := x) (c := c) (s := s) hend hskip hm
        rw [step_match hskip hm] at hend ⊢
        obtain ⟨htext, hrest⟩ := ih hnext hend
        refine ⟨?_, hrest⟩
        obtain ⟨n, hn⟩ := Nat.exists_eq_succ_of_ne_zero (Nat.ne_of_gt (rule_of_match hm).length_pos)
        rw [allText_append, allText_append, hpends, allText_events, List.append_assoc, List.append_assoc, htext,
          List.reverse_nil, List.nil_append, List.drop_zero, ← List.cons_append, List.take_append_of_le_length hle, hn,
          Nat.succ_sub_one, List.take_succ_cons, List.cons_append, List.take_append_drop]

end Stand
end Scan
end JsxEdit
