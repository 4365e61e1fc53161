import JsxEdit.Proofs.Site
import JsxEdit.Proofs.Swap
import JsxEdit.Proofs.Recall
import JsxEdit.Proofs.ReadBack

/-
Exchanging an element of a document for another by exchanging some of its text.

If the runs over the two texts stand in the same place of the same tag before and after what is exchanged, the texts have
the same events up to there, and from there on the same events at other places. So the two documents are the same but for
the element.
-/
set_option autoImplicit false

namespace JsxEdit

open Piece (allEvents)
open Scan.Stand (InTag)
open List (Forall₂)

namespace Scan.Stand

/-! ## Runs that stand in the same place -/

/-- Two runs that go on in the same way, at other positions. -/
structure Twins (s t : Stand) : Prop where
  stack : t.stack = s.stack
  skip : t.skip = s.skip
  pending : t.pending = s.pending
  inText : s.pos ≠ 0 ∧ t.pos ≠ 0
  matched : ∀ cs, t.matched? cs = s.matched? cs

theorem Twins.of_before (stack : List Mode) (before : Option Char) {a b : Nat} (skip : Nat) (pending : List Char) (ha : a ≠ 0)
    (hb : b ≠ 0) : Twins ⟨stack, before, a, skip, pending⟩ ⟨stack, before, b, skip, pending⟩ := by
  refine ⟨rfl, rfl, rfl, ⟨ha, hb⟩, fun cs => ?_⟩
  show match? _ (b == 0) before cs = match? _ (a == 0) before cs
  rw [beq_false_of_ne ha, beq_false_of_ne hb]

/-- What stands before it is nothing to a tag. -/
theorem InTag.twins {around : List Mode} {s t : Stand} (hs : InTag around s) (ht : InTag around t) : Twins s t := by
  have hmatched {s : Stand} (h : InTag around s) (cs : List Char) : s.matched? cs = tag? cs := by
    have hcurrent : current (Mode.tag :: around) ≠ .markup := by simp [current]
    unfold matched?
    rw [h.stack, Piece.Opened.settle_eq _ hcurrent]
    rfl
  exact ⟨by rw [hs.stack, ht.stack], by rw [hs.skip, ht.skip], by rw [hs.pending, ht.pending], ⟨hs.inText, ht.inText⟩,
    fun cs => by rw [hmatched hs, hmatched ht]⟩

/-- The characters that the next match leaves out. -/
def lost (s : Stand) (cs : List Char) : List Char :=
  if s.skip = 0 ∧ (s.matched? cs).isSome = true ∧ (rest? (current (settle cs s.stack))).isNone = true then s.pending.reverse
  else []

theorem lost_skip {s : Stand} {k : Nat} (h : s.skip = k + 1) (cs : List Char) : s.lost cs = [] :=
  if_neg fun hlost => Nat.succ_ne_zero k (h.symm.trans hlost.1)

theorem lost_none {s : Stand} {cs : List Char} (h : s.matched? cs = none) : s.lost cs = [] :=
  if_neg fun hlost => by simp [h] at hlost

theorem unread_cons (s : Stand) (c : Char) (cs : List Char) :
    s.unread (c :: cs) = s.lost (c :: cs) ++ (s.step c cs).2.unread cs := by
  cases hskip : s.skip with
  | succ k =>
    rw [lost_skip hskip, step_skip hskip, unread, unreadFrom.eq_def, hskip]
    rfl
  | zero =>
    cases hm : s.matched? (c :: cs) with
    | none =>
      rw [lost_none hm, step_none hskip hm, unread, unreadFrom.eq_def, hskip]
      dsimp only
      rw [show match? (current (settle (c :: cs) s.stack)) (s.pos == 0) s.before (c :: cs) = none from hm]
      rfl
    | some m =>
      rw [lost, hskip, hm, step_match hskip hm, unread, unreadFrom.eq_def, hskip]
      dsimp only
      rw [show match? (current (settle (c :: cs) s.stack)) (s.pos == 0) s.before (c :: cs) = some m from hm]
      simp only [Option.isSome_some, true_and]
      rfl

theorem Twins.step {s t : Stand} (h : Twins s t) (c : Char) (cs : List Char) :
    (t.step c cs).1.map Event.blind = (s.step c cs).1.map Event.blind ∧ Twins (s.step c cs).2 (t.step c cs).2 := by
  have hnext : s.pos + 1 ≠ 0 ∧ t.pos + 1 ≠ 0 := ⟨Nat.succ_ne_zero _, Nat.succ_ne_zero _⟩
  cases hskip : s.skip with
  | succ k =>
    rw [step_skip hskip, step_skip (h.skip.trans hskip), h.stack, h.pending]
    exact ⟨rfl, .of_before _ _ _ _ hnext.1 hnext.2⟩
  | zero =>
    cases hm : s.matched? (c :: cs) with
    | none =>
      rw [step_none hskip hm, step_none (h.skip.trans hskip) ((h.matched _).trans hm), h.stack, h.pending]
      exact ⟨rfl, .of_before _ _ _ _ hnext.1 hnext.2⟩
    | some m =>
      rw [step_match hskip hm, step_match (h.skip.trans hskip) ((h.matched _).trans hm), h.stack, pends, pends, h.stack,
        h.pending, List.map_append, List.map_append, pendingToken_blind _ _ s.pos, events_blind m _ s.pos]
      exact ⟨rfl, .of_before _ _ _ _ hnext.1 hnext.2⟩

theorem Twins.run {s t : Stand} (h : Twins s t) (cs : List Char) :
    (t.run cs).map Event.blind = (s.run cs).map Event.blind ∧ t.unread cs = s.unread cs := by
  induction cs generalizing s t with
  | nil =>
    refine ⟨?_, ?_⟩
    · show (pendingToken (current t.stack) t.pos t.pending).map Event.blind =
        (pendingToken (current s.stack) s.pos s.pending).map Event.blind
      rw [h.stack, h.pending]
      exact pendingToken_blind _ _ _ _
    · show (if (rest? (current t.stack)).isNone then t.pending.reverse else []) =
        (if (rest? (current s.stack)).isNone then s.pending.reverse else [])
      rw [h.stack, h.pending]
  | cons c cs ih =>
    obtain ⟨hevents, hnext⟩ := h.step c cs
    obtain ⟨hrun, hunread⟩ := ih hnext
    have hlost : t.lost (c :: cs) = s.lost (c :: cs) := by
      unfold lost
      rw [h.skip, h.stack, h.matched, h.pending]
    exact ⟨by rw [run_cons, run_cons, List.map_append, List.map_append, hevents, hrun],
      by rw [unread_cons, unread_cons, hlost, hunread]⟩

/-! ## Characters in no token -/

/-- What is in no token, and what is in one or still unmatched, are all the characters. -/
theorem exists_lost {r : List Char} {s : Stand} {x : List Char} (hend : (s.after r x).skip = 0) : ∃ ls,
    s.unread (x ++ r) = ls ++ (s.after r x).unread r ∧
      (Event.allText (s.brings r x)).length + (s.after r x).pending.length + ls.length =
        s.pending.length + (x.drop s.skip).length := by
  induction x generalizing s with
  | nil =>
    refine ⟨[], rfl, ?_⟩
    rw [List.drop_nil]
    show ([] : List Char).length + s.pending.length + ([] : List Char).length = _
    simp
  | cons c x ih =>
    obtain ⟨ls, hrest, hlength⟩ := ih (s := (s.step c (x ++ r)).2) hend
    refine ⟨s.lost (c :: (x ++ r)) ++ ls, by rw [List.cons_append, unread_cons, hrest, List.append_assoc]; rfl, ?_⟩
    rw [brings, after, allText_append, List.length_append, List.length_append]
    cases hskip : s.skip with
    | succ k =>
      rw [lost_skip hskip]
      rw [step_skip hskip] at hlength ⊢
      simpa [Event.allText] using hlength
    | zero =>
      cases hm : s.matched? (c :: (x ++ r)) with
      | none =>
        rw [lost_none hm]
        rw [step_none hskip hm] at hlength ⊢
        have hnone : Event.allText [] = [] := rfl
        simp only [hnone, List.length_nil, List.length_cons, List.drop_zero] at hlength ⊢
        omega
      | some m =>
        have hle := match_le (r := r) (x := x) (c := c) (s := s) hend hskip hm
        have hpos := (rule_of_match hm).length_pos
        have hpends : (Event.allText (s.pends (c :: (x ++ r)))).length + (s.lost (c :: (x ++ r))).length = s.pending.length := by
          rw [pends, allText_pendingToken, lost, hskip, hm]
          cases (rest? (current (settle (c :: (x ++ r)) s.stack))).isNone <;> simp
        rw [step_match hskip hm] at hlength ⊢
        simp only [allText_append, allText_events, List.length_append, List.length_take, List.length_cons,
          List.length_drop, List.length_nil, List.drop_zero] at hlength hle ⊢
        omega

end Scan.Stand

/-! ## Two texts -/

/-- Two texts have the same events but for those of one piece, and after it the same events at other places. -/
structure Grafted (text text' : String) (q q' : Piece) (es₁ es₂ : List Event) : Prop where
  left : Scan.events text = es₁ ++ (q.events ++ es₂)
  right : ∃ es₂', Scan.events text' = es₁ ++ (q'.events ++ es₂') ∧ es₂'.map Event.blind = es₂.map Event.blind

section
variable {text text' : String} {x S S' Z : List Char} {around : List Mode} {s : Scan.Stand}
  (htext : text.toList = x ++ (S ++ Z)) (htext' : text'.toList = x ++ (S' ++ Z))
  (hs : s = Scan.Stand.start.after (S ++ Z) x)
  (hfence : Scan.Stand.start.brings (S' ++ Z) x = Scan.Stand.start.brings (S ++ Z) x ∧
    Scan.Stand.start.after (S' ++ Z) x = Scan.Stand.start.after (S ++ Z) x)
  (hafter : InTag around (s.after Z S)) (hafter' : InTag around (s.after Z S'))
include htext htext' hs hfence hafter hafter'

/-- Exchanging some text of a tag exchanges some pieces of it. -/
theorem exists_graft {es₁ es₂ : List Event} {t u : Token} {A G G' B : List Piece}
    (hbefore : Scan.Stand.start.brings (S ++ Z) x = es₁ ++ .enter .tag :: .token t :: .token u :: allEvents A)
    (hold : s.brings Z S = allEvents G) (hnew : s.brings Z S' = allEvents G')
    (hrest : (s.after Z S).run Z = allEvents B ++ .leave :: es₂) : ∃ B',
      Forall₂ (Likeness.elsewhere.Pieces fun _ _ => False) B B' ∧
      Grafted text text' (.stretch .tag (.token t :: .token u :: (A ++ G ++ B)))
        (.stretch .tag (.token t :: .token u :: (A ++ G' ++ B'))) es₁ es₂ := by
  have hevents : Scan.events text = es₁ ++ .enter .tag :: .token t :: .token u :: allEvents A ++
      (allEvents G ++ (allEvents B ++ .leave :: es₂)) := by
    show Scan.Stand.start.run text.toList = _
    rw [htext, Scan.Stand.run_append, Scan.Stand.run_append, hbefore, ← hs, hold, hrest]
  have hsolid : Piece.Solid (allEvents B) := by
    have hall : Piece.Solid (Scan.events text) := (Scan.Stand.run_solid .start text.toList).1
    rw [hevents] at hall
    exact hall.right.right.left
  -- what follows is alike
  have hblind := ((hafter.twins hafter').run Z).1
  rw [hrest, List.map_append, List.map_cons] at hblind
  obtain ⟨fs, gs, hrun, hfs, hgs⟩ := List.map_eq_append_iff.mp hblind
  obtain ⟨e, es₂', rfl, he, hes₂⟩ := List.map_eq_cons_iff.mp hgs
  obtain rfl : e = .leave := by
    cases e with
    | leave => rfl
    | token | enter => cases he
  obtain ⟨B', rfl, hB⟩ := Likeness.exists_pieces (B := fun _ _ => False) (Likeness.elsewhere_events hfs) hsolid
  refine ⟨B', hB, ?_, es₂', ?_, hes₂⟩
  · rw [hevents]
    simp only [Piece.events, allEvents, Piece.allEvents_append, List.append_assoc, List.cons_append, List.nil_append]
  · show Scan.Stand.start.run text'.toList = _
    rw [htext', Scan.Stand.run_append, Scan.Stand.run_append, hfence.1, hfence.2, hbefore, ← hs, hnew, hrun]
    simp only [Piece.events, allEvents, Piece.allEvents_append, List.append_assoc, List.cons_append, List.nil_append]

/-- If every character was in a token, every character is in one, as long as that is so for the new ones. -/
theorem unread_graft (hin : InTag around s) (h : Scan.unread text = [])
    (hnew : (Event.allText (s.brings Z S')).length = S'.length) :
    Scan.unread text' = [] := by
  have hstart : Scan.Stand.start.unread (x ++ (S ++ Z)) = [] := by
    rw [← htext]
    exact h
  obtain ⟨hcovers, hunread⟩ := Scan.Stand.brings_covers hstart (by rw [← hs]; exact hin.skip)
  rw [← hs] at hcovers hunread
  have hrest := (Scan.Stand.brings_covers hunread hafter.skip).2
  -- no character before the new ones is lost, none of these, and none after them
  obtain ⟨ls, hls, hlength⟩ := Scan.Stand.exists_lost (s := .start) (r := S' ++ Z) (x := x)
    (by rw [hfence.2, ← hs]; exact hin.skip)
  rw [hfence.1, hfence.2, ← hs] at hlength
  have hlen := congrArg List.length hcovers
  rw [List.length_append, List.length_append, List.length_reverse, List.length_reverse] at hlen
  obtain rfl : ls = [] := List.eq_nil_of_length_eq_zero (by omega)
  obtain ⟨ls', hls', hlength'⟩ := Scan.Stand.exists_lost (s := s) (r := Z) (x := S') hafter'.skip
  rw [hin.pending, hin.skip, hafter'.pending, hnew, List.drop_zero, List.length_nil] at hlength'
  obtain rfl : ls' = [] := List.eq_nil_of_length_eq_zero (by omega)
  have hsame := ((hafter.twins hafter').run Z).2
  show Scan.Stand.start.unread text'.toList = []
  rw [htext', hls, hfence.2, ← hs, hls', hsame, hrest]
  rfl

end

/-! ## What is read of the two texts -/

theorem Token.Tiles.bounds {text : String} {a b : Nat} {ts : List Token} (h : Tiles text a ts b) :
    ∀ t ∈ ts, a ≤ t.pos ∧ t.pos < b := by
  induction ts generalizing a with
  | nil => exact List.forall_mem_nil _
  | cons t ts ih =>
    obtain ⟨hpos, hlt, -, hrest⟩ := h
    refine List.forall_mem_cons.mpr ⟨⟨Nat.le_of_eq hpos.symm, Nat.lt_of_lt_of_le hlt hrest.le⟩, fun u hu => ?_⟩
    obtain ⟨hle, hub⟩ := ih hrest u hu
    exact ⟨Nat.le_trans (Nat.le_of_lt (hpos ▸ hlt)) hle, hub⟩

theorem Event.mem_tokens {t : Token} {es : List Event} : t ∈ Event.tokens es ↔ .token t ∈ es := by
  rw [Event.tokens, List.mem_filterMap]
  constructor
  · rintro ⟨e, he, heq⟩
    cases e with
    | token u =>
      obtain rfl := Option.some.inj heq
      exact he
    | enter | leave => cases heq
  · exact fun h => ⟨_, h, rfl⟩

/-- No other token stands where a token of the text does. -/
theorem pos_ne_of_split {text : String} {es fs : List Event} {t : Token} (h : Scan.events text = es ++ .token t :: fs) :
    (∀ u, .token u ∈ es → u.pos ≠ t.pos) ∧ ∀ u, .token u ∈ fs → u.pos ≠ t.pos := by
  obtain ⟨b, htiles, -⟩ := Markup.exists_tiles_ofText text
  rw [Piece.allTokens_ofText, h, Event.tokens_append] at htiles
  obtain ⟨c, hleft, hright⟩ := Token.Tiles.append_iff.mp htiles
  obtain ⟨hpos, hlt, -, hrest⟩ := hright
  refine ⟨fun u hu => ?_, fun u hu => ?_⟩
  · have hbound := (hleft.bounds u (Event.mem_tokens.mpr hu)).2
    omega
  · have hbound := (hrest.bounds u (Event.mem_tokens.mpr hu)).1
    omega

namespace Likeness

variable {L : Likeness} {B : Piece → Piece → Prop}

/-- Events that are the same for both. -/
theorem nest_common {es : List Event} (hes : Forall₂ L.Events es es) {items items' : List Piece}
    {frames frames' : List (Mode × List Piece)} (h : Forall₂ (L.Pieces B) items items')
    (hframes : Forall₂ (L.Frames B) frames frames') {fs fs' : List Event}
    (hrest : ∀ items items' frames frames', Forall₂ (L.Pieces B) items items' → Forall₂ (L.Frames B) frames frames' →
      Forall₂ (L.Pieces B) (Piece.nest items frames fs) (Piece.nest items' frames' fs')) :
    Forall₂ (L.Pieces B) (Piece.nest items frames (es ++ fs)) (Piece.nest items' frames' (es ++ fs')) := by
  induction es generalizing items items' frames frames' with
  | nil => exact hrest _ _ _ _ h hframes
  | cons e es ih =>
    obtain ⟨he, hes'⟩ := List.forall₂_cons.mp hes
    cases he with
    | token ht => exact ih hes' (.cons (.token ht) h) hframes
    | enter mode => exact ih hes' .nil (.cons ⟨rfl, h⟩ hframes)
    | leave =>
      cases hframes with
      | nil => exact ih hes' h .nil
      | @cons frame frame' frames frames' hframe hrest' =>
        obtain ⟨mode, outer⟩ := frame
        obtain ⟨mode', outer'⟩ := frame'
        obtain ⟨rfl, houter⟩ := hframe
        exact ih hes' (close_alike mode' h houter) hrest'

mutual

/-- Where one piece is exchanged for another and no other is like it, the other is there. -/
theorem mem_markups_alike {t : Token} {mode : Mode} {items : List Piece} {q q' : Piece} (ht : ∀ u, ¬ L.tokens t u)
    (hq : q = .stretch mode (.token t :: items)) (hself : q' ∈ q'.markups) : (p p' : Piece) →
    L.Pieces (fun a b => a = q ∧ b = q') p p' → q ∈ p.markups → q' ∈ p'.markups
  | .token _, _, _, h => by cases h
  | .stretch inner its, p', hp, h => by
    cases hp with
    | base known =>
      rw [known.2]
      exact hself
    | @stretch _ its' _ like =>
      rw [Piece.markups, List.mem_append] at h ⊢
      right
      rcases h with h | h
      · -- the piece itself starts with the token
        obtain ⟨-, heq⟩ : Piece.opensMarkup inner = true ∧ q = .stretch inner its := by simpa using h
        rw [hq] at heq
        obtain ⟨-, rfl⟩ := Piece.stretch.inj heq
        cases like with
        | cons hfirst _ =>
          obtain ⟨u, -, hu⟩ := pieces_token hfirst
          exact absurd hu (ht u)
      · exact mem_allMarkups_alike ht hq hself its its' like h

theorem mem_allMarkups_alike {t : Token} {mode : Mode} {items : List Piece} {q q' : Piece} (ht : ∀ u, ¬ L.tokens t u)
    (hq : q = .stretch mode (.token t :: items)) (hself : q' ∈ q'.markups) : (ps ps' : List Piece) →
    Forall₂ (L.Pieces fun a b => a = q ∧ b = q') ps ps' → q ∈ Piece.allMarkups ps → q' ∈ Piece.allMarkups ps'
  | [], _, _, h => by cases h
  | p :: ps, p' :: ps', .cons hp hps, h => by
    rw [Piece.allMarkups, List.mem_append] at h ⊢
    exact h.imp (mem_markups_alike ht hq hself p p' hp) (mem_allMarkups_alike ht hq hself ps ps' hps)

end

end Likeness

namespace Grafted

variable {text text' : String} {mode : Mode} {t : Token} {items : List Piece} {q' : Piece} {es₁ es₂ : List Event}

/-- The pieces of the two texts are alike, with one exchanged for the other. -/
theorem pieces (h : Grafted text text' (.stretch mode (.token t :: items)) q' es₁ es₂) {new : Node}
    (hnew : new.kind.isElement = true) : Forall₂ ((Node.swapping (· == t.pos) new hnew).Pieces
      fun p p' => p = .stretch mode (.token t :: items) ∧ p' = q') (Piece.ofText text) (Piece.ofText text') := by
  obtain ⟨es₂', hright, hblind⟩ := h.right
  have hsplit : Scan.events text = (es₁ ++ [.enter mode]) ++ .token t :: ((allEvents items ++ [.leave]) ++ es₂) := by
    rw [h.left]
    simp only [Piece.events, allEvents, List.append_assoc, List.cons_append, List.nil_append]
  obtain ⟨hbefore, hafter⟩ := pos_ne_of_split hsplit
  have hsolid : Piece.Solid (Piece.stretch mode (.token t :: items)).events := by
    have hall : Piece.Solid (Scan.events text) := (Scan.Stand.run_solid .start text.toList).1
    rw [h.left] at hall
    exact hall.right.left
  have hsolid' : Piece.Solid q'.events := by
    have hall : Piece.Solid (Scan.events text') := (Scan.Stand.run_solid .start text'.toList).1
    rw [hright] at hall
    exact hall.right.left
  rw [Piece.ofText, Piece.ofText, h.left, hright]
  refine Likeness.nest_common (Likeness.swapping_events rfl fun u hu => ?_) .nil .nil
    fun items' items'' frames frames' hitems hframes => ?_
  · exact beq_false_of_ne (hbefore u (List.mem_append_left _ hu))
  · rw [Piece.nest_events _ _ _ _ hsolid, Piece.nest_events _ _ _ _ hsolid']
    refine Likeness.nest_alike (.cons (.base ⟨rfl, rfl⟩) hitems) hframes (Likeness.swapping_events hblind fun u hu => ?_)
    exact beq_false_of_ne (hafter u (List.mem_append_right _ hu))

/-- The other piece is among those of the other text. -/
theorem mem (h : Grafted text text' (.stretch mode (.token t :: items)) q' es₁ es₂) (hself : q' ∈ q'.markups)
    (hq : .stretch mode (.token t :: items) ∈ Piece.allMarkups (Piece.ofText text)) :
    q' ∈ Piece.allMarkups (Piece.ofText text') := by
  refine Likeness.mem_allMarkups_alike (t := t) (fun u hu => ?_) rfl hself _ _ (@pieces _ _ _ _ _ _ _ _ h (.element "" [] []) rfl) hq
  have hother : (t.pos == t.pos) = false := hu.2.2
  rw [beq_self_eq_true] at hother
  cases hother

/-- The documents are the same but for the element, and the one is kept as the other is. -/
theorem documents (h : Grafted text text' (.stretch mode (.token t :: items)) q' es₁ es₂) {new : Node}
    (hnew : new.kind.isElement = true)
    (hjudge : (Node.swapping (· == t.pos) new hnew).Judgements (judge (.stretch mode (.token t :: items))) (judge q')) :
    (Markup.nodes text').map Node.blind = (Markup.nodes text).map (Node.swap (· == t.pos) new) ∧
      (judgeAll (Piece.ofText text')).all (·.markup) = (judgeAll (Piece.ofText text)).all (·.markup) := by
  have hpieces := h.pieces hnew
  have hall : Forall₂ (Node.swapping (· == t.pos) new hnew).Judgements (judgeAll (Piece.ofText text))
      (judgeAll (Piece.ofText text')) := by
    rw [Likeness.judgeAll_eq_map, Likeness.judgeAll_eq_map, List.forall₂_map_left_iff, List.forall₂_map_right_iff]
    have hformed := (List.forall₂_and_left _ _).mpr ⟨fun p hp => (Piece.ofText_formed text p hp).2, hpieces⟩
    refine hformed.imp fun p p' hp => Likeness.judge_alike ?_ hp.1 hp.2
    rintro _ _ ⟨rfl, rfl⟩
    exact hjudge
  refine ⟨Node.map_blind_of_forall₂ ?_, Likeness.markup_eq hall⟩
  have hparts := Likeness.parts_alike hall
  rw [Judged.parts_judgeAll, Judged.parts_judgeAll] at hparts
  exact Likeness.code_alike (Likeness.allLeaves_alike hparts)

/-- Where the one text is read as a document and kept, the other is read as the document with another element, and kept. -/
theorem exists_document (h : Grafted text text' (.stretch mode (.token t :: items)) q' es₁ es₂) {tree new : Node}
    (hparse : Source.parse text = .ok tree) (hkept : keeps text = true) (hunread : Scan.unread text' = [])
    (hnew : new.kind.isElement = true) (hvalid : new.isValid = true)
    (hjudge : (Node.swapping (· == t.pos) new hnew).Judgements (judge (.stretch mode (.token t :: items))) (judge q')) :
    ∃ tree', Source.parse text' = .ok tree' ∧ tree'.write = text' ∧
      (tree'.withKind tree.kind).blind = Node.swap (· == t.pos) new tree := by
  obtain ⟨rfl, hall⟩ := Source.parse_eq_ok hparse
  obtain ⟨hnodes, hmarkup⟩ := h.documents hnew hjudge
  have hall' : Node.allValid (Markup.nodes text') = true := by
    rw [← Node.allValid_blind, hnodes]
    exact Node.allValid_swap hvalid _ hall
  have hparse' := Source.parse_of_allValid hall'
  have hkept' : keeps text' = true := by
    rw [keeps, Bool.and_eq_true] at hkept ⊢
    exact ⟨by rw [hunread]; rfl, hmarkup.trans hkept.2⟩
  refine ⟨_, hparse', (write_eq_iff_keeps hparse').mpr hkept', ?_⟩
  have hdocument : ((Source.document text).withKind (.document (some text))).isHit (· == t.pos) = false := rfl
  rw [Node.swap_other hdocument]
  show (Node.mk (.document (some text)) {} [] (Markup.nodes text')).blind = _
  rw [Node.blind_mk, hnodes]
  rfl

end Grafted

end JsxEdit
