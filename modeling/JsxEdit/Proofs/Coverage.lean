import JsxEdit.Proofs.Kept
import JsxEdit.Proofs.Rule

/-
The tokens of a source text and the characters that are in none of them make up the text.

Nothing is read twice, and nesting the tokens neither loses nor moves one, so the pieces of a text without unread
characters have that very text.
-/
set_option autoImplicit false

namespace JsxEdit

/-! ## Events -/

/-- The text of an event. -/
def Event.text : Event → String
  | .token t => t.text
  | .enter _ | .leave => ""

/-- The text of events. -/
def Event.allText (es : List Event) : List Char := es.flatMap fun e => e.text.toList

namespace Scan

theorem allText_append (as bs : List Event) : Event.allText (as ++ bs) = Event.allText as ++ Event.allText bs :=
  List.flatMap_append

theorem allText_tokens (pos : Nat) (cs : List Char) (parts : List (TokenKind × Nat)) :
    Event.allText (tokens pos cs parts) = cs.take (parts.foldr (fun part n => part.2 + n) 0) := by
  induction parts generalizing pos cs with
  | nil => rfl
  | cons part parts ih =>
    obtain ⟨kind, n⟩ := part
    have hcons : Event.allText (tokens pos cs ((kind, n) :: parts)) =
        cs.take n ++ Event.allText (tokens (pos + n) (cs.drop n) parts) := by
      rw [tokens, Event.allText, List.flatMap_cons, Event.text, String.toList_ofList]
      rfl
    rw [hcons, ih, List.foldr_cons, List.take_add]

theorem allText_leaves (count : Nat) : Event.allText (List.replicate count .leave) = [] := by
  induction count with
  | zero => rfl
  | succ count ih => exact ih

/-- Entering and leaving modes adds nothing to the text of a match. -/
theorem allText_events (m : Match) (pos : Nat) (cs : List Char) :
    Event.allText (m.events pos cs) = cs.take m.length := by
  rw [Match.length, ← allText_tokens pos cs m.parts, Match.events]
  split
  · rfl
  · rfl
  · rw [allText_append]
    exact List.append_nil _
  · rfl
  · rw [allText_append, allText_leaves, List.append_nil]

theorem allText_pendingToken (mode : Mode) (pos : Nat) (pending : List Char) :
    Event.allText (pendingToken mode pos pending) = if (rest? mode).isNone then [] else pending.reverse := by
  unfold pendingToken
  cases rest? mode with
  | none => rfl
  | some kind =>
    cases pending with
    | nil => rfl
    | cons c cs => exact (List.append_nil _).trans String.toList_ofList

/-- Each character is in a token or unread, and without unread ones the tokens have the characters in order. -/
theorem eventsFrom_covers (stack : List Mode) (before : Option Char) (pos skip : Nat) (pending cs : List Char) :
    let read := Event.allText (eventsFrom stack before pos skip pending cs)
    let unread := unreadFrom stack before pos skip pending cs
    read.length + unread.length = pending.length + (cs.drop skip).length ∧
      (unread = [] → read = pending.reverse ++ cs.drop skip) := by
  induction cs generalizing stack before pos skip pending with
  | nil =>
    dsimp only
    rw [eventsFrom, unreadFrom, allText_pendingToken, List.drop_nil]
    cases (rest? (current stack)).isNone <;> simp
  | cons c cs ih =>
    dsimp only
    cases skip with
    | succ skip =>
      rw [eventsFrom, unreadFrom, List.drop_succ_cons]
      exact ih stack (some c) (pos + 1) skip pending
    | zero =>
      rw [eventsFrom, unreadFrom]
      cases hm : match? (current (settle (c :: cs) stack)) (pos == 0) before (c :: cs) with
      | none =>
        obtain ⟨hlen, heq⟩ := ih (settle (c :: cs) stack) (some c) (pos + 1) 0 (c :: pending)
        refine ⟨?_, ?_⟩
        · rw [hlen, List.drop_zero, List.drop_zero, List.length_cons, List.length_cons]
          omega
        · intro h
          rw [heq h, List.reverse_cons, List.append_assoc]
          rfl
      | some m =>
        -- the match takes at least the first character, and its text ends where the rest begins
        obtain ⟨n, hn⟩ := Nat.exists_eq_succ_of_ne_zero (Nat.ne_of_gt (rule_of_match hm).length_pos)
        obtain ⟨hlen, heq⟩ := ih (m.move.apply (settle (c :: cs) stack)) (some c) (pos + 1) (m.length - 1) []
        dsimp only
        rw [allText_append, allText_append, allText_pendingToken, allText_events]
        rw [hn, Nat.succ_sub_one, List.take_succ_cons] at *
        refine ⟨?_, ?_⟩
        · rw [List.length_nil, Nat.zero_add, List.length_drop] at hlen
          simp only [List.length_append, List.length_cons, List.length_take, List.drop_zero]
          cases (rest? (current (settle (c :: cs) stack))).isNone <;> simp <;> omega
        · intro h
          obtain ⟨hpending, hrest⟩ := List.append_eq_nil_iff.mp h
          rw [heq hrest, List.reverse_nil, List.nil_append, List.append_assoc, List.cons_append,
            List.take_append_drop, List.drop_zero]
          congr 1
          cases hnone : (rest? (current (settle (c :: cs) stack))).isNone with
          | true =>
            rw [hnone] at hpending
            exact hpending.symm
          | false => rfl

end Scan

/-! ## Pieces -/

namespace Piece

theorem allSource_append (ps qs : List Piece) : allSource (ps ++ qs) = allSource ps ++ allSource qs := by
  induction ps with
  | nil => rfl
  | cons p ps ih => rw [List.cons_append, allSource, allSource, ih, String.append_assoc]

theorem allSource_singleton (p : Piece) : allSource [p] = p.source := String.append_empty

/-- The text before the innermost open stretch. -/
def framesSource : List (Mode × List Piece) → String
  | [] => ""
  | (_, outer) :: frames => framesSource frames ++ allSource outer.reverse

theorem allSource_close (mode : Mode) (items outer : List Piece) :
    allSource (close mode items outer).reverse = allSource outer.reverse ++ allSource items.reverse := by
  unfold close
  cases items with
  | nil => exact (String.append_empty).symm
  | cons p ps =>
    rw [List.isEmpty_cons, if_neg (by decide), List.reverse_cons, allSource_append, allSource_singleton, source]

theorem allSource_closeAll (items : List Piece) (frames : List (Mode × List Piece)) :
    allSource (closeAll items frames) = framesSource frames ++ allSource items.reverse := by
  induction frames generalizing items with
  | nil => exact (String.empty_append).symm
  | cons frame frames ih =>
    obtain ⟨mode, outer⟩ := frame
    rw [closeAll, ih, allSource_close, framesSource, String.append_assoc]

theorem allSource_nest (items : List Piece) (frames : List (Mode × List Piece)) (es : List Event) :
    (allSource (nest items frames es)).toList =
      (framesSource frames ++ allSource items.reverse).toList ++ Event.allText es := by
  induction es generalizing items frames with
  | nil => rw [nest, allSource_closeAll]; exact (List.append_nil _).symm
  | cons e es ih =>
    cases e with
    | token t =>
      rw [nest, ih, List.reverse_cons, allSource_append, allSource_singleton, ← String.append_assoc,
        String.toList_append, List.append_assoc]
      rfl
    | enter mode =>
      rw [nest, ih, framesSource, List.reverse_nil, allSource, String.append_empty]
      rfl
    | leave =>
      cases frames with
      | nil => exact ih items []
      | cons frame frames =>
        obtain ⟨mode, outer⟩ := frame
        rw [nest, ih, allSource_close, framesSource, String.append_assoc]
        rfl

end Piece

/-- The pieces of a text have as many characters as the text, less those that are unread. -/
theorem length_source_ofText (text : String) :
    (Piece.allSource (Piece.ofText text)).length + (Scan.unread text).length = text.length := by
  have h := (Scan.eventsFrom_covers [] none 0 0 [] text.toList).1
  rw [← String.length_toList, ← String.length_toList, Piece.ofText, Piece.allSource_nest]
  exact h.trans (Nat.zero_add _)

/-- Without unread characters the pieces of a text have the text. -/
theorem source_ofText {text : String} (h : Scan.unread text = []) : Piece.allSource (Piece.ofText text) = text := by
  have hread := (Scan.eventsFrom_covers [] none 0 0 [] text.toList).2 h
  rw [← String.toList_inj, Piece.ofText, Piece.allSource_nest]
  exact hread

end JsxEdit
