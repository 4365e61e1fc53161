import JsxEdit.Proofs.Fragment
import JsxEdit.Proofs.Tile

/-
Elements and fragments, wherever they stand in a source text, are read from their own text alone.

A stretch of markup comes from the event that opened it, and that event from a match in the text. From there on the run
of the scanner is the one over the markup alone, moved on to its place. So reading nothing but the text of the markup
gives the same piece, but for the places. Markup that is not closed is an invalid node.
-/
set_option autoImplicit false

namespace JsxEdit.Piece

open Scan (markup? match? current settle eventsFrom pendingToken)

/-! ## Markup among pieces -/

/-- Whether stretches of the mode are elements or fragments. -/
def opensMarkup : Mode → Bool
  | .tag | .fragment => true
  | _ => false

theorem opensMarkup_iff {mode : Mode} : opensMarkup mode = true ↔ mode = .tag ∨ mode = .fragment := by
  cases mode <;> simp [opensMarkup]

mutual

/-- The elements and fragments in a piece, itself included, in the order in which they start. -/
def markups : Piece → List Piece
  | .token _ => []
  | .stretch mode items => (if opensMarkup mode then [.stretch mode items] else []) ++ allMarkups items

/-- The elements and fragments in pieces, in the order in which they start. -/
def allMarkups : List Piece → List Piece
  | [] => []
  | p :: ps => p.markups ++ allMarkups ps

end

theorem allMarkups_append (ps qs : List Piece) : allMarkups (ps ++ qs) = allMarkups ps ++ allMarkups qs := by
  induction ps with
  | nil => rfl
  | cons p ps ih => rw [List.cons_append, allMarkups, allMarkups, ih, List.append_assoc]

theorem mem_allMarkups {q : Piece} {ps : List Piece} : q ∈ allMarkups ps ↔ ∃ p ∈ ps, q ∈ p.markups := by
  induction ps with
  | nil => simp [allMarkups]
  | cons p ps ih => simp [allMarkups, ih]

theorem mem_markups_stretch {q : Piece} {mode : Mode} {items : List Piece} (h : q ∈ markups (.stretch mode items)) :
    (opensMarkup mode = true ∧ q = .stretch mode items) ∨ ∃ p ∈ items, q ∈ p.markups := by
  rw [markups, List.mem_append] at h
  rcases h with h | h
  · split at h
    · next hmode => exact .inl ⟨hmode, List.mem_singleton.mp h⟩
    · cases h
  · exact .inr (mem_allMarkups.mp h)

/-- What opens a stretch are tokens. -/
theorem allMarkups_opens {mode : Mode} {first : List Piece} (h : Opens mode first) : allMarkups first = [] := by
  cases h <;> rfl

/-! ## From pieces to events -/

/-- Where an element or fragment among nested pieces comes from: it was there before, or it is a stretch that was open,
or one of the events opens it. -/
inductive Origin (q : Piece) (items : List Piece) (frames : List (Mode × List Piece)) (es : List Event) : Prop where
  | here {p : Piece} (mem : p ∈ items) (inside : q ∈ p.markups)
  | around {frame : Mode × List Piece} {p : Piece} (mem : frame ∈ frames) (item : p ∈ frame.2) (inside : q ∈ p.markups)
  | opened {inner rest : List (Mode × List Piece)} {mode : Mode} {outer more : List Piece}
      (found : frames = inner ++ (mode, outer) :: rest) (markup : opensMarkup mode = true)
      (nested : nest items (inner ++ [(mode, [])]) es = q :: more)
  | entered {es₁ es₂ : List Event} {mode : Mode} {more : List Piece} (split : es = es₁ ++ .enter mode :: es₂)
      (markup : opensMarkup mode = true) (nested : nest [] [(mode, [])] es₂ = q :: more)

/-- Markup that a later event opens. -/
theorem Origin.later {q : Piece} {items : List Piece} {frames : List (Mode × List Piece)} {e : Event}
    {es es₁ es₂ : List Event} {mode : Mode} {more : List Piece} (split : es = es₁ ++ .enter mode :: es₂)
    (markup : opensMarkup mode = true) (nested : nest [] [(mode, [])] es₂ = q :: more) : Origin q items frames (e :: es) := by
  have hsplit : e :: es = (e :: es₁) ++ .enter mode :: es₂ := by rw [split, List.cons_append]
  exact .entered hsplit markup nested

/-- Ending a stretch adds nothing but the stretch itself. -/
theorem Origin.close {q : Piece} {mode : Mode} {items outer : List Piece} {frames : List (Mode × List Piece)}
    {es es' : List Event} (h : Origin q (close mode items outer) frames es)
    (hnest : ∀ o fs, nest items ((mode, o) :: fs) es' = nest (Piece.close mode items o) fs es)
    (hsplit : ∀ es₁ x, es = es₁ ++ x → ∃ es₂, es' = es₂ ++ x) : Origin q items ((mode, outer) :: frames) es' := by
  cases h with
  | @here p mem inside =>
    unfold Piece.close at mem
    split at mem
    · exact .around List.mem_cons_self mem inside
    · next hne =>
      rcases List.mem_cons.mp mem with rfl | mem
      · rcases mem_markups_stretch inside with ⟨hmode, rfl⟩ | ⟨p, hp, hq⟩
        · have hstretch : nest items ([] ++ [(mode, [])]) es' = .stretch mode items.reverse :: nest [] [] es := by
            rw [List.nil_append, hnest, Piece.close, if_neg hne, nest_root]
            rfl
          exact .opened (List.nil_append _).symm hmode hstretch
        · exact .here (List.mem_reverse.mp hp) hq
      · exact .around List.mem_cons_self mem inside
  | around mem item inside => exact .around (List.mem_cons_of_mem _ mem) item inside
  | @opened inner rest mode' outer' more found markup nested =>
    have hfound : (mode, outer) :: frames = ((mode, outer) :: inner) ++ (mode', outer') :: rest := by
      rw [found, List.cons_append]
    have hnested : nest items ((mode, outer) :: inner ++ [(mode', [])]) es' = q :: more := by
      rw [List.cons_append, hnest, nested]
    exact .opened hfound markup hnested
  | entered split markup nested =>
    obtain ⟨es₂, hes⟩ := hsplit _ _ split
    exact .entered hes markup nested

theorem origin_of_closeAll {q : Piece} {items : List Piece} {frames : List (Mode × List Piece)}
    (h : q ∈ allMarkups (closeAll items frames)) : Origin q items frames [] := by
  induction frames generalizing items with
  | nil =>
    obtain ⟨p, hp, hq⟩ := mem_allMarkups.mp h
    exact .here (List.mem_reverse.mp hp) hq
  | cons frame frames ih => exact (ih h).close (fun _ _ => rfl) fun es₁ x hx => ⟨es₁, hx⟩

theorem origin_of_nest {q : Piece} {items : List Piece} {frames : List (Mode × List Piece)} {es : List Event}
    (h : q ∈ allMarkups (nest items frames es)) : Origin q items frames es := by
  induction es generalizing items frames with
  | nil => exact origin_of_closeAll h
  | cons e es ih =>
    cases e with
    | token t =>
      cases ih h with
      | @here p mem inside =>
        rcases List.mem_cons.mp mem with rfl | mem
        · cases inside
        · exact .here mem inside
      | around mem item inside => exact .around mem item inside
      | opened found markup nested => exact .opened found markup nested
      | entered split markup nested => exact .later split markup nested
    | enter mode =>
      cases ih h with
      | here mem => cases mem
      | around mem item inside =>
        rcases List.mem_cons.mp mem with rfl | mem
        · exact .here item inside
        · exact .around mem item inside
      | @opened inner _ _ _ _ found markup nested =>
        cases inner with
        | nil =>
          obtain ⟨heq, -⟩ := List.cons.inj found
          cases heq
          exact .entered (List.nil_append _).symm markup nested
        | cons frame inner =>
          obtain ⟨rfl, hrest⟩ := List.cons.inj found
          exact .opened hrest markup nested
      | entered split markup nested => exact .later split markup nested
    | leave =>
      cases frames with
      | nil =>
        cases ih (show q ∈ allMarkups (nest items [] es) from h) with
        | here mem inside => exact .here mem inside
        | around mem => cases mem
        | opened found => simp at found
        | entered split markup nested => exact .later split markup nested
      | cons frame frames =>
        exact (ih h).close (fun _ _ => rfl) fun es₁ x hx => ⟨.leave :: es₁, congrArg (List.cons .leave) hx⟩

/-! ## From events to the text -/

theorem exists_split {e : Event} {as bs es₁ es₂ : List Event} (h : as ++ bs = es₁ ++ e :: es₂) (he : e ∉ as) :
    ∃ es, bs = es ++ e :: es₂ := by
  induction as generalizing es₁ with
  | nil => exact ⟨es₁, h⟩
  | cons a as ih =>
    rw [List.mem_cons, not_or] at he
    cases es₁ with
    | nil => exact absurd (List.cons.inj h).1.symm he.1
    | cons b es₁ => exact ih (List.cons.inj h).2 he.2

theorem enter_not_mem_tokens (mode : Mode) (pos : Nat) (cs : List Char) (parts : List (TokenKind × Nat)) :
    Event.enter mode ∉ Scan.tokens pos cs parts := by
  induction parts generalizing pos cs with
  | nil => exact List.not_mem_nil
  | cons part parts ih =>
    rw [Scan.tokens]
    exact List.not_mem_cons_of_ne_of_not_mem (by simp) (ih _ _)

theorem enter_not_mem_pendingToken (mode inner : Mode) (pos : Nat) (pending : List Char) :
    Event.enter inner ∉ pendingToken mode pos pending := by
  unfold pendingToken
  split
  · split <;> simp
  · exact List.not_mem_nil

/-- The events of a match that opens markup, and of one that does not. -/
theorem events_enter {mode : Mode} (hmode : opensMarkup mode = true) (m : Scan.Match) (pos : Nat) (cs : List Char) :
    (m.move = .enter mode ∧ m.events pos cs = .enter mode :: Scan.tokens pos cs m.parts) ∨
      Event.enter mode ∉ m.events pos cs := by
  have htokens := enter_not_mem_tokens mode pos cs m.parts
  unfold Scan.Match.events
  dsimp only
  split
  · exact .inr htokens
  · exact .inr htokens
  · refine .inr ?_
    rw [List.mem_append, not_or]
    refine ⟨htokens, ?_⟩
    intro hmem
    cases List.mem_singleton.mp hmem
    cases hmode
  · next inner _ _ hmove =>
    by_cases heq : mode = inner
    · subst heq
      exact .inl ⟨hmove, rfl⟩
    · exact .inr (List.not_mem_cons_of_ne_of_not_mem (by simpa using heq) htokens)
  · refine .inr ?_
    rw [List.mem_append, not_or]
    exact ⟨htokens, by simp⟩

theorem one_move {kind : TokenKind} {n : Nat} {move : Scan.Move} {m : Scan.Match} {mode : Mode}
    (h : Scan.one kind n move = some m) (hmove : move ≠ .enter .tag ∧ move ≠ .enter .fragment)
    (hmode : opensMarkup mode = true) : m.move ≠ .enter mode := by
  rw [Scan.one_eq h]
  rcases opensMarkup_iff.mp hmode with rfl | rfl
  · exact hmove.1
  · exact hmove.2

/-- Literals open no markup. -/
theorem literal?_move {cs : List Char} {m : Scan.Match} {mode : Mode} (h : Scan.literal? cs = some m)
    (hmode : opensMarkup mode = true) : m.move ≠ .enter mode := by
  rintro hmove
  rcases Scan.literal?_spec h with ⟨kind, n, rfl⟩ | ⟨rfl, -⟩
  · cases hmove
  · cases hmove
    cases hmode

theorem lead?_move {before : Option Char} {cs : List Char} {m : Scan.Match} {mode : Mode}
    (h : Scan.lead? before cs = some m) (hmode : opensMarkup mode = true) : m.move ≠ .enter mode := by
  obtain ⟨n, -, hm⟩ := Option.bind_eq_some_iff.mp h
  exact one_move hm (by decide) hmode

theorem expression?_move {closers : List Char} {before : Option Char} {cs : List Char} {m : Scan.Match} {mode : Mode}
    (h : Scan.expression? closers before cs = some m) (hmode : opensMarkup mode = true) : m.move ≠ .enter mode := by
  unfold Scan.expression? at h
  split at h
  · cases h
  · split at h
    · exact one_move h (by decide) hmode
    · rcases Scan.orElse_some h with hl | h
      · exact lead?_move hl hmode
      · split at h
        · exact one_move h (by decide) hmode
        · split at h
          · exact one_move h (by decide) hmode
          · split at h
            · exact one_move h (by decide) hmode
            · exact literal?_move h hmode

theorem template?_move {cs : List Char} {m : Scan.Match} {mode : Mode} (h : Scan.template? cs = some m)
    (hmode : opensMarkup mode = true) : m.move ≠ .enter mode := by
  unfold Scan.template? at h
  split at h
  · cases h
  · exact one_move h (by decide) hmode
  · exact one_move h (by decide) hmode
  · exact one_move h (by decide) hmode
  · cases h
  · exact one_move h (by decide) hmode
  · exact one_move h (by decide) hmode

/-- Only what opens markup enters a mode of markup. -/
theorem markup?_of_match {current mode : Mode} {atStart : Bool} {before : Option Char} {cs : List Char} {m : Scan.Match}
    (h : match? current atStart before cs = some m) (hmode : opensMarkup mode = true) (hmove : m.move = .enter mode) :
    markup? cs = some m := by
  have hcontent : ∀ {count : Nat}, Scan.content? count cs = some m → markup? cs = some m := by
    intro count hcontent
    rcases Scan.content?_cases hcontent with ⟨n, -, rfl⟩ | hm | ⟨rest, -, rfl⟩ | rfl | rfl
    · cases hmove
    · exact hm
    · cases hmove
      cases hmode
    · cases hmove
    · cases hmove
  cases current with
  | script =>
    rcases Scan.orElse_some h with hf | h
    · split at hf
      · unfold Scan.firstMarkup? at hf
        dsimp only at hf
        split at hf
        · obtain rfl := Scan.one_eq hf
          cases hmove
          cases hmode
        · exact hf
      · cases hf
    · rcases Scan.orElse_some h with hl | h
      · exact absurd hmove (lead?_move hl hmode)
      · exact absurd hmove (literal?_move h hmode)
  | markup =>
    unfold match? at h
    dsimp only at h
    split at h
    · exact h
    · obtain rfl := Scan.one_eq h
      cases hmove
  | tag =>
    cases Scan.rule_of_match h with
    | fragment _ place => exact absurd rfl place
    | tag _ place => exact absurd rfl place
    | announce _ script => cases script
    | group _ script => cases script
    | template _ script => cases script
    | content =>
      cases hmove
      cases hmode
    | braces =>
      cases hmove
      cases hmode
    | substitution place => cases place
    | _ => cases hmove
  | content => exact hcontent h
  | fragment => exact hcontent h
  | braces => exact absurd hmove (expression?_move h hmode)
  | group => exact absurd hmove (expression?_move h hmode)
  | template => exact absurd hmove (template?_move h hmode)

/-- An event that opens markup comes from a match in the text, and so do those after it. -/
theorem eventsFrom_enter {mode : Mode} (hmode : opensMarkup mode = true) {stack : List Mode} {before : Option Char}
    {pos skip : Nat} {pending cs : List Char} {es₁ es₂ : List Event}
    (h : eventsFrom stack before pos skip pending cs = es₁ ++ .enter mode :: es₂) :
    ∃ k w m around, cs.drop k = '<' :: w ∧ markup? ('<' :: w) = some m ∧ m.move = .enter mode ∧
      .enter mode :: es₂ = m.events (pos + k) ('<' :: w) ++
        eventsFrom (mode :: around) (some '<') (pos + k + 1) (m.length - 1) [] w := by
  induction cs generalizing stack before pos skip pending es₁ with
  | nil =>
    rw [eventsFrom] at h
    exact absurd (h ▸ List.mem_append_right es₁ List.mem_cons_self) (enter_not_mem_pendingToken _ _ _ _)
  | cons c cs ih =>
    have hnext : ∀ {stack : List Mode} {before : Option Char} {skip : Nat} {pending : List Char} {es : List Event},
        eventsFrom stack before (pos + 1) skip pending cs = es ++ .enter mode :: es₂ →
        ∃ k w m around, (c :: cs).drop k = '<' :: w ∧ markup? ('<' :: w) = some m ∧ m.move = .enter mode ∧
          .enter mode :: es₂ = m.events (pos + k) ('<' :: w) ++
            eventsFrom (mode :: around) (some '<') (pos + k + 1) (m.length - 1) [] w := by
      intro stack before skip pending es hes
      obtain ⟨k, w, m, around, hdrop, hm, hmove, heq⟩ := ih hes
      refine ⟨k + 1, w, m, around, hdrop, hm, hmove, ?_⟩
      rw [heq, Nat.add_assoc pos 1 k, Nat.add_comm 1 k]
    cases skip with
    | succ skip => exact hnext h
    | zero =>
      rw [eventsFrom] at h
      cases hm : match? (current (settle (c :: cs) stack)) (pos == 0) before (c :: cs) with
      | none =>
        rw [hm] at h
        exact hnext h
      | some m =>
        rw [hm] at h
        dsimp only at h
        rw [List.append_assoc] at h
        obtain ⟨es, hes⟩ := exists_split h (enter_not_mem_pendingToken _ _ _ _)
        rcases events_enter hmode m pos (c :: cs) with ⟨hmove, hevents⟩ | hnot
        · have hmarkup := markup?_of_match hm hmode hmove
          rw [hevents, List.cons_append] at hes
          cases es with
          | nil =>
            -- this is the match that opens the markup
            obtain ⟨-, hrest⟩ := List.cons.inj hes
            obtain ⟨w, heq, -⟩ := Scan.markup?_cases hmarkup
            obtain ⟨rfl, rfl⟩ := List.cons.inj heq
            refine ⟨0, cs, m, settle ('<' :: cs) stack, rfl, hmarkup, hmove, ?_⟩
            rw [Nat.add_zero, hevents, List.cons_append, ← hrest, hmove]
            rfl
          | cons e es =>
            obtain ⟨es', hes'⟩ := exists_split (List.cons.inj hes).2 (enter_not_mem_tokens _ _ _ _)
            exact hnext hes'
        · obtain ⟨es', hes'⟩ := exists_split hes hnot
          exact hnext hes'

/-! ## Markup by itself -/

mutual

theorem tokens_shift (d : Nat) : (p : Piece) → (p.shift d).tokens = p.tokens.map (Token.shift d)
  | .token _ => rfl
  | .stretch _ items => by
    rw [shift, tokens, tokens, allTokens_shift d items]

theorem allTokens_shift (d : Nat) : (ps : List Piece) → allTokens (allShift d ps) = (allTokens ps).map (Token.shift d)
  | [] => rfl
  | p :: ps => by
    rw [allShift, allTokens, allTokens, tokens_shift d p, allTokens_shift d ps, List.map_append]

end

/-- The tokens of a part of the text stand in the text itself, too. -/
theorem tiles_shift {text : String} {a b c d : Nat} {ts : List Token} (h : Token.Tiles (Text.slice text a b) c ts d)
    (hd : a + d ≤ b) : Token.Tiles text (a + c) (ts.map (Token.shift a)) (a + d) := by
  induction ts generalizing c with
  | nil => exact congrArg (a + ·) h
  | cons t ts ih =>
    obtain ⟨rfl, hlt, htext, hrest⟩ := h
    have hle : a + t.stop ≤ b := Nat.le_trans (Nat.add_le_add_left hrest.le a) hd
    have hpos : (t.shift a).pos = a + t.pos := Nat.add_comm t.pos a
    have hstop : (t.shift a).stop = a + t.stop := by
      rw [Token.stop, hpos, Token.text_shift, Token.stop, Nat.add_assoc]
    refine ⟨hpos, ?_, ?_, ?_⟩
    · rw [hpos, hstop]
      exact Nat.add_lt_add_left hlt a
    · rw [hpos, hstop, Token.text_shift, ← Text.slice_slice text hle, ← htext]
    · rw [hstop]
      exact ih hrest

/-- An element or fragment of a text is invalid, or it is the only piece of its own text, moved on to where that starts. -/
theorem markup_alone {text : String} {q : Piece} (h : q ∈ allMarkups (ofText text)) :
    (∃ n, Markup.part q = .leaf (.node n) ∧ n.kind.isInvalid = true) ∨
      ∃ a b p, b ≤ text.length ∧ Token.Tiles text a q.tokens b ∧ ofText (Text.slice text a b) = [p] ∧ q = p.shift a := by
  cases origin_of_nest h with
  | here mem => cases mem
  | around mem => cases mem
  | opened found => simp at found
  | @entered es₁ es₂ mode more split hmode nested =>
    obtain ⟨a, w, m, around, hdrop, hm, hmove, hes⟩ := eventsFrom_enter hmode split
    rw [Nat.zero_add] at hes
    have hhead : nest [] [] (m.events a ('<' :: w) ++
        eventsFrom (mode :: around) (some '<') (a + 1) (m.length - 1) [] w) = q :: more := by
      rw [← hes]
      exact nested
    rcases complete_or_unclosed hm with ⟨v, r, heq, hv⟩ | hopen
    · right
      obtain ⟨mode', items, -, hrun⟩ := hv.alone.nest_events
      obtain ⟨hmove', hevents⟩ := hrun hv heq.symm hm
      obtain rfl : mode = mode' := Scan.Move.enter.inj (hmove.symm.trans hmove')
      obtain ⟨before, hnest⟩ := hevents around a [] []
      rw [hnest, nest_root] at hhead
      obtain ⟨hq, -⟩ := List.cons.inj hhead
      have hslice : Text.slice text a (a + v.length) = .ofList v := by
        rw [Text.slice, hdrop, heq, Nat.add_sub_cancel_left, List.take_left' rfl]
      have hlength := congrArg List.length (hdrop.trans heq)
      rw [List.length_drop, List.length_append, String.length_toList] at hlength
      have hpos := List.length_pos_iff.mpr hv.endsAngle.ne_nil
      have halone : ofText (Text.slice text a (a + v.length)) = [.stretch mode items] := by
        -- the same run over the markup alone
        obtain ⟨w', m', mode', rfl, hm', -⟩ := hv.alone
        rw [List.append_nil] at hm'
        obtain ⟨hmove'', hevents'⟩ := hrun hv.alone (List.append_nil _) hm'
        obtain ⟨before', hnest'⟩ := hevents' [] 0 [] []
        have hplace : Scan.AtMarkup [] 0 := .inr (.inr ⟨rfl, rfl⟩)
        rw [hslice, ofText, Scan.events, String.toList_ofList, eventsFrom_markup hplace hm' hmove'', hnest', nest_root,
          shift_zero]
        rfl
      have hends : ¬ Scan.EndsInBackslash (Text.slice text a (a + v.length)) := by
        intro hends
        have hlast := hends.getLast?
        rw [hslice, String.toList_ofList, hv.endsAngle] at hlast
        cases hlast
      have htiles := Scan.tiles_events hends
      rw [← allTokens_ofText, halone, allTokens_singleton, hslice, String.length_ofList, ← hslice] at htiles
      refine ⟨a, a + v.length, .stretch mode items, by omega, ?_, halone, hq.symm⟩
      rw [← hq, tokens_shift]
      exact tiles_shift htiles (Nat.le_refl _)
    · left
      obtain ⟨p, n, hpart, hinvalid, hclose⟩ := hopen.nest_events hm hmove around a [] []
      rw [hclose] at hhead
      obtain ⟨rfl, -⟩ := List.cons.inj hhead
      exact ⟨n, hpart, hinvalid⟩

end JsxEdit.Piece
