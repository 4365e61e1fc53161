import JsxEdit.Proofs.Coverage
import JsxEdit.Proofs.Steps

/-
The tokens of a source text stand one after the other and cover it.

Each step of the scanner brings tokens from the place where it starts to the place where it ends, and nesting them keeps
their order. Only the backslash at the end of a template literal that breaks off there is in no token.
-/
set_option autoImplicit false

namespace JsxEdit

/-- The text between two positions. -/
def Text.slice (text : String) (start stop : Nat) : String := .ofList ((text.toList.drop start).take (stop - start))

theorem Text.slice_append (text : String) {a b c : Nat} (hab : a ≤ b) (hbc : b ≤ c) :
    slice text a b ++ slice text b c = slice text a c := by
  have hb : text.toList.drop b = (text.toList.drop a).drop (b - a) := by
    rw [List.drop_drop, Nat.add_sub_cancel' hab]
  rw [slice, slice, slice, ← String.ofList_append, hb, ← List.take_add]
  congr 3
  omega

theorem Text.slice_self (text : String) (a : Nat) : slice text a a = "" := by
  rw [slice, Nat.sub_self, List.take_zero]

theorem Text.slice_whole (text : String) : slice text 0 text.length = text := by
  rw [slice, List.drop_zero, Nat.sub_zero, ← String.length_toList, List.take_length, String.ofList_toList]

/-- A part of a part of the text. -/
theorem Text.slice_slice (text : String) {a b c d : Nat} (h : a + d ≤ b) :
    slice (slice text a b) c d = slice text (a + c) (a + d) := by
  rw [slice, slice, slice, String.toList_ofList, List.drop_take, List.take_take, List.drop_drop]
  congr 2
  omega

/-! ## Tokens in their places -/

namespace Token

/-- The tokens stand one after the other from one position to another, each with the text at its place. -/
def Tiles (text : String) : Nat → List Token → Nat → Prop
  | a, [], b => a = b
  | a, t :: ts, b => t.pos = a ∧ t.pos < t.stop ∧ t.text = Text.slice text t.pos t.stop ∧ Tiles text t.stop ts b

namespace Tiles

variable {text : String} {a b c : Nat} {ts us : List Token}

theorem le (h : Tiles text a ts b) : a ≤ b := by
  induction ts generalizing a with
  | nil => exact Nat.le_of_eq h
  | cons t ts ih =>
    obtain ⟨rfl, hlt, -, hrest⟩ := h
    exact Nat.le_trans (Nat.le_of_lt hlt) (ih hrest)

theorem lt (h : Tiles text a ts b) (hne : ts ≠ []) : a < b := by
  cases ts with
  | nil => exact absurd rfl hne
  | cons t ts =>
    obtain ⟨rfl, hlt, -, hrest⟩ := h
    exact Nat.lt_of_lt_of_le hlt hrest.le

theorem append_iff : Tiles text a (ts ++ us) c ↔ ∃ b, Tiles text a ts b ∧ Tiles text b us c := by
  induction ts generalizing a with
  | nil =>
    constructor
    · exact fun h => ⟨a, rfl, h⟩
    · rintro ⟨b, rfl, h⟩
      exact h
  | cons t ts ih =>
    rw [List.cons_append, Tiles, ih]
    constructor
    · rintro ⟨hpos, hlt, htext, b, h, h'⟩
      exact ⟨b, ⟨hpos, hlt, htext, h⟩, h'⟩
    · rintro ⟨b, ⟨hpos, hlt, htext, h⟩, h'⟩
      exact ⟨hpos, hlt, htext, b, h, h'⟩

theorem append (h : Tiles text a ts b) (h' : Tiles text b us c) : Tiles text a (ts ++ us) c :=
  append_iff.mpr ⟨b, h, h'⟩

theorem singleton {t : Token} : Tiles text a [t] b ↔
    t.pos = a ∧ t.stop = b ∧ t.pos < t.stop ∧ t.text = Text.slice text t.pos t.stop := by
  constructor
  · rintro ⟨hpos, hlt, htext, hstop⟩
    exact ⟨hpos, hstop, hlt, htext⟩
  · rintro ⟨hpos, hstop, hlt, htext⟩
    exact ⟨hpos, hlt, htext, hstop⟩

theorem cons_split {t : Token} (h : Tiles text a (t :: ts) c) : ∃ b, Tiles text a [t] b ∧ Tiles text b ts c := by
  rw [← List.singleton_append] at h
  exact append_iff.mp h

/-- Together the tokens have the text between the positions. -/
theorem join (h : Tiles text a ts b) : Text.join "" (ts.map (·.text)) = Text.slice text a b := by
  induction ts generalizing a with
  | nil =>
    obtain rfl : a = b := h
    rw [Text.slice_self]
    rfl
  | cons t ts ih =>
    obtain ⟨rfl, hlt, htext, hrest⟩ := h
    have hcons : Text.join "" ((t :: ts).map (·.text)) = t.text ++ Text.join "" (ts.map (·.text)) := by
      cases ts with
      | nil => exact String.append_empty.symm
      | cons u us => rw [List.map_cons, List.map_cons, Text.join, Text.join, String.intercalate_cons_cons,
          String.append_empty]
    rw [hcons, ih hrest, htext, Text.slice_append text (Nat.le_of_lt hlt) hrest.le]

end Tiles

/-- The token of characters that stand in the text. -/
theorem tiles_of_drop {text : String} {a : Nat} {w r : List Char} (kind : TokenKind)
    (h : text.toList.drop a = w ++ r) (hne : w ≠ []) : Tiles text a [⟨kind, a, .ofList w⟩] (a + w.length) := by
  have hstop : (Token.mk kind a (.ofList w)).stop = a + w.length := by
    rw [stop, String.length_ofList]
  refine Tiles.singleton.mpr ⟨rfl, hstop, ?_, ?_⟩
  · rw [hstop]
    exact Nat.lt_add_of_pos_right (List.length_pos_iff.mpr hne)
  · rw [hstop, Text.slice, h, Nat.add_sub_cancel_left, List.take_left' rfl]

end Token

/-! ## Tokens of events -/

/-- The token of an event. -/
def Event.token? : Event → Option Token
  | .token t => some t
  | .enter _ | .leave => none

/-- The tokens of events. -/
def Event.tokens (es : List Event) : List Token := es.filterMap Event.token?

theorem Event.tokens_append (es fs : List Event) : tokens (es ++ fs) = tokens es ++ tokens fs := List.filterMap_append

namespace Scan

open Token (Tiles tiles_of_drop)

variable {text : String}

theorem tokens_leaves (count : Nat) : Event.tokens (List.replicate count .leave) = [] := by
  rw [Event.tokens, List.filterMap_replicate_of_none rfl]

/-- Entering and leaving modes brings no tokens. -/
theorem tokens_events (m : Match) (pos : Nat) (cs : List Char) :
    Event.tokens (m.events pos cs) = Event.tokens (tokens pos cs m.parts) := by
  unfold Match.events
  dsimp only
  split
  · rfl
  · rfl
  · rw [Event.tokens_append]
    exact List.append_nil _
  · rfl
  · rw [Event.tokens_append, tokens_leaves, List.append_nil]

theorem tiles_tokens {a : Nat} {cs : List Char} {parts : List (TokenKind × Nat)} (hcs : text.toList.drop a = cs)
    (hpos : ∀ part ∈ parts, 0 < part.2) (hle : parts.foldr (fun part n => part.2 + n) 0 ≤ cs.length) :
    Tiles text a (Event.tokens (tokens a cs parts)) (a + parts.foldr (fun part n => part.2 + n) 0) := by
  induction parts generalizing a cs with
  | nil => rfl
  | cons part parts ih =>
    obtain ⟨kind, n⟩ := part
    rw [List.foldr_cons] at hle
    rw [List.forall_mem_cons] at hpos
    have hlength : (cs.take n).length = n := List.length_take_of_le (Nat.le_trans (Nat.le_add_right _ _) hle)
    have hne : cs.take n ≠ [] := List.length_pos_iff.mp (hlength.symm ▸ hpos.1)
    have hfirst := tiles_of_drop kind (hcs.trans (List.take_append_drop n cs).symm) hne
    have hdrop : text.toList.drop (a + n) = cs.drop n := by rw [← hcs, List.drop_drop]
    have hle' : parts.foldr (fun part n => part.2 + n) 0 ≤ (cs.drop n).length := by
      rw [List.length_drop]
      exact Nat.le_sub_of_add_le' hle
    have hrest := ih hdrop hpos.2 hle'
    rw [hlength] at hfirst
    rw [List.foldr_cons, ← Nat.add_assoc]
    exact hfirst.append hrest

/-- The tokens of a match stand in the text it takes. -/
theorem tiles_match {mode : Mode} {atStart : Bool} {before : Option Char} {a : Nat} {cs : List Char} {m : Match}
    (hcs : text.toList.drop a = cs) (hm : match? mode atStart before cs = some m) :
    Tiles text a (Event.tokens (m.events a cs)) (a + m.length) := by
  rw [tokens_events]
  exact tiles_tokens hcs (rule_of_match hm).parts_pos (match?_le hm)

/-- The token of unmatched text stands in its place. -/
theorem tiles_pending {mode : Mode} {a : Nat} {w r : List Char} (hcs : text.toList.drop a = w ++ r)
    (hgap : w = [] ∨ (rest? mode).isSome = true) :
    Tiles text a (Event.tokens (pendingToken mode (a + w.length) w.reverse)) (a + w.length) := by
  cases w with
  | nil =>
    rw [List.reverse_nil, pendingToken_nil]
    rfl
  | cons c w =>
    obtain ⟨kind, hkind⟩ := Option.isSome_iff_exists.mp (hgap.resolve_left (List.cons_ne_nil c w))
    have htoken : pendingToken mode (a + (c :: w).length) (c :: w).reverse = [.token ⟨kind, a, .ofList (c :: w)⟩] := by
      unfold pendingToken
      rw [hkind]
      simp
    rw [htoken]
    exact tiles_of_drop kind hcs (List.cons_ne_nil c w)

/-! ## Steps and runs -/

/-- The scanner is at its place in the text. -/
def State.In (text : String) (s : State) : Prop := ∃ w, text.toList = w ++ s.rest ∧ s.pos = w.length

theorem State.In.drop {s : State} (h : s.In text) : text.toList.drop s.pos = s.rest := by
  obtain ⟨w, htext, hpos⟩ := h
  rw [htext, hpos, List.drop_left' rfl]

/-- Going on by some characters. -/
theorem State.In.advance {s s' : State} {w : List Char} (h : s.In text) (hrest : s.rest = w ++ s'.rest)
    (hpos : s'.pos = s.pos + w.length) : s'.In text := by
  obtain ⟨v, htext, hv⟩ := h
  refine ⟨v ++ w, ?_, ?_⟩
  · rw [htext, hrest, List.append_assoc]
  · rw [hpos, hv, List.length_append]

/-- The scanner is before the last character, a backslash in a template literal. -/
def State.BreaksOff (s : State) : Prop := current s.stack = .template ∧ s.rest = ['\\']

/-- A step goes on in the text. Its tokens stand there, or it loses the last backslash of a template literal. -/
theorem Step.tiles {s s' : State} {es : List Event} (h : Step s es s') (hin : s.In text) :
    s'.In text ∧ (Tiles text s.pos (Event.tokens es) s'.pos ∨ (s.BreaksOff ∧ es = [] ∧ s'.rest = [])) := by
  cases h with
  | leave mode more => exact ⟨hin, .inl rfl⟩
  | @take w r m before before' split found gap =>
    have hr : text.toList.drop (s.pos + w.length) = r := by
      rw [← List.drop_drop, hin.drop, split, List.drop_left' rfl]
    refine ⟨?_, .inl ?_⟩
    · refine hin.advance (w := w ++ r.take m.length) ?_ ?_
      · rw [split, List.append_assoc, List.take_append_drop]
      · rw [List.length_append, List.length_take_of_le (match?_le found), Nat.add_assoc]
    · rw [Event.tokens_append]
      exact (tiles_pending (hin.drop.trans split) gap).append (tiles_match hr found)
  | finish more gap =>
    refine ⟨hin.advance (List.append_nil _).symm rfl, .inl ?_⟩
    exact tiles_pending (hin.drop.trans (List.append_nil _).symm) (.inr gap)
  | lose mode last => exact ⟨hin.advance (w := ['\\']) last rfl, .inr ⟨⟨mode, last⟩, rfl, rfl⟩⟩

/-- The scanner brings nothing more where a template literal breaks off. -/
theorem State.BreaksOff.events {s : State} (h : s.BreaksOff) : s.events = [] := by
  obtain ⟨stack, before, pos, rest⟩ := s
  obtain ⟨hmode, hrest⟩ := h
  dsimp only at hmode hrest
  subst hrest
  have hsettle : settle ['\\'] stack = stack := Piece.Opened.settle_eq _ (by rw [hmode]; decide)
  have hnone : match? .template (pos == 0) before ['\\'] = none := rfl
  rw [State.events, eventsFrom, hsettle, hmode, hnone]
  dsimp only
  rw [eventsFrom, hmode]
  rfl

theorem run_of_rest {s : State} (h : s.rest = []) (n : Nat) : s.run n = ([], s) := by
  cases n with
  | zero => rfl
  | succ n => rw [State.run, step?_eq_none.mpr h]

/-- The tokens of a run stand in the text that it goes over, up to where a template literal breaks off. -/
theorem run_tiles {s : State} (hin : s.In text) (n : Nat) :
    (s.run n).2.In text ∧ (Tiles text s.pos (Event.tokens (s.run n).1) (s.run n).2.pos ∨
      ∃ k, (s.run k).2.BreaksOff ∧ (s.run k).2.In text ∧
        Tiles text s.pos (Event.tokens (s.run n).1) (s.run k).2.pos) := by
  induction n generalizing s with
  | zero => exact ⟨hin, .inl rfl⟩
  | succ n ih =>
    rw [State.run]
    cases hstep : s.step? with
    | none => exact ⟨hin, .inl rfl⟩
    | some next =>
      obtain ⟨es, s'⟩ := next
      obtain ⟨hin', htiles⟩ := (step_of_step? hstep).tiles hin
      obtain ⟨hlast, hrun⟩ := ih hin'
      dsimp only
      refine ⟨hlast, ?_⟩
      rcases htiles with htiles | ⟨hbreaks, rfl, hend⟩
      · rw [Event.tokens_append]
        refine hrun.imp htiles.append ?_
        rintro ⟨k, hbreaks, hk, hrest⟩
        have hnext : (s.run (k + 1)).2 = (s'.run k).2 := by rw [State.run, hstep]
        exact ⟨k + 1, hnext ▸ hbreaks, hnext ▸ hk, hnext ▸ htiles.append hrest⟩
      · rw [run_of_rest hend]
        exact .inr ⟨0, hbreaks, hin, rfl⟩

theorem in_start (text : String) : (State.start text).In text := ⟨[], rfl, rfl⟩

/-- The text ends in a template literal that breaks off after a backslash. -/
def EndsInBackslash (text : String) : Prop := ∃ n, ((State.start text).run n).2.BreaksOff

theorem EndsInBackslash.getLast? (h : EndsInBackslash text) : text.toList.getLast? = some '\\' := by
  obtain ⟨n, -, hrest⟩ := h
  obtain ⟨w, htext, -⟩ := (run_tiles (in_start text) n).1
  rw [htext, hrest, List.getLast?_append]
  rfl

/-- The tokens of a text cover it. -/
theorem tiles_events (h : ¬ EndsInBackslash text) : Tiles text 0 (Event.tokens (events text)) text.length := by
  obtain ⟨hrest, hevents⟩ := run_start text
  obtain ⟨⟨w, htext, hpos⟩, hrun⟩ := run_tiles (in_start text) (2 * text.length)
  rw [hevents] at hrun
  rcases hrun with hrun | ⟨k, hbreaks, -⟩
  · rw [hrest, List.append_nil] at htext
    rw [hpos, ← htext, String.length_toList] at hrun
    exact hrun
  · exact absurd ⟨k, hbreaks⟩ h

/-- Where a template literal breaks off after a backslash, the tokens cover the text before it. -/
theorem tiles_events_backslash (h : EndsInBackslash text) :
    ∃ front, text = front ++ "\\" ∧ Tiles text 0 (Event.tokens (events text)) front.length := by
  obtain ⟨n, hbreaks⟩ := h
  have hat : ∀ {s : State}, s.BreaksOff → s.In text → Tiles text 0 (Event.tokens (events text)) s.pos →
      ∃ front, text = front ++ "\\" ∧ Tiles text 0 (Event.tokens (events text)) front.length := by
    rintro s ⟨-, hrest⟩ ⟨w, htext, hpos⟩ htiles
    refine ⟨.ofList w, ?_, ?_⟩
    · rw [← String.ofList_toList (s := text), htext, hrest, String.ofList_append]
    · rw [String.length_ofList, ← hpos]
      exact htiles
  have hevents : events text = ((State.start text).run n).1 := by
    have hrun : events text = _ := events_run (State.start text) n
    rwa [hbreaks.events, List.append_nil] at hrun
  obtain ⟨hin, hrun⟩ := run_tiles (in_start text) n
  rw [← hevents] at hrun
  rcases hrun with hrun | ⟨k, hk, hink, hrun⟩
  · exact hat hbreaks hin hrun
  · exact hat hk hink hrun

end Scan

/-! ## Tokens of pieces -/

namespace Piece

mutual

/-- The tokens of a piece, in order. -/
def tokens : Piece → List Token
  | .token t => [t]
  | .stretch _ items => allTokens items

/-- The tokens of pieces, in order. -/
def allTokens : List Piece → List Token
  | [] => []
  | p :: ps => p.tokens ++ allTokens ps

end

@[simp] theorem allTokens_append (ps qs : List Piece) : allTokens (ps ++ qs) = allTokens ps ++ allTokens qs := by
  induction ps with
  | nil => rfl
  | cons p ps ih => rw [List.cons_append, allTokens, allTokens, ih, List.append_assoc]

theorem allTokens_singleton (p : Piece) : allTokens [p] = p.tokens := List.append_nil _

/-- The tokens before the innermost open stretch. -/
def framesTokens : List (Mode × List Piece) → List Token
  | [] => []
  | (_, outer) :: frames => framesTokens frames ++ allTokens outer.reverse

theorem allTokens_close (mode : Mode) (items outer : List Piece) :
    allTokens (close mode items outer).reverse = allTokens outer.reverse ++ allTokens items.reverse := by
  unfold close
  cases items with
  | nil => exact (List.append_nil _).symm
  | cons p ps =>
    rw [List.isEmpty_cons, if_neg (by decide), List.reverse_cons, allTokens_append, allTokens_singleton, tokens]

theorem allTokens_closeAll (items : List Piece) (frames : List (Mode × List Piece)) :
    allTokens (closeAll items frames) = framesTokens frames ++ allTokens items.reverse := by
  induction frames generalizing items with
  | nil => rfl
  | cons frame frames ih =>
    obtain ⟨mode, outer⟩ := frame
    rw [closeAll, ih, allTokens_close, framesTokens, List.append_assoc]

/-- Nesting keeps the tokens and their order. -/
theorem allTokens_nest (items : List Piece) (frames : List (Mode × List Piece)) (es : List Event) :
    allTokens (nest items frames es) = framesTokens frames ++ allTokens items.reverse ++ Event.tokens es := by
  induction es generalizing items frames with
  | nil => rw [nest, allTokens_closeAll]; exact (List.append_nil _).symm
  | cons e es ih =>
    cases e with
    | token t =>
      rw [nest, ih, List.reverse_cons, allTokens_append, allTokens_singleton, ← List.append_assoc, List.append_assoc]
      rfl
    | enter mode =>
      rw [nest, ih, framesTokens, List.reverse_nil, allTokens, List.append_nil]
      rfl
    | leave =>
      cases frames with
      | nil => exact ih items []
      | cons frame frames =>
        obtain ⟨mode, outer⟩ := frame
        rw [nest, ih, allTokens_close, framesTokens, ← List.append_assoc]
        rfl

theorem allTokens_ofText (text : String) : allTokens (ofText text) = Event.tokens (Scan.events text) :=
  allTokens_nest [] [] (Scan.events text)

end Piece

/-- The scanner stops after at most twice as many steps as the text has characters, and then it has brought the events of
the text. The tokens stand one after the other from the start of the text to its end, and together they are the text;
where a template literal breaks off after a backslash, they are the text without it. -/
theorem scan_covers (text : String) :
    (∃ n ≤ 2 * text.length, ((Scan.State.start text).run n).2.step? = none ∧
      ((Scan.State.start text).run n).1 = Scan.events text) ∧
    (¬ Scan.EndsInBackslash text → Token.Tiles text 0 (Piece.allTokens (Piece.ofText text)) text.length ∧
      Text.join "" ((Piece.allTokens (Piece.ofText text)).map (·.text)) = text) ∧
    (Scan.EndsInBackslash text → ∃ front, text = front ++ "\\" ∧
      Token.Tiles text 0 (Piece.allTokens (Piece.ofText text)) front.length ∧
      Text.join "" ((Piece.allTokens (Piece.ofText text)).map (·.text)) = front) := by
  rw [Piece.allTokens_ofText]
  refine ⟨⟨2 * text.length, Nat.le_refl _, ?_, (Scan.run_start text).2⟩, ?_, ?_⟩
  · exact Scan.step?_eq_none.mpr (Scan.run_start text).1
  · intro h
    have htiles := Scan.tiles_events h
    exact ⟨htiles, by rw [htiles.join, Text.slice_whole]⟩
  · intro h
    obtain ⟨front, htext, htiles⟩ := Scan.tiles_events_backslash h
    refine ⟨front, htext, htiles, ?_⟩
    rw [htiles.join, htext, Text.slice, List.drop_zero, Nat.sub_zero, String.toList_append, ← String.length_toList,
      List.take_left' rfl, String.ofList_toList]

end JsxEdit
