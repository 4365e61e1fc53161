import JsxEdit.Proofs.Closing
import JsxEdit.Proofs.Shift

/-
Markup that is not closed is invalid.

While a stretch of markup is open, it has nothing that could end it: no closing tag, and in an opening tag no angle but the
one that opened the content. If the text breaks off there, what is made of the stretch is a mark of invalid markup, and the
stretches around it do not end either.
-/
set_option autoImplicit false

namespace JsxEdit

/-! ## Parts that end markup -/

namespace Markup

/-- The part can end a stretch of the mode: an opening tag, what is between the tags, or a fragment. -/
def EndsIn : Mode → Part → Prop
  | .tag, .leaf (.token t) => t.kind = .delimiter ∧ t.text = "/>"
  | .tag, .content _ close => close.isSome = true
  | .content, p | .fragment, p => ∃ t, p.token? = some t ∧ t.kind = .delimiter
  | _, _ => False

theorem isInvalid_of_readToken {o : Opening} {t : Token} {n : Node} (h : readToken o t = .error n) :
    n.kind.isInvalid = true := by
  unfold readToken at h
  repeat' split at h
  all_goals first
    | (cases h; rfl)
    | cases h

theorem isInvalid_of_spread {space : String} {g : Group} {n : Node} (h : spread space g = .error n) :
    n.kind.isInvalid = true := by
  unfold spread at h
  split at h
  · cases h
    rfl
  · dsimp only at h
    split at h
    · cases h
    · cases h
      rfl

/-- An opening tag without an end is invalid. -/
theorem elementFrom_unended {angle name : Token} {o : Opening} {parts : List Part} (h : ∀ p ∈ parts, ¬ EndsIn .tag p) :
    (elementFrom angle name o parts).kind.isInvalid = true := by
  induction parts generalizing o with
  | nil => rfl
  | cons p parts ih =>
    rw [List.forall_mem_cons] at h
    rcases p with (t | n) | g | ⟨nodes, close⟩
    · rw [elementFrom]
      split
      · next hread => exact isInvalid_of_readToken hread
      · split
        · next hend =>
          rw [Bool.and_eq_true, beq_iff_eq, beq_iff_eq] at hend
          exact absurd hend h.1
        · exact ih h.2
    · exact ih h.2
    · rw [elementFrom]
      split
      · exact ih h.2
      · split
        · next hspread => exact isInvalid_of_spread hspread
        · exact ih h.2
    · cases close with
      | none => rfl
      | some close => exact absurd rfl h.1

theorem element_unended {parts : List Part} (h : ∀ p ∈ parts, ¬ EndsIn .tag p) :
    (element parts).kind.isInvalid = true := by
  unfold element
  split
  · exact elementFrom_unended fun p hp => h p (List.mem_cons_of_mem _ (List.mem_cons_of_mem _ hp))
  · rfl

theorem fragment_unended {head : Token} {parts : List Part} (h : closeTag? parts = none) :
    (fragment (.leaf (.token head) :: parts)).kind.isInvalid = true := by
  rw [fragment, content, h]
  rfl

/-- The last part is the closing tag, if there is one. -/
theorem closeTag?_eq_none {ps : List Piece} {p : Piece} (h : ¬ EndsIn .fragment (part p)) :
    closeTag? (allParts (ps ++ [p])) = none := by
  rw [closeTag?, allParts_eq_map, List.map_append, List.map_singleton, List.getLast?_concat, Option.bind_some,
    Option.filter_eq_none_iff]
  intro t ht hkind
  exact h ⟨t, ht, eq_of_beq hkind⟩

/-- A stretch that was left ends none of those around it. What is between the tags is left together with its element. -/
theorem not_endsIn_stretch {mode inner : Mode} {items : List Piece} (h : inner ≠ .content) :
    ¬ EndsIn mode (part (.stretch inner items)) := by
  have hnode : ∀ n, ¬ EndsIn mode (.leaf (.node n)) := by
    intro n
    cases mode <;> simp [EndsIn, Part.token?, Leaf.token?]
  have hgroup : ∀ g, ¬ EndsIn mode (.group g) := by
    intro g
    cases mode <;> simp [EndsIn, Part.token?]
  have hnothing : ¬ EndsIn mode (.content [] none) := by
    cases mode <;> simp [EndsIn, Part.token?]
  cases inner with
  | content => exact absurd rfl h
  | tag => exact hnode _
  | fragment => exact hnode _
  | braces => exact hgroup _
  | group => exact hgroup _
  | template => exact hgroup _
  | script => exact hnothing
  | markup => exact hnothing

theorem not_endsIn_token {mode : Mode} {t : Token} (h : t.kind ≠ .delimiter) : ¬ EndsIn mode (part (.token t)) := by
  cases mode <;> simp [EndsIn, part, Part.token?, Leaf.token?, h]

/-- Script text and expressions are ended by no part of theirs that matters here. -/
theorem not_endsIn_script {mode : Mode} (h : Scan.isScript mode = true) (p : Part) : ¬ EndsIn mode p := by
  cases mode <;> first | exact fun hp => hp | cases h

end Markup

/-! ## Open stretches -/

namespace Piece

open Markup (EndsIn part allParts closeTag?)
open Scan (Rule isScript current settle match? closesAfter? eventsFrom pendingToken Nested)

/-- A stretch of the mode has nothing that ends it; its items are given last one first. -/
def Unended (mode : Mode) (items : List Piece) : Prop :=
  match mode with
  | .tag => ∀ p ∈ items, ¬ EndsIn .tag (part p)
  | .content => closeTag? (allParts items.reverse) = none
  | .fragment => ∃ head rest, items = rest ++ [.token head] ∧ closeTag? (allParts rest.reverse) = none
  | _ => True

theorem Unended.add {mode : Mode} {items : List Piece} {p : Piece} (h : Unended mode items)
    (hp : ¬ EndsIn mode (part p)) : Unended mode (p :: items) := by
  cases mode with
  | tag => exact List.forall_mem_cons.mpr ⟨hp, h⟩
  | content =>
    show closeTag? (allParts (p :: items).reverse) = none
    rw [List.reverse_cons]
    exact Markup.closeTag?_eq_none hp
  | fragment =>
    obtain ⟨head, rest, rfl, -⟩ := h
    refine ⟨head, p :: rest, rfl, ?_⟩
    rw [List.reverse_cons]
    exact Markup.closeTag?_eq_none hp
  | _ => trivial

/-- Everything from a piece of markup on is open, and none of it is ended. `outer` and `around` are what there was before
it; the markup is the outermost of the open modes. -/
inductive Unfinished (outer : List Piece) (around : List (Mode × List Piece)) :
    List Mode → List Piece → List (Mode × List Piece) → Prop where
  | root {mode : Mode} {items : List Piece} (place : mode = .tag ∨ mode = .fragment) (here : Unended mode items)
      (started : items ≠ []) : Unfinished outer around [mode] items ((mode, outer) :: around)
  | markup {stack : List Mode} {items : List Piece} {frames : List (Mode × List Piece)}
      (script : isScript (current stack) = true) (below : Unfinished outer around stack items frames) :
      Unfinished outer around (.markup :: stack) items frames
  | content {stack : List Mode} {items tag : List Piece} {frames : List (Mode × List Piece)}
      (here : Unended .content items) (below : Unfinished outer around (.tag :: stack) tag frames) :
      Unfinished outer around (.content :: .tag :: stack) items ((.content, tag) :: frames)
  | inside {mode : Mode} {stack : List Mode} {items before : List Piece} {frames : List (Mode × List Piece)}
      (place : mode ≠ .content ∧ mode ≠ .markup ∧ mode ≠ .script) (here : Unended mode items)
      (below : Unfinished outer around stack before frames) :
      Unfinished outer around (mode :: stack) items ((mode, before) :: frames)

namespace Unfinished

variable {outer : List Piece} {around : List (Mode × List Piece)} {stack : List Mode} {items : List Piece}
  {frames : List (Mode × List Piece)}

theorem nested (h : Unfinished outer around stack items frames) : Nested stack := by
  induction h with
  | root place => rcases place with rfl | rfl <;> constructor
  | markup _ _ ih => exact .inside (by decide) ih
  | content _ _ ih => exact .content ih
  | inside place _ _ ih => exact .inside ⟨place.1, place.2.2⟩ ih

theorem add {p : Piece} (h : Unfinished outer around stack items frames) (hp : ¬ EndsIn (current stack) (part p)) :
    Unfinished outer around stack (p :: items) frames := by
  induction h with
  | root place here => exact .root place (here.add hp) (List.cons_ne_nil _ _)
  | markup script _ ih => exact .markup script (ih (Markup.not_endsIn_script script _))
  | content here below => exact .content (here.add hp) below
  | inside place here below => exact .inside place (here.add hp) below

theorem settled (cs : List Char) (h : Unfinished outer around stack items frames) :
    Unfinished outer around (settle cs stack) items frames := by
  induction h with
  | root place here started =>
    rcases place with rfl | rfl
    · exact .root (.inl rfl) here started
    · exact .root (.inr rfl) here started
  | markup script below ih =>
    rw [settle]
    split
    · exact .markup script below
    · exact ih
  | content here below => exact .content here below
  | @inside mode stack items before frames place here below =>
    have hcurrent : current (mode :: stack) ≠ .markup := place.2.1
    rw [Opened.settle_eq cs hcurrent]
    exact .inside place here below

/-- A stretch that is left, or ends with the text, stands in the one around it. -/
theorem close_inside {mode : Mode} {before : List Piece} (place : mode ≠ .content) (items : List Piece)
    (below : Unfinished outer around stack before frames) :
    Unfinished outer around stack (close mode items before) frames := by
  unfold close
  split
  · exact below
  · exact below.add (Markup.not_endsIn_stretch place)

/-- What is between the tags, if it ends with the text, has no closing tag. -/
theorem close_content {tag : List Piece} (here : Unended .content items)
    (below : Unfinished outer around (.tag :: stack) tag frames) :
    Unfinished outer around (.tag :: stack) (close .content items tag) frames := by
  unfold close
  split
  · exact below
  · refine below.add ?_
    have hcontent : part (.stretch .content items.reverse) =
        .content ((allParts items.reverse).flatMap Markup.contentNode) none := by
      rw [part, Markup.assemble, Markup.content, show closeTag? (allParts items.reverse) = none from here]
    rw [hcontent]
    intro hends
    cases hends

/-- If the text breaks off, all of the markup is one invalid node. -/
theorem closeAll_invalid {stack : List Mode} {items : List Piece} {frames : List (Mode × List Piece)}
    (h : Unfinished outer around stack items frames) :
    ∃ p n, part p = .leaf (.node n) ∧ n.kind.isInvalid = true ∧ closeAll items frames = closeAll (p :: outer) around := by
  cases h with
  | markup script below => exact below.closeAll_invalid
  | content here below => exact (close_content here below).closeAll_invalid
  | inside place here below => exact (close_inside place.1 items below).closeAll_invalid
  | @root mode items place here started =>
    refine ⟨.stretch mode items.reverse, ?_⟩
    have hclose : close mode items outer = .stretch mode items.reverse :: outer := by
      rw [close, if_neg (by simpa using started)]
    -- an opening tag without an angle at its end, or a fragment without its closing tag
    rcases place with rfl | rfl
    · refine ⟨_, rfl, Markup.element_unended ?_, by rw [closeAll, hclose]⟩
      intro p hp
      obtain ⟨q, hq, rfl⟩ := Markup.mem_allParts hp
      exact here q (List.mem_reverse.mp hq)
    · refine ⟨_, rfl, ?_, by rw [closeAll, hclose]⟩
      obtain ⟨head, rest, rfl, hrest⟩ := here
      rw [List.reverse_append]
      exact Markup.fragment_unended hrest
termination_by stack.length

/-! ## Matches -/

/-- The other angles in an opening tag do not end it. -/
theorem not_endsIn_angle {kind : TokenKind} {pos : Nat} {text : List Char} (h : text ≠ ['/', '>']) :
    ¬ EndsIn .tag (part (.token ⟨kind, pos, .ofList text⟩)) := by
  rintro ⟨-, htext⟩
  exact h (String.ofList_injective htext)

/-- A token that leaves the mode as it is ends no stretch. -/
theorem not_endsIn_match {mode : Mode} {before : Option Char} {cs : List Char} {kind : TokenKind} {n : Nat}
    (hm : match? mode false before cs = some ⟨[(kind, n)], .stay⟩) (fits : Scan.Fits mode kind (cs.take n)) (pos : Nat) :
    ¬ EndsIn mode (part (.token ⟨kind, pos, .ofList (cs.take n)⟩)) := by
  have hcontent : ∀ {count : Nat}, Scan.content? count cs = some ⟨[(kind, n)], .stay⟩ → kind ≠ .delimiter := by
    rintro count h rfl
    rcases Scan.content?_cases h with ⟨k, -, heq⟩ | hmarkup | ⟨rest, -, heq⟩ | heq | heq
    · cases heq
    · obtain ⟨rest, -, heq | ⟨k, heq⟩⟩ := Scan.markup?_cases hmarkup <;> cases heq
    · cases heq
    · cases heq
    · cases heq
  cases mode with
  | tag =>
    refine Markup.not_endsIn_token ?_
    rintro rfl
    exact fits
  | content => exact Markup.not_endsIn_token (hcontent hm)
  | fragment => exact Markup.not_endsIn_token (hcontent hm)
  | _ => exact id

/-- Leaving the innermost stretch leaves those around it unfinished. -/
theorem leave {mode : Mode} {before : List Piece} (place : mode ≠ .content ∧ mode ≠ .markup) (hstack : stack ≠ [])
    (h : Unfinished outer around (mode :: stack) items ((mode, before) :: frames)) (last : List Piece) :
    Unfinished outer around stack (close mode last before) frames := by
  cases h with
  | root => exact absurd rfl hstack
  | markup => exact absurd rfl place.2
  | content => exact absurd rfl place.1
  | inside _ _ below => exact below.close_inside place.1 last

/-- An open stretch is the innermost one in its mode. -/
theorem frames_eq {mode : Mode} (h : Unfinished outer around stack items frames) (place : mode ≠ .markup)
    (hmode : current stack = mode) : ∃ stack' before frames', stack = mode :: stack' ∧ frames = (mode, before) :: frames' := by
  cases h with
  | root =>
    obtain rfl := hmode
    exact ⟨_, _, _, rfl, rfl⟩
  | markup => exact absurd hmode.symm place
  | content =>
    obtain rfl := hmode
    exact ⟨_, _, _, rfl, rfl⟩
  | inside =>
    obtain rfl := hmode
    exact ⟨_, _, _, rfl, rfl⟩

/-- A match that does not leave the markup leaves it unfinished. -/
theorem step {before : Option Char} {cs : List Char} {m : Scan.Match} (pos : Nat)
    (h : Unfinished outer around stack items frames) (hm : match? (current stack) false before cs = some m)
    (hne : m.move.apply stack ≠ []) :
    ∃ items' frames', Unfinished outer around (m.move.apply stack) items' frames' ∧
      ∀ es, nest items frames (m.events pos cs ++ es) = nest items' frames' es := by
  have henter : ∀ {mode : Mode} {first : List Piece}, mode ≠ .content ∧ mode ≠ .markup ∧ mode ≠ .script →
      Unended mode first → Unfinished outer around (mode :: stack) first ((mode, items) :: frames) :=
    fun place here => .inside place here h
  cases Scan.rule_of_match hm with
  | token _ fits => exact ⟨_, _, h.add (not_endsIn_match hm fits pos), fun es => rfl⟩
  | announce _ script => exact ⟨_, _, .markup script (h.add (Markup.not_endsIn_script script _)), fun es => rfl⟩
  | fragment => exact ⟨_, _, henter (by decide) ⟨_, [], rfl, rfl⟩, fun es => rfl⟩
  | tag text =>
    refine ⟨_, _, henter (by decide) ?_, fun es => rfl⟩
    refine List.forall_mem_cons.mpr ⟨Markup.not_endsIn_token (by simp), List.forall_mem_singleton.mpr ?_⟩
    exact not_endsIn_angle (by rw [text]; decide)
  | content text place =>
    obtain ⟨stack, before, frames, rfl, rfl⟩ := h.frames_eq (by decide) place
    have hangle : ¬ EndsIn (current (.tag :: stack)) (part (.token ⟨.delimiter, pos, .ofList (cs.take 1)⟩)) :=
      not_endsIn_angle (by rw [text]; decide)
    have hempty : Unended .content [] := rfl
    exact ⟨_, _, .content hempty (h.add hangle), fun es => rfl⟩
  | braces => exact ⟨_, _, henter (by decide) trivial, fun es => rfl⟩
  | substitution => exact ⟨_, _, henter (by decide) trivial, fun es => rfl⟩
  | group => exact ⟨_, _, henter (by decide) trivial, fun es => rfl⟩
  | template => exact ⟨_, _, henter (by decide) trivial, fun es => rfl⟩
  | selfClose text place =>
    obtain ⟨stack, before, frames, rfl, rfl⟩ := h.frames_eq (by decide) place
    exact ⟨_, _, h.leave (by decide) hne _, fun es => rfl⟩
  | closeElement _ fits place =>
    -- the content with its closing tag goes into the tag, and the tag is left too
    cases h with
    | root hplace =>
      rcases hplace with rfl | rfl <;> cases place
    | markup => cases place
    | inside hplace => exact absurd place hplace.1
    | content here below =>
      obtain ⟨stack, before, frames, heq, rfl⟩ := below.frames_eq (by decide : Mode.tag ≠ .markup) rfl
      obtain rfl := (List.cons.inj heq).2
      exact ⟨_, _, below.leave (by decide) hne _, fun es => rfl⟩
  | closeFragment _ fits place =>
    obtain ⟨stack, before, frames, rfl, rfl⟩ := h.frames_eq (by decide) place
    exact ⟨_, _, h.leave (by decide) hne _, fun es => rfl⟩
  | closeExpression place =>
    rcases place with place | place | place
    all_goals
      obtain ⟨stack, before, frames, rfl, rfl⟩ := h.frames_eq (by decide) place
      exact ⟨_, _, h.leave (by decide) hne _, fun es => rfl⟩

/-- Unmatched characters end nothing. -/
theorem pend (pos : Nat) (pending : List Char) (h : Unfinished outer around stack items frames) :
    ∃ items', Unfinished outer around stack items' frames ∧
      ∀ es, nest items frames (pendingToken (current stack) pos pending ++ es) = nest items' frames es := by
  unfold Scan.pendingToken
  cases hrest : Scan.rest? (current stack) with
  | none => exact ⟨items, h, fun es => rfl⟩
  | some kind =>
    cases pending with
    | nil => exact ⟨items, h, fun es => rfl⟩
    | cons c cs =>
      have hkind : kind ≠ .delimiter := by
        rintro rfl
        cases hmode : current stack <;> rw [hmode] at hrest <;> cases hrest
      exact ⟨_, h.add (Markup.not_endsIn_token hkind), fun es => rfl⟩

/-! ## Runs -/

/-- Markup that is not closed up to the end of the text is one invalid node. -/
theorem nest_invalid (before : Option Char) (pos skip : Nat) (pending cs : List Char) (below : List Mode)
    (h : Unfinished outer around stack items frames) (hopen : closesAfter? stack before skip cs = none) :
    ∃ p n, part p = .leaf (.node n) ∧ n.kind.isInvalid = true ∧
      nest items frames (eventsFrom (stack ++ below) before pos skip pending cs) = closeAll (p :: outer) around := by
  induction cs generalizing stack items frames before pos skip pending with
  | nil =>
    obtain ⟨items', hitems, heq⟩ := h.pend pos pending
    obtain ⟨p, n, hpart, hinvalid, hclose⟩ := hitems.closeAll_invalid
    refine ⟨p, n, hpart, hinvalid, ?_⟩
    rw [eventsFrom, h.nested.current_append, ← List.append_nil (pendingToken _ _ _), heq, nest, hclose]
  | cons c cs ih =>
    cases skip with
    | succ skip =>
      rw [eventsFrom]
      exact ih (some c) (pos + 1) skip pending h (Option.map_eq_none_iff.mp hopen)
    | zero =>
      have hsettled := h.settled (c :: cs)
      rw [closesAfter?] at hopen
      rw [eventsFrom, h.nested.settle_append, hsettled.nested.current_append,
        Scan.match?_atStart hsettled.nested.current_ne_script]
      cases hm : match? (current (settle (c :: cs) stack)) false before (c :: cs) with
      | none =>
        rw [hm] at hopen
        exact ih (some c) (pos + 1) 0 (c :: pending) hsettled (Option.map_eq_none_iff.mp hopen)
      | some m =>
        rw [hm] at hopen
        dsimp only at hopen ⊢
        split at hopen
        · cases hopen
        · next hne =>
          -- what was put off, then the match, and the run from there on by induction
          obtain ⟨items', hitems, hpend⟩ := hsettled.pend pos pending
          obtain ⟨items'', frames'', hstep, hevents⟩ := hitems.step pos hm hne
          rw [List.append_assoc, hpend, hevents, (hsettled.nested.step (Scan.rule_of_match hm)).2]
          exact ih (some c) (pos + 1) (m.length - 1) [] hstep (Option.map_eq_none_iff.mp hopen)

end Unfinished
end Piece
end JsxEdit
