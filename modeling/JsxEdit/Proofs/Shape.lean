import JsxEdit.Proofs.Rule
import JsxEdit.Source.Piece

/-
How the pieces of a source text are made up.

A stretch starts with the tokens that opened it, goes on with what its mode lets in, and an opening tag ends with its
last angle and what is between the tags. The rules tell what each match does to the open stretches, so every text is
nested this way, whatever it holds.
-/
set_option autoImplicit false

namespace JsxEdit.Piece

open Scan (Fits Rule isScript current settle match?)

/-! ## Well-formed pieces -/

/-- The tokens that a stretch starts with. -/
inductive Opens : Mode → List Piece → Prop where
  | tag {angle name : Token} (text : angle.text = "<")
      (isName : Text.nameLength? .tag name.text.toList = some name.text.toList.length) :
      Opens .tag [.token angle, .token name]
  | content : Opens .content []
  | fragment {t : Token} (text : t.text = "<>") : Opens .fragment [.token t]
  | braces {t : Token} : Opens .braces [.token t]
  | group {t : Token} (text : t.text ≠ "\x7b") : Opens .group [.token t]
  | template {t : Token} (text : t.text ≠ "\x7b") : Opens .template [.token t]

/-- Whether the stretch starts with a brace, as all do that are no substitutions. -/
def StartsWithBrace (items : List Piece) : Prop := ∃ t rest, items = .token t :: rest ∧ t.text = "\x7b"

/-- What may follow in a stretch of the mode. -/
def Accepts (mode : Mode) : Piece → Prop
  | .token t => Fits mode t.kind t.text.toList
  | .stretch inner items =>
    match mode with
    | .tag => inner = .braces ∧ StartsWithBrace items
    | .content | .fragment => inner = .tag ∨ inner = .fragment ∨ (inner = .braces ∧ StartsWithBrace items)
    | _ => inner ≠ .content ∧ inner ≠ .script ∧ inner ≠ .markup

/-- What an opening tag ends with. In a text that breaks off there may be nothing. -/
inductive Ends : Mode → List Piece → Prop where
  | none (mode : Mode) : Ends mode []
  | selfClosing {t : Token} (kind : t.kind = .delimiter) (text : t.text = "/>") : Ends .tag [.token t]
  | opened {t : Token} (kind : t.kind = .delimiter) (text : t.text = ">") : Ends .tag [.token t]
  | content {t : Token} {items : List Piece} (kind : t.kind = .delimiter) (text : t.text = ">") :
      Ends .tag [.token t, .stretch .content items]

/-- Pieces whose stretches are made up of what their modes let in. -/
inductive Formed : Piece → Prop where
  | token (t : Token) : Formed (.token t)
  | stretch {mode : Mode} {first items last : List Piece} (opens : Opens mode first) (ends : Ends mode last)
      (accepted : ∀ x ∈ items, Accepts mode x) (inner : ∀ x ∈ items, Formed x) (outer : ∀ x ∈ last, Formed x) :
      Formed (.stretch mode (first ++ items ++ last))

/-! ## Open stretches -/

/-- What is known of a stretch while it is open; its items are given last one first. -/
def Open (mode : Mode) (items : List Piece) : Prop :=
  ∃ first rest, items.reverse = first ++ rest ∧ Opens mode first ∧ ∀ x ∈ rest, Accepts mode x ∧ Formed x

theorem Open.add {mode : Mode} {items : List Piece} {x : Piece} (h : Open mode items) (accepted : Accepts mode x)
    (formed : Formed x) : Open mode (x :: items) := by
  obtain ⟨first, rest, hitems, hopens, hrest⟩ := h
  refine ⟨first, rest ++ [x], ?_, hopens, ?_⟩
  · rw [List.reverse_cons, hitems, List.append_assoc]
  · intro y hy
    rcases List.mem_append.mp hy with hy | hy
    · exact hrest y hy
    · rw [List.mem_singleton.mp hy]
      exact ⟨accepted, formed⟩

/-- An open stretch can be ended by what its mode allows at its end. -/
theorem Open.formed {mode : Mode} {items last : List Piece} (h : Open mode items) (ends : Ends mode last)
    (outer : ∀ x ∈ last, Formed x) : Formed (.stretch mode (items.reverse ++ last)) := by
  obtain ⟨first, rest, hitems, hopens, hrest⟩ := h
  rw [hitems]
  exact .stretch hopens ends (fun x hx => (hrest x hx).1) (fun x hx => (hrest x hx).2) outer

/-- The mode of the innermost open stretch. -/
def innermost (frames : List (Mode × List Piece)) : Mode := (frames.head?.map (·.1)).getD .script

/-- The open modes, the items of the innermost open stretch, and the open stretches around it belong together. Each
stretch that is open will be accepted by the one around it, however it goes on. -/
inductive Opened : List Mode → List Piece → List (Mode × List Piece) → Prop where
  | root {items : List Piece} (here : ∀ x ∈ items, Accepts .script x ∧ Formed x) : Opened [] items []
  | markup {stack : List Mode} {items : List Piece} {frames : List (Mode × List Piece)}
      (script : isScript (current stack) = true) (below : Opened stack items frames) :
      Opened (.markup :: stack) items frames
  | inside {mode : Mode} {stack : List Mode} {items outer : List Piece} {frames : List (Mode × List Piece)}
      (place : mode ≠ .content ∧ mode ≠ .markup) (here : Open mode items)
      (accepted : ∀ more, Accepts (innermost frames) (.stretch mode (items.reverse ++ more)))
      (below : Opened stack outer frames) : Opened (mode :: stack) items ((mode, outer) :: frames)
  | content {stack : List Mode} {items tag outer : List Piece} {frames : List (Mode × List Piece)} {t : Token}
      (here : Open .content items) (kind : t.kind = .delimiter) (text : t.text = ">")
      (below : Opened (.tag :: stack) tag ((.tag, outer) :: frames)) :
      Opened (.content :: .tag :: stack) items ((.content, .token t :: tag) :: (.tag, outer) :: frames)

namespace Opened

variable {stack : List Mode} {items : List Piece} {frames : List (Mode × List Piece)}

/-- Where markup was announced, the innermost stretch is one of script text. -/
theorem innermost_eq (h : Opened stack items frames) :
    innermost frames = current stack ∨ (current stack = .markup ∧ isScript (innermost frames) = true) := by
  induction h with
  | root => exact .inl rfl
  | @markup stack items frames script below ih =>
    refine .inr ⟨rfl, ?_⟩
    rcases ih with ih | ⟨ih, -⟩
    · rw [ih, script]
    · rw [ih] at script
      cases script
  | inside => exact .inl rfl
  | content => exact .inl rfl

theorem add {x : Piece} (h : Opened stack items frames) (accepted : Accepts (innermost frames) x) (formed : Formed x) :
    Opened stack (x :: items) frames := by
  induction h with
  | root here => exact .root (List.forall_mem_cons.mpr ⟨⟨accepted, formed⟩, here⟩)
  | markup script below ih => exact .markup script (ih accepted)
  | inside place here welcome below =>
    refine .inside place (here.add accepted formed) (fun more => ?_) below
    rw [List.reverse_cons, List.append_assoc]
    exact welcome ([x] ++ more)
  | content here kind text below => exact .content (here.add accepted formed) kind text below

theorem settled (cs : List Char) (h : Opened stack items frames) : Opened (settle cs stack) items frames := by
  induction h with
  | root here => exact .root here
  | markup script below ih =>
    unfold settle
    split
    · exact .markup script below
    · exact ih
  | @inside mode stack items outer frames place here accepted below =>
    have hsettle : settle cs (mode :: stack) = mode :: stack := by
      unfold settle
      split
      · next heq => exact absurd (List.cons.inj heq).1 place.2
      · rfl
    rw [hsettle]
    exact .inside place here accepted below
  | content here kind text below => exact .content here kind text below

/-- Ending a stretch adds it to the one around it. -/
theorem close_inside {mode : Mode} {outer last : List Piece} (place : mode ≠ .content ∧ mode ≠ .markup)
    (h : Opened (mode :: stack) items ((mode, outer) :: frames)) (ends : Ends mode last)
    (formed : ∀ x ∈ last, Formed x) : Opened stack (close mode (last.reverse ++ items) outer) frames := by
  cases h with
  | markup => exact absurd rfl place.2
  | content => exact absurd rfl place.1
  | inside _ here accepted below =>
    unfold close
    split
    · exact below
    · rw [List.reverse_append, List.reverse_reverse]
      exact below.add (accepted last) (here.formed ends formed)

/-- What is between the tags ends together with the element. -/
theorem close_content {tag outer : List Piece} {t : Token} (here : Open .content items) (kind : t.kind = .delimiter)
    (text : t.text = ">") (below : Opened (.tag :: stack) tag ((.tag, outer) :: frames)) :
    Opened stack (close .tag (close .content items (.token t :: tag)) outer) frames := by
  have hplace : Mode.tag ≠ .content ∧ Mode.tag ≠ .markup := by decide
  unfold close
  split
  · exact below.close_inside hplace (.opened kind text) fun x hx => by
      rw [List.mem_singleton.mp hx]
      exact .token t
  · have hcontent : Formed (.stretch .content items.reverse) := by
      have h := here.formed (.none _) fun _ hx => nomatch hx
      rwa [List.append_nil] at h
    exact below.close_inside hplace (.content kind text) fun x hx => by
      rcases List.mem_cons.mp hx with rfl | hx
      · exact .token t
      · rw [List.mem_singleton.mp hx]
        exact hcontent

/-- Ending everything that is open leaves well-formed pieces. -/
theorem closeAll_formed {stack : List Mode} {items : List Piece} {frames : List (Mode × List Piece)}
    (h : Opened stack items frames) : ∀ p ∈ closeAll items frames, Accepts .script p ∧ Formed p := by
  cases h with
  | root here => exact fun p hp => here p (List.mem_reverse.mp hp)
  | markup script below => exact below.closeAll_formed
  | inside place here accepted below =>
    have hclosed := (Opened.inside place here accepted below).close_inside place (.none _) fun _ hx => nomatch hx
    exact hclosed.closeAll_formed
  | content here kind text below => exact (close_content here kind text below).closeAll_formed
termination_by stack.length

/-! ## Matches -/

theorem accepts_of_script {mode inner : Mode} {its : List Piece} (script : isScript mode = true)
    (place : inner ≠ .content ∧ inner ≠ .script ∧ inner ≠ .markup) : Accepts mode (.stretch inner its) := by
  cases mode <;> first | exact place | cases script

/-- A stretch of an expression is accepted in an expression. -/
theorem accepts_stretch {inner : Mode} {its : List Piece} (h : Opened stack items frames)
    (script : isScript (current stack) = true) (place : inner ≠ .content ∧ inner ≠ .script ∧ inner ≠ .markup) :
    Accepts (innermost frames) (.stretch inner its) := by
  rcases h.innermost_eq with heq | ⟨-, hscript⟩
  · exact accepts_of_script (heq ▸ script) place
  · exact accepts_of_script hscript place

/-- A stretch of markup is accepted wherever it can start. -/
theorem accepts_markup {inner : Mode} {its : List Piece} (h : Opened stack items frames)
    (place : current stack ≠ .tag) (markup : inner = .tag ∨ inner = .fragment) :
    Accepts (innermost frames) (.stretch inner its) := by
  have hinner : inner ≠ .content ∧ inner ≠ .script ∧ inner ≠ .markup := by rcases markup with rfl | rfl <;> decide
  rcases h.innermost_eq with heq | ⟨-, hscript⟩
  · rw [heq]
    cases hmode : current stack with
    | tag => exact absurd hmode place
    | content => exact markup.imp_right .inl
    | fragment => exact markup.imp_right .inl
    | _ => exact hinner
  · exact accepts_of_script hscript hinner

/-- A stretch in braces is accepted everywhere. -/
theorem accepts_braces {t : Token} {rest : List Piece} (mode : Mode) (text : t.text = "\x7b") :
    Accepts mode (.stretch .braces (.token t :: rest)) := by
  have hbrace : StartsWithBrace (.token t :: rest) := ⟨t, rest, rfl, text⟩
  cases mode with
  | tag => exact ⟨rfl, hbrace⟩
  | content => exact .inr (.inr ⟨rfl, hbrace⟩)
  | fragment => exact .inr (.inr ⟨rfl, hbrace⟩)
  | _ => exact (by decide : Mode.braces ≠ .content ∧ Mode.braces ≠ .script ∧ Mode.braces ≠ .markup)

/-- A token that fits the current mode is accepted by the innermost stretch. -/
theorem accepts_token {t : Token} (h : Opened stack items frames) (fits : Fits (current stack) t.kind t.text.toList) :
    Accepts (innermost frames) (.token t) := by
  rcases h.innermost_eq with heq | ⟨-, hscript⟩
  · rw [heq]
    exact fits
  · exact Scan.fits_of_script hscript _ _

/-- The token of the first characters. -/
theorem text_eq {cs : List Char} {n : Nat} {text : List Char} (h : cs.take n = text) :
    String.ofList (cs.take n) = .ofList text := congrArg String.ofList h

theorem text_ne {cs : List Char} {n : Nat} {text : List Char} (h : cs.take n ≠ text) :
    String.ofList (cs.take n) ≠ .ofList text := fun he => h (String.ofList_injective he)

/-- A new stretch of one token. -/
theorem enter {mode : Mode} {t : Token} (h : Opened stack items frames) (place : mode ≠ .content ∧ mode ≠ .markup)
    (opens : Opens mode [.token t]) (accepted : ∀ more, Accepts (innermost frames) (.stretch mode (.token t :: more))) :
    Opened (mode :: stack) [.token t] ((mode, items) :: frames) :=
  .inside place ⟨[.token t], [], rfl, opens, fun _ hx => nomatch hx⟩ accepted h

/-- Ending a stretch by its last token. -/
theorem leave {mode : Mode} {outer : List Piece} {t : Token} (place : mode ≠ .content ∧ mode ≠ .markup)
    (h : Opened (mode :: stack) items ((mode, outer) :: frames)) (fits : Fits mode t.kind t.text.toList) :
    Opened stack (close mode (.token t :: items) outer) frames :=
  (h.add (show Accepts mode (.token t) from fits) (.token t)).close_inside place (.none mode) fun _ hx => nomatch hx

/-- A stretch that is open in its mode is the innermost one. -/
theorem frames_eq {mode : Mode} (h : Opened stack items frames) (place : mode ≠ .script ∧ mode ≠ .markup)
    (hmode : current stack = mode) : ∃ stack' outer frames', stack = mode :: stack' ∧ frames = (mode, outer) :: frames' := by
  cases h with
  | root => exact absurd hmode.symm place.1
  | markup => exact absurd hmode.symm place.2
  | inside =>
    obtain rfl := hmode
    exact ⟨_, _, _, rfl, rfl⟩
  | content =>
    obtain rfl := hmode
    exact ⟨_, _, _, rfl, rfl⟩

/-- A match keeps the open modes and the open stretches together. -/
theorem step {cs : List Char} {m : Scan.Match} (pos : Nat) (h : Opened stack items frames)
    (rule : Rule (current stack) cs m) :
    ∃ items' frames', Opened (m.move.apply stack) items' frames' ∧
      ∀ es, nest items frames (m.events pos cs ++ es) = nest items' frames' es := by
  cases rule with
  | token _ fits =>
    refine ⟨_, _, h.add (h.accepts_token ?_) (.token _), fun es => rfl⟩
    rw [String.toList_ofList]
    exact fits
  | announce _ script =>
    exact ⟨_, _, .markup script (h.add (h.accepts_token (Scan.fits_of_script script _ _)) (.token _)), fun es => rfl⟩
  | fragment text place =>
    exact ⟨_, _, h.enter (by decide) (.fragment (text_eq text)) fun more => h.accepts_markup place (.inr rfl),
      fun es => rfl⟩
  | tag text place name =>
    refine ⟨_, _, .inside (by decide) ?_ (fun more => h.accepts_markup place (.inl rfl)) h, fun es => rfl⟩
    exact ⟨_, [], rfl, .tag (text_eq text) (by rw [String.toList_ofList]; exact name), fun _ hx => nomatch hx⟩
  | content text place =>
    obtain ⟨stack, outer, frames, rfl, rfl⟩ := h.frames_eq (by decide) place
    refine ⟨_, _, .content ?_ rfl (text_eq text) h, fun es => rfl⟩
    exact ⟨[], [], rfl, .content, fun _ hx => nomatch hx⟩
  | braces text => exact ⟨_, _, h.enter (by decide) .braces fun more => accepts_braces _ (text_eq text), fun es => rfl⟩
  | substitution place =>
    obtain ⟨stack, outer, frames, rfl, rfl⟩ := h.frames_eq (by decide) place
    refine ⟨_, _, h.enter (by decide) .braces fun more => ?_, fun es => rfl⟩
    exact (by decide : Mode.braces ≠ .content ∧ Mode.braces ≠ .script ∧ Mode.braces ≠ .markup)
  | group text script =>
    exact ⟨_, _, h.enter (by decide) (.group (text_ne text)) fun more => h.accepts_stretch script (by decide),
      fun es => rfl⟩
  | template text script =>
    exact ⟨_, _, h.enter (by decide) (.template (text_ne text)) fun more => h.accepts_stretch script (by decide),
      fun es => rfl⟩
  | selfClose text place =>
    obtain ⟨stack, outer, frames, rfl, rfl⟩ := h.frames_eq (by decide) place
    refine ⟨_, _, h.close_inside (by decide) (.selfClosing rfl (text_eq text)) ?_, fun es => rfl⟩
    intro x hx
    rw [List.mem_singleton.mp hx]
    exact .token _
  | closeElement _ fits place =>
    cases h with
    | root => cases place
    | markup => cases place
    | inside hplace => exact absurd place hplace.1
    | content here kind text below =>
      refine ⟨_, _, close_content (here.add ?_ (.token _)) kind text below, fun es => rfl⟩
      show Fits .content _ _
      rw [String.toList_ofList]
      exact fits
  | closeFragment _ fits place =>
    obtain ⟨stack, outer, frames, rfl, rfl⟩ := h.frames_eq (by decide) place
    refine ⟨_, _, h.leave (by decide) ?_, fun es => rfl⟩
    rw [String.toList_ofList]
    exact fits
  | closeExpression place =>
    rcases place with place | place | place
    all_goals
      obtain ⟨stack, outer, frames, rfl, rfl⟩ := h.frames_eq (by decide) place
      exact ⟨_, _, h.leave (by decide) trivial, fun es => rfl⟩

/-! ## Runs -/

/-- What is known of the unmatched characters before a position: they are in no mode of announced markup, and in a tag
there is no angle among them that could end it. -/
def Pends (stack : List Mode) (pending : List Char) : Prop :=
  pending = [] ∨ (current stack ≠ .markup ∧ (current stack = .tag → '>' ∉ pending))

theorem settle_eq (cs : List Char) (h : current stack ≠ .markup) : settle cs stack = stack := by
  unfold settle
  split
  · exact absurd rfl h
  · rfl

theorem Pends.settled {pending : List Char} (cs : List Char) (h : Pends stack pending) :
    Pends (settle cs stack) pending := by
  rcases h with h | h
  · exact .inl h
  · rw [settle_eq cs h.1]
    exact .inr h

/-- Markup that is still announced has a match. -/
theorem isSome_of_settle {cs : List Char} {stack : List Mode} (h : current (settle cs stack) = .markup) :
    (match? .markup false none cs).isSome = true := by
  induction stack with
  | nil => cases h
  | cons mode stack ih =>
    unfold settle at h
    split at h
    · split at h
      · next hsome => exact hsome
      · next hlist _ =>
        obtain rfl := (List.cons.inj hlist).2
        exact ih h
    · next hne => exact absurd (congrArg (· :: stack) h) (hne stack)

/-- A character without a match in a tag is not its last angle. -/
theorem ne_angle_of_tag? {c : Char} {cs : List Char} (h : Scan.tag? (c :: cs) = none) : c ≠ '>' := by
  rintro rfl
  cases h

/-- A character without a match is put to the unmatched ones before it. -/
theorem Pends.add {c : Char} {cs pending : List Char} {atStart : Bool} {before : Option Char}
    (h : Pends stack pending) (hstack : settle (c :: cs) stack = stack)
    (hmatch : match? (current stack) atStart before (c :: cs) = none) : Pends stack (c :: pending) := by
  refine .inr ⟨?_, ?_⟩
  · intro hmarkup
    have hsome := isSome_of_settle (hstack.symm ▸ hmarkup)
    rw [hmarkup] at hmatch
    rw [show match? .markup false none (c :: cs) = none from hmatch] at hsome
    cases hsome
  · intro htag hmem
    rw [htag] at hmatch
    rcases List.mem_cons.mp hmem with heq | hmem
    · exact ne_angle_of_tag? hmatch heq.symm
    · rcases h with h | h
      · rw [h] at hmem
        cases hmem
      · exact h.2 htag hmem

theorem settle_settle (cs : List Char) (stack : List Mode) : settle cs (settle cs stack) = settle cs stack := by
  induction stack with
  | nil => rfl
  | cons mode stack ih =>
    by_cases hm : mode = .markup ∧ (match? .markup false none cs).isSome = false
    · obtain ⟨rfl, hnone⟩ := hm
      have hstep : settle cs (.markup :: stack) = settle cs stack := by
        rw [settle, hnone]
        rfl
      rw [hstep, ih]
    · have hkeep : settle cs (mode :: stack) = mode :: stack := by
        unfold settle
        split
        · next hlist =>
          obtain ⟨rfl, rfl⟩ := List.cons.inj hlist
          rw [if_pos (by simpa [Option.isSome_iff_ne_none] using hm)]
        · rfl
      rw [hkeep, hkeep]

/-- The unmatched characters before a position become a token that the innermost stretch accepts. -/
theorem pend {pending : List Char} (pos : Nat) (h : Opened stack items frames) (pends : Pends stack pending) :
    ∃ items', Opened stack items' frames ∧
      ∀ es, nest items frames (Scan.pendingToken (current stack) pos pending ++ es) = nest items' frames es := by
  unfold Scan.pendingToken
  cases hrest : Scan.rest? (current stack) with
  | none => exact ⟨items, h, fun es => rfl⟩
  | some kind =>
    cases pending with
    | nil => exact ⟨items, h, fun es => rfl⟩
    | cons c cs =>
      refine ⟨_, h.add (h.accepts_token ?_) (.token _), fun es => rfl⟩
      rcases pends with hnil | ⟨-, hangle⟩
      · cases hnil
      · cases hmode : current stack with
        | tag =>
          rw [hmode] at hrest
          cases hrest
          show '>' ∉ (String.ofList (c :: cs).reverse).toList
          rw [String.toList_ofList, List.mem_reverse]
          exact hangle hmode
        | script => trivial
        | braces => trivial
        | group => trivial
        | _ =>
          rw [hmode] at hrest
          cases hrest

/-- Reading on keeps the open modes and the open stretches together, so all pieces are well-formed at the end. -/
theorem nest_formed (before : Option Char) (pos skip : Nat) (pending cs : List Char) (h : Opened stack items frames)
    (pends : Pends stack pending) :
    ∀ p ∈ nest items frames (Scan.eventsFrom stack before pos skip pending cs), Accepts .script p ∧ Formed p := by
  induction cs generalizing stack items frames before pos skip pending with
  | nil =>
    obtain ⟨items', hitems, heq⟩ := h.pend pos pends
    rw [Scan.eventsFrom, ← List.append_nil (Scan.pendingToken _ _ _), heq]
    exact hitems.closeAll_formed
  | cons c cs ih =>
    cases skip with
    | succ skip =>
      rw [Scan.eventsFrom]
      exact ih (some c) (pos + 1) skip pending h pends
    | zero =>
      have hopened := h.settled (c :: cs)
      have hpends := pends.settled (c :: cs)
      rw [Scan.eventsFrom]
      cases hm : match? (current (settle (c :: cs) stack)) (pos == 0) before (c :: cs) with
      | none => exact ih (some c) (pos + 1) 0 (c :: pending) hopened (hpends.add (settle_settle _ _) hm)
      | some m =>
        obtain ⟨items', hitems, hpend⟩ := hopened.pend pos hpends
        obtain ⟨items'', frames'', hstep, hevents⟩ := hitems.step pos (Scan.rule_of_match hm)
        dsimp only
        rw [List.append_assoc, hpend, hevents]
        exact ih (some c) (pos + 1) (m.length - 1) [] hstep (.inl rfl)

end Opened

/-- The pieces of a source text are well-formed. -/
theorem ofText_formed (text : String) : ∀ p ∈ ofText text, Accepts .script p ∧ Formed p :=
  Opened.nest_formed none 0 0 [] text.toList (.root fun _ hx => nomatch hx) (.inl rfl)

end JsxEdit.Piece
