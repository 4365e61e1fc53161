import JsxEdit.Proofs.Written

/-
Runs of the scanner over a piece of text inside a longer one, with the nesting of what it brings.

`Reads` is the run over a text that leaves the open modes as they were, `Enters` and `Leaves` are the runs over what
opens and what ends a stretch. They say nothing of positions, so that runs can be put one after the other.
-/
set_option autoImplicit false

namespace JsxEdit.Scan

open Piece (nest close)

/-! ## One match -/

/-- The characters of a match already made are passed over. -/
theorem eventsFrom_skip (stack : List Mode) (before : Option Char) (pos : Nat) (pending w rest : List Char) :
    ∃ before', eventsFrom stack before pos w.length pending (w ++ rest) =
      eventsFrom stack before' (pos + w.length) 0 pending rest := by
  induction w generalizing before pos with
  | nil => exact ⟨before, rfl⟩
  | cons c w ih =>
    obtain ⟨before', h⟩ := ih (some c) (pos + 1)
    refine ⟨before', ?_⟩
    rw [List.cons_append, List.length_cons, eventsFrom, h, Nat.add_assoc, Nat.add_comm 1]

theorem pendingToken_nil (mode : Mode) (pos : Nat) : pendingToken mode pos [] = [] := by
  unfold pendingToken
  split <;> rfl

/-- A match brings its events and goes on after its characters. -/
theorem eventsFrom_match {stack : List Mode} {before : Option Char} {pos : Nat} (pending : List Char)
    {w rest : List Char} {m : Match} (hmode : current stack ≠ .markup) (hne : w ≠ [])
    (hm : match? (current stack) (pos == 0) before (w ++ rest) = some m) (hlength : m.length = w.length) :
    ∃ before', eventsFrom stack before pos 0 pending (w ++ rest) =
      pendingToken (current stack) pos pending ++ m.events pos (w ++ rest) ++
        eventsFrom (m.move.apply stack) before' (pos + w.length) 0 [] rest := by
  cases w with
  | nil => exact absurd rfl hne
  | cons c w =>
    obtain ⟨before', h⟩ := eventsFrom_skip (m.move.apply stack) (some c) (pos + 1) [] w rest
    refine ⟨before', ?_⟩
    rw [List.cons_append] at hm ⊢
    rw [eventsFrom]
    simp only [Piece.Opened.settle_eq _ hmode, hm, hlength, List.length_cons, Nat.add_sub_cancel, h]
    rw [Nat.add_assoc, Nat.add_comm 1]

/-- Characters without a rule of their own are put off. -/
theorem eventsFrom_quiet {stack : List Mode} {w : List Char} (hw : ∀ c ∈ w, isQuiet c = true) (before : Option Char)
    (pos : Nat) (pending rest : List Char) :
    ∃ before', eventsFrom (.braces :: stack) before pos 0 pending (w ++ rest) =
      eventsFrom (.braces :: stack) before' (pos + w.length) 0 (w.reverse ++ pending) rest := by
  induction w generalizing before pos pending with
  | nil => exact ⟨before, rfl⟩
  | cons c w ih =>
    rw [List.forall_mem_cons] at hw
    obtain ⟨before', h⟩ := ih hw.2 (some c) (pos + 1) (c :: pending)
    have hnone : match? .braces (pos == 0) before (c :: (w ++ rest)) = none := expression?_quiet hw.1 before _
    refine ⟨before', ?_⟩
    rw [List.cons_append, eventsFrom]
    simp only [settle, current, List.head?_cons, Option.getD_some, hnone, h]
    simp [Nat.add_assoc, Nat.add_comm 1]

/-! ## Runs -/

/-- A place where markup can stand: between tags, or at the start of the text. -/
def AtMarkup (stack : List Mode) (pos : Nat) : Prop :=
  current stack = .content ∨ current stack = .fragment ∨ (current stack = .script ∧ pos = 0)

/-- The run over `w` from a place with `here`, if what comes next is as `next` says, brings pieces with the property `P`
and returns to the same open modes. -/
def Reads (here : List Mode → Nat → Prop) (w : List Char) (next : List Char → Prop) (P : List Piece → Prop) : Prop :=
  ∀ stack before pos items frames rest, here stack pos → next rest → ∃ before' pos' ps, P ps ∧
    nest items frames (eventsFrom stack before pos 0 [] (w ++ rest)) =
      nest (ps.reverse ++ items) frames (eventsFrom stack before' pos' 0 [] rest)

/-- The run over `w` opens a stretch of the mode that starts with pieces with the property `P`. -/
def Enters (here : List Mode → Nat → Prop) (w : List Char) (mode : Mode) (next : List Char → Prop)
    (P : List Piece → Prop) : Prop :=
  ∀ stack before pos items frames rest, here stack pos → next rest → ∃ before' pos' ps, P ps ∧
    nest items frames (eventsFrom stack before pos 0 [] (w ++ rest)) =
      nest ps.reverse ((mode, items) :: frames) (eventsFrom (mode :: stack) before' pos' 0 [] rest)

/-- The run over `w` ends a stretch of the mode, which gets further pieces with the property `P`. -/
def Leaves (mode : Mode) (w : List Char) (P : List Piece → Prop) : Prop :=
  ∀ stack before pos items outer frames rest, ∃ before' pos' ps, P ps ∧
    nest items ((mode, outer) :: frames) (eventsFrom (mode :: stack) before pos 0 [] (w ++ rest)) =
      nest (close mode (ps.reverse ++ items) outer) frames (eventsFrom stack before' pos' 0 [] rest)

/-- Inside a stretch of the mode. -/
def Inside (mode : Mode) (stack : List Mode) (_ : Nat) : Prop := current stack = mode

/-- Between tags. -/
def Between (stack : List Mode) (_ : Nat) : Prop := current stack = .content ∨ current stack = .fragment

theorem Between.atMarkup {stack : List Mode} {pos : Nat} (h : Between stack pos) : AtMarkup stack pos := by
  rcases h with h | h
  · exact .inl h
  · exact .inr (.inl h)

variable {here : List Mode → Nat → Prop} {w : List Char} {next : List Char → Prop} {P Q : List Piece → Prop}

theorem Reads.nil : Reads here [] next (· = []) :=
  fun _ before pos _ _ _ _ _ => ⟨before, pos, [], rfl, rfl⟩

theorem Reads.weaken {next' : List Char → Prop} {here' : List Mode → Nat → Prop} (h : Reads here w next P)
    (hhere : ∀ stack pos, here' stack pos → here stack pos) (hnext : ∀ rest, next' rest → next rest)
    (hP : ∀ ps, P ps → Q ps) : Reads here' w next' Q := by
  intro stack before pos items frames rest hh hn
  obtain ⟨before', pos', ps, hps, heq⟩ := h stack before pos items frames rest (hhere _ _ hh) (hnext _ hn)
  exact ⟨before', pos', ps, hP ps hps, heq⟩

theorem Reads.imp (h : Reads here w next P) (hP : ∀ ps, P ps → Q ps) : Reads here w next Q :=
  h.weaken (fun _ _ => id) (fun _ => id) hP

/-- One run after the other, at a place that does not depend on the position. -/
theorem Reads.append {mode : List Mode → Nat → Prop} {w' : List Char} {next' : List Char → Prop}
    (hmode : ∀ stack pos pos', mode stack pos → mode stack pos') (h : Reads mode w next P)
    (h' : Reads mode w' next' Q) (hnext : ∀ rest, next' rest → next (w' ++ rest)) :
    Reads mode (w ++ w') next' fun ps => ∃ qs rs, ps = qs ++ rs ∧ P qs ∧ Q rs := by
  intro stack before pos items frames rest hh hn
  obtain ⟨before₁, pos₁, qs, hqs, heq⟩ := h stack before pos items frames (w' ++ rest) hh (hnext rest hn)
  obtain ⟨before₂, pos₂, rs, hrs, heq'⟩ := h' stack before₁ pos₁ (qs.reverse ++ items) frames rest (hmode _ _ _ hh) hn
  refine ⟨before₂, pos₂, qs ++ rs, ⟨qs, rs, rfl, hqs, hrs⟩, ?_⟩
  rw [List.append_assoc, heq, heq', List.reverse_append, List.append_assoc]

/-- A match of one token that changes no mode. -/
theorem Reads.token {kind : TokenKind} (hne : w ≠ []) (hhere : ∀ stack pos, here stack pos → current stack ≠ .markup)
    (hm : ∀ stack pos before rest, here stack pos → next rest →
      match? (current stack) (pos == 0) before (w ++ rest) = one kind w.length .stay) :
    Reads here w next fun ps => ∃ t : Token, ps = [.token t] ∧ t.kind = kind ∧ t.text = .ofList w := by
  intro stack before pos items frames rest hh hn
  obtain ⟨before', heq⟩ := eventsFrom_match [] (hhere _ _ hh) hne (hm stack pos before rest hh hn) rfl
  refine ⟨before', pos + w.length, [.token ⟨kind, pos, .ofList w⟩], ⟨_, rfl, rfl, rfl⟩, ?_⟩
  rw [heq, pendingToken_nil]
  simp [Match.events, tokens, Move.apply, nest]

theorem Leaves.imp {mode : Mode} (h : Leaves mode w P) (hP : ∀ ps, P ps → Q ps) : Leaves mode w Q := by
  intro stack before pos items outer frames rest
  obtain ⟨before', pos', ps, hps, heq⟩ := h stack before pos items outer frames rest
  exact ⟨before', pos', ps, hP ps hps, heq⟩

/-- What a stretch holds may be read before it ends. -/
theorem Leaves.after {mode : Mode} {z : List Char} (hz : Leaves mode z Q) (hw : Reads (Inside mode) w next P)
    (hnext : ∀ rest, next (z ++ rest)) : Leaves mode (w ++ z) fun ps => ∃ qs es, ps = qs ++ es ∧ P qs ∧ Q es := by
  intro stack before pos items outer frames rest
  obtain ⟨before₁, pos₁, qs, hqs, heq₁⟩ :=
    hw (mode :: stack) before pos items ((mode, outer) :: frames) (z ++ rest) rfl (hnext rest)
  obtain ⟨before₂, pos₂, es, hes, heq₂⟩ := hz stack before₁ pos₁ (qs.reverse ++ items) outer frames rest
  refine ⟨before₂, pos₂, qs ++ es, ⟨qs, es, rfl, hqs, hes⟩, ?_⟩
  rw [List.append_assoc, heq₁, heq₂, List.reverse_append, List.append_assoc]

/-- A whole stretch: what opens it, and what there is up to its end. -/
theorem Enters.stretch {mode : Mode} {z : List Char} (ho : Enters here w mode next P) (hz : Leaves mode z Q)
    (hnext : ∀ rest, next (z ++ rest)) (hP : ¬ P []) :
    Reads here (w ++ z) (fun _ => True) fun ps => ∃ os es, ps = [.stretch mode (os ++ es)] ∧ P os ∧ Q es := by
  intro stack before pos items frames rest hh _
  obtain ⟨before₁, pos₁, os, hos, heq₁⟩ := ho stack before pos items frames (z ++ rest) hh (hnext rest)
  obtain ⟨before₂, pos₂, es, hes, heq₂⟩ := hz stack before₁ pos₁ os.reverse items frames rest
  refine ⟨before₂, pos₂, [.stretch mode (os ++ es)], ⟨os, es, rfl, hos, hes⟩, ?_⟩
  have hclose : close mode (es.reverse ++ os.reverse) items = .stretch mode (os ++ es) :: items := by
    have hne : os ≠ [] := by
      rintro rfl
      exact hP hos
    simp [close, hne]
  rw [List.append_assoc, heq₁, heq₂, hclose]
  rfl

/-! ## Opening and ending stretches -/

/-- The pieces are one delimiter. -/
def IsDelimiter (w : List Char) (ps : List Piece) : Prop :=
  ∃ t : Token, ps = [.token t] ∧ t.kind = .delimiter ∧ t.text = .ofList w

/-- The pieces are an angle and a tag name. -/
def IsTagStart (name : String) (ps : List Piece) : Prop :=
  ∃ angle t : Token, ps = [.token angle, .token t] ∧ t.text = name

/-- A match of one token that opens a stretch, which starts with it. -/
theorem Enters.token {kind : TokenKind} {mode : Mode} (hne : w ≠ []) (hmode : mode ≠ .content ∧ mode ≠ .markup)
    (hhere : ∀ stack pos, here stack pos → current stack ≠ .markup)
    (hm : ∀ stack pos before rest, here stack pos → next rest →
      match? (current stack) (pos == 0) before (w ++ rest) = one kind w.length (.enter mode)) :
    Enters here w mode next fun ps => ∃ t : Token, ps = [.token t] ∧ t.kind = kind ∧ t.text = .ofList w := by
  intro stack before pos items frames rest hh hn
  obtain ⟨before', heq⟩ := eventsFrom_match [] (hhere _ _ hh) hne (hm stack pos before rest hh hn) rfl
  refine ⟨before', pos + w.length, [.token ⟨kind, pos, .ofList w⟩], ⟨_, rfl, rfl, rfl⟩, ?_⟩
  rw [heq, pendingToken_nil]
  cases mode
  case content => exact absurd rfl hmode.1
  case markup => exact absurd rfl hmode.2
  all_goals simp [Match.events, tokens, Move.apply, nest]

/-- A match of one token that ends a stretch. -/
theorem Leaves.token {kind : TokenKind} {mode : Mode} (hne : w ≠ []) (hmode : mode ≠ .markup)
    (hm : ∀ pos before rest, match? mode pos before (w ++ rest) = one kind w.length (.leave 1)) :
    Leaves mode w fun ps => ∃ t : Token, ps = [.token t] ∧ t.kind = kind ∧ t.text = .ofList w := by
  intro stack before pos items outer frames rest
  have hmatch : match? (current (mode :: stack)) (pos == 0) before (w ++ rest) = one kind w.length (.leave 1) :=
    hm (pos == 0) before rest
  have hcurrent : current (mode :: stack) ≠ .markup := hmode
  obtain ⟨before', heq⟩ := eventsFrom_match [] hcurrent hne hmatch rfl
  refine ⟨before', pos + w.length, [.token ⟨kind, pos, .ofList w⟩], ⟨_, rfl, rfl, rfl⟩, ?_⟩
  rw [heq, pendingToken_nil]
  simp [Match.events, tokens, Move.apply, nest]

theorem AtMarkup.ne_markup {stack : List Mode} {pos : Nat} (h : AtMarkup stack pos) : current stack ≠ .markup := by
  rcases h with h | h | ⟨h, -⟩ <;> simp [h]

/-- Where markup can stand, it is read as markup. -/
theorem AtMarkup.match? {stack : List Mode} {pos : Nat} (h : AtMarkup stack pos) {c : Char} {cs : List Char} {m : Match}
    (hspace : Text.isSpace c = false) (hslash : c ≠ '/') (hm : markup? ('<' :: c :: cs) = some m)
    (before : Option Char) : Scan.match? (current stack) (pos == 0) before ('<' :: c :: cs) = some m := by
  have hclose := @closingTagLength?_eq_none c cs hspace hslash
  have hlength : spaceLength ('<' :: c :: cs) = 0 := spaceLength_append (w := []) rfl (by decide)
  rcases h with h | h | ⟨h, rfl⟩
  · rw [h]
    exact content?_markup hclose hm
  · rw [h]
    exact content?_markup hclose hm
  · rw [h]
    simp [Scan.match?, firstMarkup?, hlength, hm]

/-- The text after a name ends it. -/
def NameEnds (rest : List Char) : Prop := ∃ c cs, rest = c :: cs ∧ Text.EndsName c

theorem enters_tag {name : String} (h : Text.IsFullName .tag name) :
    Enters AtMarkup ('<' :: name.toList) .tag NameEnds (IsTagStart name) := by
  intro stack before pos items frames rest hh hn
  obtain ⟨c, cs, rfl, hc⟩ := hn
  have hm : match? (current stack) (pos == 0) before (('<' :: name.toList) ++ c :: cs) =
      some ⟨[(.delimiter, 1), (.tagName, name.toList.length)], .enter .tag⟩ := by
    have hmarkup := @markup?_element name c cs h hc
    obtain ⟨d, w, hname, hd, hspace⟩ := h.starts
    rw [List.cons_append]
    rw [hname, List.cons_append] at hmarkup ⊢
    refine hh.match? (hspace d List.mem_cons_self) ?_ hmarkup before
    rintro rfl
    cases hd
  obtain ⟨before', heq⟩ := eventsFrom_match [] hh.ne_markup (by simp) hm (by simp [Match.length, Nat.add_comm])
  refine ⟨before', pos + ('<' :: name.toList).length,
    [.token ⟨.delimiter, pos, "<"⟩, .token ⟨.tagName, pos + 1, name⟩], ⟨_, _, rfl, rfl⟩, ?_⟩
  rw [heq, pendingToken_nil]
  simp [Match.events, tokens, Move.apply, nest]

theorem enters_fragment : Enters AtMarkup ['<', '>'] .fragment (fun _ => True) (IsDelimiter ['<', '>']) := by
  refine Enters.token (by simp) (by decide) (fun _ _ h => h.ne_markup) fun stack pos before rest hh _ => ?_
  exact hh.match? (by decide) (by decide) rfl before

/-- Braces open an expression between tags and in a tag. -/
theorem enters_braces (hhere : ∀ stack pos, here stack pos → Between stack pos ∨ Inside .tag stack pos) :
    Enters here ['\x7b'] .braces (fun _ => True) (IsDelimiter ['\x7b']) := by
  refine Enters.token (by simp) (by decide) (fun stack pos h => ?_) fun stack pos before rest hh _ => ?_
  · rcases hhere _ _ h with (h | h) | (h : current stack = .tag) <;> simp [h]
  · rcases hhere _ _ hh with (h | h) | (h : current stack = .tag)
    · rw [h]
      exact content?_brace 2 rest
    · rw [h]
      exact content?_brace 1 rest
    · rw [h]
      exact tag?_brace rest

theorem leaves_tag : Leaves .tag ['/', '>'] (IsDelimiter ['/', '>']) :=
  .token (by simp) (by decide) fun _ _ rest => tag?_close rest

theorem leaves_braces : Leaves .braces ['\x7d'] (IsDelimiter ['\x7d']) :=
  .token (by simp) (by decide) fun _ _ _ => rfl

/-- The end of an opening tag brings its token and opens the content. -/
theorem nest_content (stack : List Mode) (before : Option Char) (pos : Nat) (items : List Piece)
    (frames : List (Mode × List Piece)) (rest : List Char) :
    ∃ before', nest items frames (eventsFrom (.tag :: stack) before pos 0 [] ('>' :: rest)) =
      nest [] ((.content, .token ⟨.delimiter, pos, ">"⟩ :: items) :: frames)
        (eventsFrom (.content :: .tag :: stack) before' (pos + 1) 0 [] rest) := by
  have hmode : current (.tag :: stack) ≠ .markup := by simp [current]
  have hm : match? (current (.tag :: stack)) (pos == 0) before (['>'] ++ rest) = one .delimiter 1 (.enter .content) :=
    tag?_content rest
  obtain ⟨before', heq⟩ := eventsFrom_match [] hmode (by simp) hm rfl
  refine ⟨before', ?_⟩
  rw [List.singleton_append] at heq
  rw [heq, pendingToken_nil]
  simp [Match.events, tokens, Move.apply, nest]

/-- The characters of a closing tag. -/
def closingTag (name : String) : List Char := '<' :: '/' :: (name.toList ++ ['>'])

theorem content?_closingTag {name : String} (h : name = "" ∨ Text.IsFullName .tag name) (count : Nat)
    (rest : List Char) : content? count (closingTag name ++ rest) =
      one .delimiter (closingTag name).length (.leave count) := by
  have hcontent := content?_close h count rest
  simpa [closingTag] using hcontent

theorem leaves_fragment : Leaves .fragment (closingTag "") (IsDelimiter (closingTag "")) :=
  .token (by simp [closingTag]) (by decide) fun _ _ rest => content?_closingTag (.inl rfl) 1 rest

/-- A closing tag ends the content and the element. -/
theorem nest_closingTag {name : String} (h : Text.IsFullName .tag name) (stack : List Mode) (before : Option Char)
    (pos : Nat) (items inner outer : List Piece) (frames : List (Mode × List Piece)) (rest : List Char) :
    ∃ before', nest items ((.content, inner) :: (.tag, outer) :: frames)
        (eventsFrom (.content :: .tag :: stack) before pos 0 [] (closingTag name ++ rest)) =
      nest (close .tag (close .content (.token ⟨.delimiter, pos, .ofList (closingTag name)⟩ :: items) inner) outer) frames
        (eventsFrom stack before' (pos + (closingTag name).length) 0 [] rest) := by
  have hmode : current (.content :: .tag :: stack) ≠ .markup := by simp [current]
  have hne : closingTag name ≠ [] := by simp [closingTag]
  have hm : match? (current (.content :: .tag :: stack)) (pos == 0) before (closingTag name ++ rest) =
      one .delimiter (closingTag name).length (.leave 2) := content?_closingTag (.inr h) 2 rest
  obtain ⟨before', heq⟩ := eventsFrom_match [] hmode hne hm rfl
  refine ⟨before', ?_⟩
  rw [heq, pendingToken_nil]
  simp [Match.events, tokens, Move.apply, nest, List.replicate]

/-- The content of an element and its closing tag, which ends the element too. -/
theorem leaves_content {name : String} (h : Text.IsFullName .tag name) (hw : Reads Between w Stops P) :
    Leaves .tag ('>' :: (w ++ closingTag name)) fun ps => ∃ (angle : Token) (qs es : List Piece),
      ps = [.token angle, .stretch .content (qs ++ es)] ∧ angle.kind = .delimiter ∧ angle.text = ">" ∧ P qs ∧
        IsDelimiter (closingTag name) es := by
  intro stack before pos items outer frames rest
  obtain ⟨before₁, heq₁⟩ := nest_content stack before pos items ((.tag, outer) :: frames)
    (w ++ (closingTag name ++ rest))
  obtain ⟨before₂, pos₂, qs, hqs, heq₂⟩ := hw (.content :: .tag :: stack) before₁ (pos + 1) []
    ((.content, .token ⟨.delimiter, pos, ">"⟩ :: items) :: (.tag, outer) :: frames) (closingTag name ++ rest)
    (.inl rfl) ⟨'<', _, rfl, .inl rfl⟩
  obtain ⟨before₃, heq₃⟩ := nest_closingTag h stack before₂ pos₂ (qs.reverse ++ []) (.token ⟨.delimiter, pos, ">"⟩ :: items)
    outer frames rest
  refine ⟨before₃, pos₂ + (closingTag name).length, _, ⟨⟨.delimiter, pos, ">"⟩, qs, _, rfl, rfl, rfl, hqs,
    ⟨.delimiter, pos₂, .ofList (closingTag name)⟩, rfl, rfl, rfl⟩, ?_⟩
  rw [List.cons_append, List.append_assoc, heq₁, heq₂, heq₃]
  simp [close]

/-- Characters without a rule of their own, up to the end of the braces, are one token. -/
theorem leaves_quiet (hne : w ≠ []) (hw : ∀ c ∈ w, isQuiet c = true) :
    Leaves .braces (w ++ ['\x7d']) fun ps => ∃ t t' : Token,
      ps = [.token t, .token t'] ∧ t.text = .ofList w ∧ t'.text = "\x7d" := by
  intro stack before pos items outer frames rest
  obtain ⟨before₁, heq₁⟩ := @eventsFrom_quiet stack w hw before pos [] (['\x7d'] ++ rest)
  have hmode : current (.braces :: stack) ≠ .markup := by simp [current]
  have hm : match? (current (.braces :: stack)) (pos + w.length == 0) before₁ (['\x7d'] ++ rest) =
      one .delimiter 1 (.leave 1) := rfl
  obtain ⟨before₂, heq₂⟩ := eventsFrom_match (w.reverse ++ []) hmode (by simp) hm rfl
  refine ⟨before₂, pos + w.length + 1, _, ⟨⟨.text, pos, .ofList w⟩, ⟨.delimiter, pos + w.length, "\x7d"⟩, rfl, rfl, rfl⟩, ?_⟩
  rw [List.append_assoc, heq₁, heq₂]
  simp [pendingToken, current, rest?, hne, Match.events, tokens, Move.apply, nest, List.replicate]

end JsxEdit.Scan
