import JsxEdit.Proofs.FlawlessSource

/-
Reading a source does not depend on where in the text it stands.

If every token stands some characters further on, then what is read is the same, but for the places that its nodes
record: where they start and stop, and where invalid markup was met. A tree that could be read has no record of the last
kind, and is the same tree once it forgets where it was read.
-/
set_option autoImplicit false

namespace JsxEdit

variable (d : Nat)

/-! ## Tokens and pieces -/

/-- The token `d` characters further on. -/
def Token.shift (t : Token) : Token := { t with pos := t.pos + d }

@[simp] theorem Token.kind_shift (t : Token) : (t.shift d).kind = t.kind := rfl
@[simp] theorem Token.text_shift (t : Token) : (t.shift d).text = t.text := rfl

/-- The event `d` characters further on. -/
def Event.shift : Event → Event
  | .token t => .token (t.shift d)
  | .enter mode => .enter mode
  | .leave => .leave

namespace Piece

mutual

/-- The piece `d` characters further on. -/
def shift : Piece → Piece
  | .token t => .token (t.shift d)
  | .stretch mode items => .stretch mode (allShift items)

/-- The pieces `d` characters further on. -/
def allShift : List Piece → List Piece
  | [] => []
  | p :: ps => p.shift :: allShift ps

end

theorem allShift_eq_map (ps : List Piece) : allShift d ps = ps.map (shift d) := by
  induction ps with
  | nil => rfl
  | cons p ps ih => rw [allShift, List.map_cons, ih]

@[simp] theorem shift_token (t : Token) : shift d (.token t) = .token (t.shift d) := by rw [shift]

@[simp] theorem shift_stretch (mode : Mode) (items : List Piece) :
    shift d (.stretch mode items) = .stretch mode (items.map (shift d)) := by rw [shift, allShift_eq_map]

/-- The open stretches `d` characters further on. -/
def shiftFrames (frames : List (Mode × List Piece)) : List (Mode × List Piece) :=
  frames.map fun frame => (frame.1, frame.2.map (shift d))

theorem close_shift (mode : Mode) (items outer : List Piece) :
    close mode (items.map (shift d)) (outer.map (shift d)) = (close mode items outer).map (shift d) := by
  cases items with
  | nil => rfl
  | cons p ps => simp [close]

theorem closeAll_shift (items : List Piece) (frames : List (Mode × List Piece)) :
    closeAll (items.map (shift d)) (shiftFrames d frames) = (closeAll items frames).map (shift d) := by
  induction frames generalizing items with
  | nil => simp [shiftFrames, closeAll]
  | cons frame frames ih =>
    rw [shiftFrames, List.map_cons, closeAll, closeAll, close_shift]
    exact ih _

/-- Nesting moves the pieces on with the events. -/
theorem nest_shift (items : List Piece) (frames : List (Mode × List Piece)) (es : List Event) :
    nest (items.map (shift d)) (shiftFrames d frames) (es.map (Event.shift d)) = (nest items frames es).map (shift d) := by
  induction es generalizing items frames with
  | nil => exact closeAll_shift d items frames
  | cons e es ih =>
    cases e with
    | token t => exact ih (.token t :: items) frames
    | enter mode => exact ih [] ((mode, items) :: frames)
    | leave =>
      cases frames with
      | nil => exact ih items []
      | cons frame frames =>
        rw [List.map_cons, Event.shift, shiftFrames, List.map_cons, nest, nest, close_shift]
        exact ih _ frames

end Piece

namespace Scan

theorem tokens_shift (pos : Nat) (cs : List Char) (parts : List (TokenKind × Nat)) :
    tokens (pos + d) cs parts = (tokens pos cs parts).map (Event.shift d) := by
  induction parts generalizing pos cs with
  | nil => rfl
  | cons part parts ih =>
    rw [tokens, tokens, List.map_cons, ← ih, Nat.add_right_comm]
    rfl

theorem events_shift (m : Match) (pos : Nat) (cs : List Char) :
    m.events (pos + d) cs = (m.events pos cs).map (Event.shift d) := by
  unfold Match.events
  rw [tokens_shift]
  split
  · rfl
  · rfl
  · rw [List.map_append]
    rfl
  · rfl
  · rw [List.map_append, List.map_replicate]
    rfl

theorem pendingToken_shift (mode : Mode) {pos : Nat} {pending : List Char} (h : pending.length ≤ pos) :
    pendingToken mode (pos + d) pending = (pendingToken mode pos pending).map (Event.shift d) := by
  unfold pendingToken
  cases rest? mode with
  | none => rfl
  | some kind =>
    cases hempty : pending.isEmpty with
    | true => rfl
    | false => simp [Event.shift, Token.shift, Nat.sub_add_comm h]

/-- Reading goes the same way anywhere but at the start of the text. -/
theorem eventsFrom_shift (stack : List Mode) (before : Option Char) {pos : Nat} (skip : Nat) {pending : List Char}
    (cs : List Char) (h : pending.length < pos) : eventsFrom stack before (pos + d) skip pending cs =
      (eventsFrom stack before pos skip pending cs).map (Event.shift d) := by
  induction cs generalizing stack before pos skip pending with
  | nil => exact pendingToken_shift d _ (Nat.le_of_lt h)
  | cons c cs ih =>
    -- the pending characters stand before the position, so this is not the start of the text
    have hstart : (pos + d == 0) = (pos == 0) := by
      have hpos : pos ≠ 0 := Nat.ne_of_gt (Nat.lt_of_le_of_lt (Nat.zero_le _) h)
      simp [hpos]
    cases skip with
    | succ skip =>
      rw [eventsFrom, eventsFrom, Nat.add_right_comm]
      exact ih stack (some c) skip (Nat.lt_succ_of_lt h)
    | zero =>
      rw [eventsFrom, eventsFrom, hstart]
      split
      · next m hm =>
        rw [List.map_append, List.map_append, pendingToken_shift d _ (Nat.le_of_lt h), events_shift, Nat.add_right_comm]
        rw [ih _ (some c) (m.length - 1) (Nat.succ_pos pos)]
      · rw [Nat.add_right_comm]
        exact ih _ (some c) 0 (Nat.succ_lt_succ h)

end Scan

/-! ## Nodes -/

/-- The range `d` characters further on. -/
def Span.shift (s : Span) : Span := ⟨s.start + d, s.stop + d⟩

/-- The record of a node that was read `d` characters further on. -/
def Info.shift (i : Info) : Info := { i with head := i.head.map (Span.shift d), tail := i.tail.map (Span.shift d) }

/-- The kind of a node that was read `d` characters further on. -/
def Kind.shift : Kind → Kind
  | .invalid reason position => .invalid reason (position.map (· + (d : Int)))
  | k => k

theorem Kind.shift_of_isInvalid {k : Kind} (h : k.isInvalid = false) : k.shift d = k := by
  cases k <;> first | rfl | cases h

@[simp] theorem Kind.isInvalid_shift (k : Kind) : (k.shift d).isInvalid = k.isInvalid := by cases k <;> rfl
@[simp] theorem Kind.name_shift (k : Kind) : (k.shift d).name = k.name := by cases k <;> rfl

namespace Node

mutual

/-- The node as it is read `d` characters further on. -/
def shift : Node → Node
  | .mk k i as cs => .mk (k.shift d) (i.shift d) (allShift as) (allShift cs)

/-- The nodes as they are read `d` characters further on. -/
def allShift : List Node → List Node
  | [] => []
  | n :: ns => n.shift :: allShift ns

end

theorem allShift_eq_map (ns : List Node) : allShift d ns = ns.map (shift d) := by
  induction ns with
  | nil => rfl
  | cons n ns ih => rw [allShift, List.map_cons, ih]

@[simp] theorem shift_mk (k : Kind) (i : Info) (as cs : List Node) :
    shift d (mk k i as cs) = mk (k.shift d) (i.shift d) (as.map (shift d)) (cs.map (shift d)) := by
  rw [shift, allShift_eq_map, allShift_eq_map]

@[simp] theorem shift_new (k : Kind) (cs : List Node) : shift d (new k cs) = new (k.shift d) (cs.map (shift d)) :=
  shift_mk d k {} [] cs

@[simp] theorem kind_shift (n : Node) : (n.shift d).kind = n.kind.shift d := by
  cases n
  rw [shift_mk, kind_mk, kind_mk]

@[simp] theorem children_shift (n : Node) : (n.shift d).children = n.children.map (shift d) := by
  cases n
  rw [shift_mk, children_mk, children_mk]

theorem withChildren_shift (n : Node) (cs : List Node) :
    (n.withChildren cs).shift d = (n.shift d).withChildren (cs.map (shift d)) := by
  cases n
  simp [withChildren]

mutual

theorem isValid_shift : (n : Node) → (n.shift d).isValid = n.isValid
  | .mk k i as cs => by
    rw [shift, isValid, isValid, Kind.isInvalid_shift, allValid_shift as, allValid_shift cs]

theorem allValid_shift : (ns : List Node) → allValid (allShift d ns) = allValid ns
  | [] => rfl
  | n :: ns => by rw [allShift, allValid, allValid, isValid_shift n, allValid_shift ns]

end

mutual

/-- A valid node has no record of its place but where it starts and stops. -/
theorem withoutOrigin_shift : (n : Node) → n.isValid = true → (n.shift d).withoutOrigin = n.withoutOrigin
  | .mk k i as cs, h => by
    rw [isValid, Bool.and_eq_true, Bool.and_eq_true, Bool.not_eq_true'] at h
    rw [shift, withoutOrigin, withoutOrigin, k.shift_of_isInvalid d h.1.1, allWithoutOrigin_shift as h.1.2,
      allWithoutOrigin_shift cs h.2]
    rfl

theorem allWithoutOrigin_shift : (ns : List Node) → allValid ns = true →
    allWithoutOrigin (allShift d ns) = allWithoutOrigin ns
  | [], _ => rfl
  | n :: ns, h => by
    rw [allValid, Bool.and_eq_true] at h
    rw [allShift, allWithoutOrigin, allWithoutOrigin, withoutOrigin_shift n h.1, allWithoutOrigin_shift ns h.2]

end

mutual

theorem write_shift : (n : Node) → (n.shift d).write = n.write
  | .mk k i as cs => by
    have hempty : (allShift d cs).isEmpty = cs.isEmpty := by
      rw [allShift_eq_map, List.isEmpty_map]
    cases k <;> simp [shift, write, Kind.shift, Kind.opening, Kind.tagEnd, Kind.closing, writeAll_shift as,
      writeAll_shift cs, writeItems_shift cs, hempty]

theorem writeAll_shift : (ns : List Node) → writeAll (allShift d ns) = writeAll ns
  | [] => rfl
  | n :: ns => by rw [allShift, writeAll, writeAll, write_shift n, writeAll_shift ns]

theorem writeItems_shift : (ns : List Node) → writeItems (allShift d ns) = writeItems ns
  | [] => rfl
  | [n] => write_shift n
  | n :: m :: ns => by
    rw [allShift, allShift, writeItems, writeItems, ← allShift, writeItems_shift (m :: ns), write_shift n]

end

end Node

/-- Expressions that were recognised by their text have no place. -/
theorem Expression.shift_ofText (text : String) : (ofText text).shift d = ofText text := by
  unfold ofText
  dsimp only
  split
  · next k hk =>
    have hvalid : k.isInvalid = false := by
      unfold kind? at hk
      dsimp only at hk
      repeat' split at hk
      all_goals cases hk
      all_goals rfl
    rw [Node.shift_new, k.shift_of_isInvalid d hvalid, List.map_nil]
  · rfl

/-! ## Parts of expressions -/

/-- What works on each value of a list before or after a partial function works on the list. -/
theorem mapM_map {α β : Type} {f : α → Option β} {g : α → α} {h : β → β} (hf : ∀ x, f (g x) = (f x).map h)
    (xs : List α) : (xs.map g).mapM f = (xs.mapM f).map (List.map h) := by
  induction xs with
  | nil => rfl
  | cons x xs ih =>
    rw [List.map_cons, List.mapM_cons, List.mapM_cons, ih, hf]
    cases f x with
    | none => rfl
    | some y => cases xs.mapM f <;> rfl

namespace Leaf

/-- The token or node `d` characters further on. -/
def shift : Leaf → Leaf
  | .token t => .token (t.shift d)
  | .node n => .node (n.shift d)

theorem tokenText?_shift (leaves : List Leaf) : tokenText? (leaves.map (shift d)) = tokenText? leaves := by
  have htoken : ∀ l : Leaf, (l.shift d).token? = l.token?.map (Token.shift d) := fun l => by cases l <;> rfl
  rw [tokenText?, tokenText?, mapM_map htoken, Option.map_map]
  congr 1
  funext ts
  simp [Function.comp_def]

theorem codeNode_shift (ts : List Token) : codeNode (ts.map (Token.shift d)) = (codeNode ts).shift d := by
  rw [codeNode, codeNode, Node.shift_mk, List.getLast?_map, List.head?_map]
  cases ts with
  | nil => rfl
  | cons t ts =>
    cases hlast : (t :: ts).getLast? with
    | none => simp at hlast
    | some u =>
      simp [Info.shift, Span.shift, Kind.shift, Token.shift, Token.stop, Function.comp_def, Nat.add_right_comm]

theorem codeFrom_shift (pending : List Token) (leaves : List Leaf) :
    codeFrom (pending.map (Token.shift d)) (leaves.map (shift d)) = (codeFrom pending leaves).map (Node.shift d) := by
  have hcode : codeNode (pending.map (Token.shift d)).reverse = (codeNode pending.reverse).shift d := by
    rw [← List.map_reverse, codeNode_shift]
  induction leaves generalizing pending with
  | nil =>
    rw [List.map_nil, codeFrom, codeFrom, List.isEmpty_map, hcode]
    split <;> rfl
  | cons l leaves ih =>
    cases l with
    | token t =>
      refine ih (t :: pending) ?_
      rw [← List.map_reverse, codeNode_shift]
    | node n =>
      have hrest := ih [] (codeNode_shift d [])
      rw [List.map_nil] at hrest
      rw [List.map_cons, shift, codeFrom, codeFrom, List.isEmpty_map, hcode, hrest]
      split <;> rfl

theorem code_shift (leaves : List Leaf) : code (leaves.map (shift d)) = (code leaves).map (Node.shift d) :=
  codeFrom_shift d [] leaves

end Leaf

/-- The expression `d` characters further on. -/
def Reading.shift (r : Reading) : Reading := { r with node := r.node.map (Node.shift d) }

/-- The bracketed part `d` characters further on. -/
def Group.shift (g : Group) : Group :=
  ⟨g.head.shift d, g.inside.map (Leaf.shift d), g.tail.map (Token.shift d), g.reading.shift d,
    g.object.map (Node.shift d)⟩

namespace Part

/-- The part `d` characters further on. -/
def shift : Part → Part
  | .leaf l => .leaf (l.shift d)
  | .group g => .group (g.shift d)
  | .content nodes close => .content (nodes.map (Node.shift d)) (close.map (Token.shift d))

theorem token?_shift (p : Part) : (p.shift d).token? = p.token?.map (Token.shift d) := by
  rcases p with (t | n) | g | ⟨nodes, close⟩ <;> rfl

theorem leaves_shift (p : Part) : (p.shift d).leaves = p.leaves.map (Leaf.shift d) := by
  rcases p with (t | n) | g | ⟨nodes, close⟩
  · rfl
  · rfl
  · cases htail : g.tail <;> simp [shift, leaves, Group.leaves, Group.shift, Leaf.shift, htail]
  · rfl

theorem allLeaves_shift (parts : List Part) :
    allLeaves (parts.map (shift d)) = (allLeaves parts).map (Leaf.shift d) := by
  rw [allLeaves, allLeaves, List.flatMap_map, List.map_flatMap]
  congr 1
  funext p
  exact leaves_shift d p

theorem isBlank_shift (p : Part) : (p.shift d).isBlank = p.isBlank := by
  rw [isBlank, isBlank, token?_shift, Option.any_map]
  rfl

theorem isSeparator_shift (text : String) (p : Part) : (p.shift d).isSeparator text = p.isSeparator text := by
  rw [isSeparator, isSeparator, token?_shift, Option.any_map]
  rfl

theorem object?_shift (parts : List Part) : object? (parts.map (shift d)) = (object? parts).map (Node.shift d) := by
  have hfilter : (parts.map (shift d)).filter (fun p => !p.isBlank) =
      (parts.filter fun p => !p.isBlank).map (shift d) := by
    rw [List.filter_map]
    congr 1
    exact List.filter_congr fun p _ => by simp [isBlank_shift]
  unfold object?
  rw [hfilter]
  generalize parts.filter (fun p => !p.isBlank) = found
  rcases found with - | ⟨p, - | ⟨q, ps⟩⟩
  · rfl
  · rcases p with l | g | ⟨nodes, close⟩
    · rfl
    · have htail : (g.tail.map (Token.shift d)).isSome = g.tail.isSome := Option.isSome_map
      show (if (g.head.text == "\x7b" && (g.tail.map (Token.shift d)).isSome) = true then _ else _) = _
      rw [htail]
      show _ = Option.map _ (if (g.head.text == "\x7b" && g.tail.isSome) = true then _ else _)
      split <;> rfl
    · rfl
  · cases p <;> rfl

theorem reading_shift (parts : List Part) : reading (parts.map (shift d)) = (reading parts).shift d := by
  rw [reading, reading, allLeaves_shift, Leaf.tokenText?_shift, Leaf.code_shift, object?_shift]
  cases Leaf.tokenText? (allLeaves parts) with
  | none => simp [Reading.shift, Kind.shift]
  | some text =>
    dsimp only
    split
    · rfl
    · cases object? parts <;> simp [Reading.shift, Expression.shift_ofText]

theorem splitOn_shift {p : Part → Bool} (hp : ∀ x, p (x.shift d) = p x) (parts : List Part) :
    splitOn p (parts.map (shift d)) = (splitOn p parts).map (List.map (shift d)) := by
  induction parts with
  | nil => rfl
  | cons x parts ih =>
    rw [List.map_cons, splitOn, splitOn, ih, hp]
    split
    · rfl
    · cases splitOn p parts <;> rfl

theorem property?_shift (parts : List Part) :
    property? (parts.map (shift d)) = (property? parts).map fun e => (e.1.shift d, e.2) := by
  have hfind : (parts.map (shift d)).findIdx? (isSeparator ":") = parts.findIdx? (isSeparator ":") := by
    rw [List.findIdx?_map]
    congr 1
    funext p
    exact isSeparator_shift d ":" p
  unfold property?
  rw [hfind]
  cases parts.findIdx? (isSeparator ":") with
  | none => rfl
  | some colon =>
    dsimp only [Option.bind_eq_bind, Option.bind_some]
    rw [← List.map_take, ← List.map_drop, mapM_map (token?_shift d), reading_shift]
    cases (parts.take colon).mapM token? with
    | none => rfl
    | some ts =>
      have htext : (ts.map (Token.shift d)).map (·.text) = ts.map (·.text) := by
        simp [Function.comp_def]
      dsimp only [Option.map_some, Option.bind_some]
      rw [htext]
      split
      · rfl
      · dsimp only [Reading.shift]
        cases (reading (parts.drop (colon + 1))).node <;> simp [Kind.shift]

theorem asObject_shift (parts : List Part) : asObject (parts.map (shift d)) = (asObject parts).map (Node.shift d) := by
  have hlast : ∀ items : List (List Part),
      ((items.map (List.map (shift d))).getLast?.map allLeaves).bind Leaf.tokenText? =
        (items.getLast?.map allLeaves).bind Leaf.tokenText? := by
    intro items
    rw [List.getLast?_map]
    cases items.getLast? with
    | none => rfl
    | some item =>
      rw [Option.map_some, Option.map_some, Option.map_some, Option.bind_some, Option.bind_some, allLeaves_shift,
        Leaf.tokenText?_shift]
  unfold asObject
  dsimp only
  rw [splitOn_shift d (isSeparator_shift d ","), hlast]
  generalize splitOn (isSeparator ",") parts = items
  generalize ((items.getLast?.map allLeaves).bind Leaf.tokenText?).filter Text.isBlank = ended
  have hitems : (if ended.isSome then (items.map (List.map (shift d))).dropLast else items.map (List.map (shift d))) =
      (if ended.isSome then items.dropLast else items).map (List.map (shift d)) := by
    split
    · rw [List.map_dropLast]
    · rfl
  rw [hitems]
  generalize (if ended.isSome then items.dropLast else items) = items
  rw [mapM_map (property?_shift d), List.isEmpty_map]
  cases items.mapM property? with
  | none => rfl
  | some properties =>
    simp [Kind.shift, Function.comp_def]

/-- A group starts with its opening bracket, which stands further on with the rest. -/
theorem asGroup_shift (closers : List String) (t : Token) (parts : List Part) :
    asGroup closers ((leaf (.token t) :: parts).map (shift d)) = (asGroup closers (leaf (.token t) :: parts)).shift d := by
  have htail : ∀ parts : List Part, ((parts.map (shift d)).getLast?.bind token?).filter (closers.contains ·.text) =
      ((parts.getLast?.bind token?).filter (closers.contains ·.text)).map (Token.shift d) := by
    intro parts
    rw [List.getLast?_map]
    cases parts.getLast? with
    | none => rfl
    | some p =>
      rw [Option.map_some, Option.bind_some, Option.bind_some, token?_shift, Option.filter_map]
      rfl
  have hinside : ∀ (found : Bool) (parts : List Part),
      (if found then ((parts.map (shift d)).drop 1).dropLast else (parts.map (shift d)).drop 1) =
        (if found then (parts.drop 1).dropLast else parts.drop 1).map (shift d) := by
    intro found parts
    cases found <;> simp [List.map_dropLast]
  unfold asGroup
  dsimp only
  rw [htail, List.length_map]
  split
  · rw [Option.isSome_map, hinside, allLeaves_shift, reading_shift, asObject_shift]
    rfl
  · rw [hinside, allLeaves_shift, reading_shift, asObject_shift]
    rfl

end Part

/-! ## Markup -/

namespace Markup

theorem spanOf_shift (first last : Token) : spanOf (first.shift d) (last.shift d) = (spanOf first last).shift d := by
  simp [spanOf, Span.shift, Token.shift, Token.stop, Nat.add_right_comm]

theorem invalid_shift (reason : String) (t : Token) : invalid reason (t.shift d) = (invalid reason t).shift d := by
  simp [invalid, Kind.shift, Token.shift]

theorem slot_shift (g : Group) : slot (g.shift d) = (slot g).shift d := by
  unfold slot
  cases htail : g.tail with
  | none =>
    simp only [Group.shift, htail, Option.map_none]
    exact invalid_shift d _ _
  | some tail =>
    simp only [Group.shift, htail, Option.map_some, spanOf_shift, Node.shift_mk, Reading.shift, List.map_nil]
    cases g.reading.node <;> rfl

/-- What came of reading something `d` characters further on. -/
def shiftOutcome {α : Type} (f : α → α) : Except Node α → Except Node α
  | .error n => .error (n.shift d)
  | .ok a => .ok (f a)

theorem spread_shift (space : String) (g : Group) :
    spread space (g.shift d) = shiftOutcome d (Node.shift d) (spread space g) := by
  obtain ⟨head, inside, tail, ⟨lead, node, trail⟩, object⟩ := g
  unfold spread
  cases tail with
  | none =>
    simp only [Group.shift, Option.map_none, shiftOutcome]
    rw [← invalid_shift]
  | some tail =>
    have hwrite : ((node.map (Node.shift d)).map Node.write).getD "" = (node.map Node.write).getD "" := by
      simp [Function.comp_def, Node.write_shift]
    simp only [Group.shift, Reading.shift, Option.map_some, spanOf_shift, hwrite]
    split
    · cases node with
      | none => simp [shiftOutcome, Expression.script, Node.code, Kind.shift, Info.shift]
      | some n =>
        simp only [shiftOutcome, Option.map_some, Node.kind_shift, Kind.name_shift]
        split <;> simp [Expression.script, Node.code, Kind.shift, Info.shift]
    · rw [invalid_shift]
      rfl

/-- What was read of an opening tag `d` characters further on. -/
def Opening.shift (o : Opening) : Opening := { o with attributes := o.attributes.map (Node.shift d) }

theorem giveValue_shift (o : Opening) (value : Node) :
    (o.shift d).giveValue (value.shift d) = (o.giveValue value).shift d := by
  unfold Opening.giveValue Opening.shift
  cases o.attributes with
  | nil => rfl
  | cons a as => simp [Node.withChildren_shift]

theorem takesValue_shift (o : Opening) : (o.shift d).takesValue = o.takesValue := by
  unfold Opening.takesValue Opening.shift
  cases o.attributes with
  | nil => rfl
  | cons a as =>
    simp only [List.map_cons, Node.kind_shift, Node.children_shift, List.isEmpty_map]
    cases a.kind <;> rfl

theorem stringValue_shift (t : Token) : stringValue (t.shift d) = (stringValue t).shift d := by
  simp [stringValue, spanOf_shift, Kind.shift, Info.shift]

theorem readToken_shift (o : Opening) (t : Token) :
    readToken (o.shift d) (t.shift d) = shiftOutcome d (Opening.shift d) (readToken o t) := by
  have hspace : (o.shift d).space = o.space := rfl
  have hwaiting : (o.shift d).waiting = o.waiting := rfl
  unfold readToken
  simp only [Token.kind_shift, Token.text_shift, hspace, hwaiting, takesValue_shift, stringValue_shift, giveValue_shift,
    invalid_shift]
  split
  · rfl
  · rfl
  · split
    · rfl
    · simp [shiftOutcome, Opening.shift, Kind.shift, Info.shift, spanOf_shift]
  · split <;> rfl
  · split <;> rfl
  · split <;> rfl
  · split
    · split <;> rfl
    · rfl

theorem elementFrom_shift (angle name : Token) (o : Opening) (parts : List Part) :
    elementFrom (angle.shift d) (name.shift d) (o.shift d) (parts.map (Part.shift d)) =
      (elementFrom angle name o parts).shift d := by
  induction parts generalizing o with
  | nil => exact invalid_shift d _ _
  | cons p parts ih =>
    rcases p with (t | n) | g | ⟨nodes, close⟩
    · rw [List.map_cons, Part.shift, Leaf.shift, elementFrom, elementFrom, readToken_shift]
      cases readToken o t with
      | error n => rfl
      | ok o =>
        dsimp only [shiftOutcome]
        rw [Token.kind_shift, Token.text_shift]
        split
        · simp [spanOf_shift, Opening.shift, Kind.shift, Info.shift]
        · exact ih o
    · exact ih o
    · have hspace : (o.shift d).space = o.space := rfl
      have hwaiting : (o.shift d).waiting = o.waiting := rfl
      rw [List.map_cons, Part.shift, elementFrom, elementFrom, slot_shift, giveValue_shift, spread_shift, hspace, hwaiting]
      split
      · exact ih _
      · cases spread o.space g with
        | error n => rfl
        | ok attr => exact ih { o with attributes := attr :: o.attributes, space := "" }
    · cases close with
      | none => exact invalid_shift d _ _
      | some close =>
        simp only [List.map_cons, Part.shift, Option.map_some, elementFrom]
        rw [Token.text_shift, Token.text_shift]
        split
        · simp [spanOf_shift, Opening.shift, Kind.shift, Info.shift]
        · rw [invalid_shift]

theorem contentNode_shift (p : Part) : contentNode (p.shift d) = (contentNode p).map (Node.shift d) := by
  rcases p with (t | n) | g | ⟨nodes, close⟩
  · rw [Part.shift, Leaf.shift, contentNode, contentNode, Token.kind_shift]
    split
    · simp [spanOf_shift, Kind.shift, Info.shift]
    · simp [invalid_shift]
  · rfl
  · rw [Part.shift, contentNode, contentNode, slot_shift, List.map_singleton]
  · rfl

theorem closeTag?_shift (parts : List Part) :
    closeTag? (parts.map (Part.shift d)) = (closeTag? parts).map (Token.shift d) := by
  unfold closeTag?
  rw [List.getLast?_map]
  cases parts.getLast? with
  | none => rfl
  | some p =>
    rw [Option.map_some, Option.bind_some, Option.bind_some, Part.token?_shift, Option.filter_map]
    rfl

theorem content_shift (parts : List Part) : content (parts.map (Part.shift d)) =
    ((content parts).1.map (Node.shift d), (content parts).2.map (Token.shift d)) := by
  have hnodes : ∀ parts : List Part, (parts.map (Part.shift d)).flatMap contentNode =
      (parts.flatMap contentNode).map (Node.shift d) := by
    intro parts
    rw [List.flatMap_map, List.map_flatMap]
    congr 1
    funext p
    exact contentNode_shift d p
  unfold content
  rw [closeTag?_shift]
  cases closeTag? parts with
  | none => simp [hnodes]
  | some t => simp [← List.map_dropLast, hnodes]

theorem fragment_shift (t : Token) (parts : List Part) :
    fragment ((.leaf (.token t) :: parts).map (Part.shift d)) = (fragment (.leaf (.token t) :: parts)).shift d := by
  rw [List.map_cons, Part.shift, Leaf.shift, fragment, fragment, content_shift]
  rcases content parts with ⟨nodes, - | close⟩
  · exact invalid_shift d _ _
  · simp only [Option.map_some]
    rw [Token.text_shift]
    split
    · simp [spanOf_shift, Kind.shift, Info.shift]
    · rw [invalid_shift]

theorem allParts_eq_map (ps : List Piece) : allParts ps = ps.map part := by
  induction ps with
  | nil => rfl
  | cons p ps ih => rw [allParts, List.map_cons, ih]

/-- Well-formed pieces are read the same way anywhere. -/
theorem part_shift {p : Piece} (h : Piece.Formed p) : part (p.shift d) = (part p).shift d := by
  induction h with
  | token t => simp [part, Part.shift, Leaf.shift]
  | @stretch mode first items last opens ends accepted inner outer ihinner ihouter =>
    have hitems : allParts ((items ++ last).map (Piece.shift d)) = (allParts (items ++ last)).map (Part.shift d) := by
      rw [allParts_eq_map, allParts_eq_map, List.map_map, List.map_map]
      refine List.map_congr_left fun p hp => ?_
      rcases List.mem_append.mp hp with hp | hp
      · exact ihinner p hp
      · exact ihouter p hp
    have htoken : ∀ t : Token, allParts ((.token t :: (items ++ last)).map (Piece.shift d)) =
        (.leaf (.token t) :: allParts (items ++ last)).map (Part.shift d) := by
      intro t
      rw [List.map_cons, List.map_cons, allParts, hitems]
      simp [part, Part.shift, Leaf.shift]
    rw [List.append_assoc, Piece.shift_stretch, part, part]
    -- a stretch is read from the tokens that open it, which are moved on one by one, and the rest
    cases opens with
    | @tag angle name text isName =>
      rw [List.cons_append, List.singleton_append, List.map_cons, allParts, htoken]
      simp only [assemble, allParts, part, Piece.shift_token, List.map_cons, Part.shift, Leaf.shift, element]
      rw [← elementFrom_shift]
      rfl
    | content =>
      rw [List.nil_append, hitems, assemble, assemble, content_shift]
      rfl
    | fragment text =>
      rw [List.singleton_append, htoken, assemble, assemble, fragment_shift]
      rfl
    | braces =>
      rw [List.singleton_append, htoken, assemble, assemble, Part.asGroup_shift]
      rfl
    | group text =>
      rw [List.singleton_append, htoken, assemble, assemble, Part.asGroup_shift]
      rfl
    | template text =>
      rw [List.singleton_append, htoken, assemble, assemble, Part.asGroup_shift]
      rfl

theorem allParts_shift {ps : List Piece} (h : ∀ p ∈ ps, Piece.Formed p) :
    allParts (ps.map (Piece.shift d)) = (allParts ps).map (Part.shift d) := by
  rw [allParts_eq_map, allParts_eq_map, List.map_map, List.map_map]
  exact List.map_congr_left fun p hp => part_shift d (h p hp)

end Markup
end JsxEdit
