import JsxEdit.Proofs.Reading
import JsxEdit.Proofs.Run
import JsxEdit.Proofs.Whole

/-
Slots and attributes of written plain markup are read back.

The pieces that a run of the scanner brings are followed through the reading of slots and tags, and the nodes that come
out are compared with those that were written.
-/
set_option autoImplicit false

namespace JsxEdit

open Scan

namespace Node

/-- A node read back from the text of another: it is valid, and comparing the two finds no difference. -/
structure Returns (n t : Node) : Prop where
  valid : n.isValid = true
  same : n.equals t = verdict t.isReadable

/-- Nodes read back from the texts of others. -/
structure AllReturn (ns ts : List Node) : Prop where
  valid : allValid ns = true
  same : equalsAll ns ts = verdict (allReadable ts)

theorem AllReturn.nil : AllReturn [] [] := ⟨rfl, rfl⟩

theorem AllReturn.cons {n t : Node} {ns ts : List Node} (h : n.Returns t) (hs : AllReturn ns ts) :
    AllReturn (n :: ns) (t :: ts) :=
  ⟨by rw [allValid, h.valid, hs.valid]; rfl, equalsAll_cons h.same hs.same⟩

/-- A node comes back if its kind, its attributes and its children do. -/
theorem Returns.of_kind {k k' : Kind} {i i' : Info} {as as' cs cs' : List Node} (hvalid : k.isInvalid = false)
    (hforeign : k.isForeign = false) (hname : k.name = k'.name) (hbody : k.bodySame k' = verdict k'.isReadable)
    (has : AllReturn as as') (hcs : AllReturn cs cs') : (Node.mk k i as cs).Returns (.mk k' i' as' cs') := by
  refine ⟨?_, equals_mk hforeign hname hbody has.same hcs.same⟩
  rw [isValid, hvalid, has.valid, hcs.valid]
  rfl

end Node

namespace Markup

theorem allParts_append (ps qs : List Piece) : allParts (ps ++ qs) = allParts ps ++ allParts qs := by
  induction ps with
  | nil => rfl
  | cons p ps ih => rw [List.cons_append, allParts, allParts, ih, List.cons_append]

/-! ## Slots -/

/-- The pieces are tokens that make up the text, and no object literal. -/
def IsExpression (w : List Char) (ps : List Piece) : Prop :=
  Leaf.tokenText? (Part.allLeaves (allParts ps)) = some (.ofList w) ∧ Part.object? (allParts ps) = none

/-- The pieces are such an expression and a closing brace. -/
def IsBracesEnd (w : List Char) (ps : List Piece) : Prop :=
  ∃ (qs : List Piece) (t : Token), ps = qs ++ [.token t] ∧ IsExpression w qs ∧ t.text = "\x7d"

theorem isExpression_token {w : List Char} {t : Token} (h : t.text = .ofList w) : IsExpression w [.token t] := by
  have hall : Leaf.AllTokens [.token t] := by simp [Leaf.AllTokens]
  refine ⟨?_, ?_⟩
  · have htext := Leaf.tokenText?_of_allTokens hall
    simpa [Part.allLeaves, allParts, part, Part.leaves, Leaf.allWritten, Leaf.written, h] using htext
  · unfold Part.object?
    split
    · next g hfilter =>
      rw [allParts, allParts, part, List.filter_cons, List.filter_nil] at hfilter
      split at hfilter <;> cases hfilter
    · rfl

/-- Tokens in braces are the expression that their text is. -/
theorem part_braces {w : List Char} {ps : List Piece} (o : Token) (h : IsBracesEnd w ps)
    (hblank : Text.isBlank (.ofList w) = false) : ∃ inside object t, part (.stretch .braces (.token o :: ps)) =
      .group ⟨o, inside, some t, ⟨Text.lead (.ofList w), some (Expression.ofText (.ofList w)), Text.trail (.ofList w)⟩,
        object⟩ := by
  obtain ⟨qs, t, rfl, ⟨htext, hobject⟩, hclose⟩ := h
  have hreading : Part.reading (allParts qs) =
      ⟨Text.lead (.ofList w), some (Expression.ofText (.ofList w)), Text.trail (.ofList w)⟩ := by
    simp [Part.reading, htext, hobject, hblank]
  have hlast : ((Part.leaf (.token o) :: (allParts qs ++ [Part.leaf (.token t)])).getLast?.bind Part.token?) = some t := by
    rw [← List.cons_append, List.getLast?_concat]
    rfl
  refine ⟨Part.allLeaves (allParts qs), Part.asObject (allParts qs), t, ?_⟩
  simp only [part, allParts, allParts_append, assemble, Part.asGroup, hlast]
  simp [Part.token?, Leaf.token?, hclose, hreading]

/-- White space around an expression with a form of its own goes to the slot. -/
theorem slot_braces {b core e : List Char} {k : Kind} (hb : b.all Text.isSpace = true) (he : e.all Text.isSpace = true)
    (hcore : Text.Solid core) (hk : Expression.kind? (.ofList core) = some k) {ps : List Piece} (o : Token)
    (h : IsBracesEnd (b ++ core ++ e) ps) :
    ∃ g info, part (.stretch .braces (.token o :: ps)) = .group g ∧
      slot g = .mk (.slot (.ofList b) (.ofList e)) info [] [.new k []] := by
  have hblank : Text.isBlank (.ofList (b ++ core ++ e)) = false := by
    obtain ⟨c, rest, rfl, hc⟩ := hcore.starts
    simp [Text.isBlank, hc]
  have hexpression : Expression.ofText (.ofList (b ++ core ++ e)) = .new k [] := by
    rw [Expression.ofText_eq, Text.trim_of_solid hb he hcore, Expression.plain, hk]
  obtain ⟨inside, object, t, hpart⟩ := part_braces o h hblank
  rw [hexpression, Text.lead_of_solid hb hcore, Text.trail_of_solid he hcore] at hpart
  refine ⟨_, ⟨some (spanOf o o), some (spanOf t t), none⟩, hpart, ?_⟩
  simp only [slot, Option.toList]

/-- The pieces are one slot that holds a node of the kind. -/
def IsSlot (lead trail : String) (k : Kind) (ps : List Piece) : Prop :=
  ∃ p g info, ps = [p] ∧ part p = .group g ∧ slot g = .mk (.slot lead trail) info [] [.new k []]

theorem reads_slot {here : List Mode → Nat → Prop} {b core e : List Char} {k : Kind}
    (hhere : ∀ stack pos, here stack pos → Between stack pos ∨ Inside .tag stack pos) (hb : b.all Text.isSpace = true)
    (he : e.all Text.isSpace = true) (hcore : Text.Solid core) (hk : Expression.kind? (.ofList core) = some k)
    (hend : Leaves .braces (b ++ core ++ e ++ ['\x7d']) (IsBracesEnd (b ++ core ++ e))) :
    Reads here ('\x7b' :: (b ++ core ++ e ++ ['\x7d'])) (fun _ => True) (IsSlot (.ofList b) (.ofList e) k) := by
  have hno : ¬ IsDelimiter ['\x7b'] [] := by
    rintro ⟨t, heq, -⟩
    cases heq
  refine ((enters_braces hhere).stretch hend (fun _ => trivial) hno).imp ?_
  rintro ps ⟨os, es, rfl, ⟨o, rfl, -, -⟩, hes⟩
  obtain ⟨g, info, hpart, hslot⟩ := slot_braces hb he hcore hk o hes
  exact ⟨_, g, info, rfl, hpart, hslot⟩

/-- An expression without white space around it, up to the end of the braces. -/
theorem leaves_expression {w : List Char} (h : Reads (Inside .braces) w (fun _ => True) (IsExpression w)) :
    Leaves .braces (w ++ ['\x7d']) (IsBracesEnd w) := by
  refine (leaves_braces.after h fun _ => trivial).imp ?_
  rintro ps ⟨qs, _, rfl, hqs, t, rfl, -, ht⟩
  exact ⟨qs, t, rfl, hqs, ht⟩

end Markup

theorem Text.Solid.of_noSpace {cs : List Char} (hne : cs ≠ []) (h : ∀ c ∈ cs, isSpace c = false) : Solid cs := by
  refine ⟨?_, ?_⟩
  · obtain ⟨c, rest, rfl⟩ := List.exists_cons_of_ne_nil hne
    exact ⟨c, rest, rfl, h c List.mem_cons_self⟩
  · obtain ⟨rest, d, rfl⟩ : ∃ rest d, cs = rest ++ [d] := ⟨_, _, (List.dropLast_concat_getLast hne).symm⟩
    exact ⟨d, rest, rfl, h d (by simp)⟩

/-- White space has no rule of its own in braces. -/
theorem Scan.isQuiet_of_isSpace {c : Char} (h : Text.isSpace c = true) : isQuiet c = true := by
  have hne (d : Char) (hd : Text.isSpace d = false) : c ≠ d := ne_of_isSpace h hd
  simp [isQuiet, isLeadChar, hne '(' (by decide), hne '[' (by decide), hne ',' (by decide), hne ';' (by decide),
    hne ':' (by decide), hne '?' (by decide), hne '=' (by decide), hne '&' (by decide), hne '|' (by decide),
    hne '!' (by decide), hne '\x7d' (by decide), hne '\x7b' (by decide), hne 'r' (by decide), hne 'y' (by decide),
    hne '"' (by decide), hne '\'' (by decide), hne '`' (by decide), hne '/' (by decide)]

/-! ## Attributes -/

namespace Markup

/-- A whole number in braces, with white space around it, is read as a slot. -/
theorem reads_number (n : Int) {lead trail : String} (hlead : Text.isBlank lead = true) (htrail : Text.isBlank trail = true) :
    Reads (Inside .tag) ('\x7b' :: (lead.toList ++ (intText n).toList ++ trail.toList ++ ['\x7d'])) (fun _ => True)
      (IsSlot lead trail (.number (intText n))) := by
  have hsolid : Text.Solid (intText n).toList :=
    .of_noSpace (Number.intText_ne_nil n) fun c hc => (Number.inNumeral_of_mem hc).solid
  have hkind : Expression.kind? (.ofList (intText n).toList) = some (.number (intText n)) := by
    rw [String.ofList_toList]
    exact Expression.kind?_intText n
  have hquiet : ∀ c ∈ lead.toList ++ (intText n).toList ++ trail.toList, isQuiet c = true := by
    intro c hc
    simp only [List.mem_append] at hc
    rcases hc with (hc | hc) | hc
    · exact isQuiet_of_isSpace (List.all_eq_true.mp hlead c hc)
    · exact (Number.inNumeral_of_mem hc).quiet
    · exact isQuiet_of_isSpace (List.all_eq_true.mp htrail c hc)
  have hend : Leaves .braces _ (IsBracesEnd (lead.toList ++ (intText n).toList ++ trail.toList)) :=
    (leaves_quiet (by simp [Number.intText_ne_nil n]) hquiet).imp fun ps ⟨t, t', hps, ht, ht'⟩ =>
      ⟨[.token t], t', hps, isExpression_token ht, ht'⟩
  have hslot := reads_slot (fun _ _ h => .inr h) hlead htrail hsolid hkind hend
  rwa [String.ofList_toList, String.ofList_toList] at hslot

/-- The piece gives an attribute a value that has the property. -/
def GivesValue (P : Node → Prop) (ps : List Piece) : Prop :=
  ∃ p v, ps = [p] ∧ P v ∧ ∀ angle name o more, o.waiting = true →
    elementFrom angle name o (part p :: more) = elementFrom angle name (o.giveValue v) more

/-- The piece is read as the value of an attribute. -/
def IsValue (v : Node) : List Piece → Prop := GivesValue (·.Returns v)

/-- Attribute strings agree with themselves as far as they can be read. -/
theorem returns_string (raw quote : String) (i i' : Info) :
    (Node.mk (.attributeString raw quote) i [] []).Returns (.mk (.attributeString raw quote) i' [] []) := by
  refine .of_kind rfl rfl rfl ?_ .nil .nil
  simp only [Kind.bodySame, Kind.sameValue, Kind.literalValue, Kind.isLiteral, Kind.isReadable, Literal.references]
  cases Text.decodeReferences? raw with
  | none => rfl
  | some s => simp [Except.map, bind, Except.bind, pure, Except.pure, Datum.same, Node.verdict]

/-- Slots agree if what they hold does. -/
theorem returns_slot {lead trail : String} {i i' : Info} {v v' : Node} (h : v.Returns v') :
    (Node.mk (.slot lead trail) i [] [v]).Returns (.mk (.slot lead trail) i' [] [v']) :=
  .of_kind rfl rfl rfl rfl .nil (.cons h .nil)

theorem returns_number (n : Int) (i i' : Info) :
    (Node.mk (.number (intText n)) i [] []).Returns (.mk (.number (intText n)) i' [] []) :=
  .of_kind rfl rfl rfl (Number.sameValue_intText n) .nil .nil

theorem reads_quoted {raw : String} {q : Char} (quote : Text.IsQuote q) (body : q ∉ raw.toList) :
    Reads (Inside .tag) (q :: (raw.toList ++ [q])) (fun _ => True)
      (GivesValue fun v => ∃ i, v = .mk (.attributeString raw (.ofList [q])) i [] []) := by
  have hread : Reads (Inside .tag) (q :: (raw.toList ++ [q])) (fun _ => True) fun ps =>
      ∃ t : Token, ps = [.token t] ∧ t.kind = quotedKind q ∧ t.text = .ofList (q :: (raw.toList ++ [q])) := by
    refine .token (by simp) (fun stack pos h => ?_) fun stack pos before rest h _ => ?_
    · rw [show current stack = .tag from h]
      decide
    · rw [show current stack = .tag from h]
      have hm := @tag?_string q raw.toList rest quote body
      simpa [match?] using hm
  refine hread.imp ?_
  rintro ps ⟨t, rfl, hkind, htext⟩
  have hvalue : stringValue t = .mk (.attributeString raw (.ofList [q])) { head := some (spanOf t t) } [] [] := by
    simp [stringValue, htext, Text.inner, Text.first]
  refine ⟨_, stringValue t, rfl, ⟨_, hvalue⟩, fun angle name o more hwaiting => ?_⟩
  have htoken : readToken o t = .ok (o.giveValue (stringValue t)) := by
    unfold readToken
    rw [hkind]
    rcases quote with rfl | rfl <;> simp [quotedKind, hwaiting]
  have hdelimiter : (t.kind == .delimiter) = false := by
    rw [hkind]
    rcases quote with rfl | rfl <;> rfl
  simp [part, elementFrom, htoken, hdelimiter]

theorem reads_value {v : Node} (h : PlainValue v) :
    Reads (Inside .tag) v.write.toList (fun _ => True) (IsValue v) := by
  cases h with
  | @string raw q info quote body =>
    have hwrite : (Node.mk (.attributeString raw (.ofList [q])) info [] []).write.toList = q :: (raw.toList ++ [q]) := by
      simp [Node.write, Node.writeAll, Kind.opening, Kind.closing]
    rw [hwrite]
    refine (reads_quoted quote body).imp ?_
    rintro ps ⟨p, v, rfl, ⟨i, rfl⟩, hgive⟩
    exact ⟨p, _, rfl, returns_string _ _ _ _, hgive⟩
  | @number lead trail n info inner before after =>
    have hwrite : (Node.mk (.slot lead trail) info [] [.mk (.number (intText n)) inner [] []]).write.toList =
        '\x7b' :: (lead.toList ++ (intText n).toList ++ trail.toList ++ ['\x7d']) := by
      simp [Node.write, Node.writeAll, Kind.opening, Kind.closing]
    rw [hwrite]
    refine (reads_number n before after).imp ?_
    rintro ps ⟨p, g, i, rfl, hpart, hslot⟩
    refine ⟨p, slot g, rfl, ?_, fun angle name o more hwaiting => ?_⟩
    · rw [hslot]
      exact returns_slot (returns_number n _ _)
    · rw [hpart, elementFrom, if_pos hwaiting]

/-! ### What the tokens of a tag do -/

theorem elementFrom_space {t : Token} (h : t.kind = .space) (angle name : Token) (o : Opening) (more : List Part) :
    elementFrom angle name o (.leaf (.token t) :: more) =
      elementFrom angle name { o with space := o.space ++ t.text } more := by
  simp [elementFrom, readToken, h]

theorem elementFrom_name {t : Token} (h : t.kind = .attrName) (angle name : Token) (as : List Node) (space : String)
    (more : List Part) :
    elementFrom angle name ⟨as, space, false⟩ (.leaf (.token t) :: more) =
      elementFrom angle name ⟨.mk (.attr t.text space) { head := some (spanOf t t) } [] [] :: as, "", false⟩ more := by
  simp [elementFrom, readToken, h]

theorem elementFrom_equals {t : Token} (h : t.kind = .equals) (angle name : Token) (s space : String) (i : Info)
    (as : List Node) (more : List Part) :
    elementFrom angle name ⟨.mk (.attr s space) i [] [] :: as, "", false⟩ (.leaf (.token t) :: more) =
      elementFrom angle name ⟨.mk (.attr s space) i [] [] :: as, "", true⟩ more := by
  simp [elementFrom, readToken, h, Opening.takesValue]

/-! ### Whole attributes -/

theorem reads_tagToken {kind : TokenKind} {w : List Char} {next : List Char → Prop} (hne : w ≠ [])
    (hm : ∀ rest, next rest → tag? (w ++ rest) = one kind w.length .stay) :
    Reads (Inside .tag) w next fun ps => ∃ t : Token, ps = [.token t] ∧ t.kind = kind ∧ t.text = .ofList w := by
  refine .token hne (fun stack pos h => ?_) fun stack pos before rest h hn => ?_
  · rw [show current stack = .tag from h]
    decide
  · rw [show current stack = .tag from h]
    exact hm rest hn

/-- What comes next is no white space. -/
def SpaceEnds (rest : List Char) : Prop := ∃ c cs, rest = c :: cs ∧ Text.isSpace c = false

theorem reads_space {space : String} (hblank : Text.isBlank space = true) (hne : space ≠ "") :
    Reads (Inside .tag) space.toList SpaceEnds fun ps => ∃ t : Token, ps = [.token t] ∧ t.kind = .space ∧ t.text = space := by
  have hw : space.toList ≠ [] := by simpa using hne
  refine (reads_tagToken hw fun rest ⟨c, cs, hrest, hc⟩ => ?_).imp fun ps ⟨t, hps, hkind, htext⟩ =>
    ⟨t, hps, hkind, by rw [htext, String.ofList_toList]⟩
  rw [hrest]
  exact tag?_space hw hblank hc

theorem reads_name {name : String} (h : Text.IsFullName .attr name) :
    Reads (Inside .tag) name.toList NameEnds fun ps => ∃ t : Token, ps = [.token t] ∧ t.kind = .attrName ∧ t.text = name := by
  obtain ⟨d, w, hname, -⟩ := h.starts
  have hw : name.toList ≠ [] := by simp [hname]
  refine (reads_tagToken hw fun rest ⟨c, cs, hrest, hc⟩ => ?_).imp fun ps ⟨t, hps, hkind, htext⟩ =>
    ⟨t, hps, hkind, by rw [htext, String.ofList_toList]⟩
  rw [hrest]
  exact tag?_name h hc

theorem reads_equals : Reads (Inside .tag) ['='] (fun _ => True) fun ps => ∃ t : Token,
    ps = [.token t] ∧ t.kind = .equals ∧ t.text = "=" :=
  reads_tagToken (by simp) fun rest _ => tag?_equals rest

/-- The pieces give a tag an attribute that has the property. -/
def GivesAttribute (P : Node → Prop) (ps : List Piece) : Prop :=
  ∃ a, P a ∧ ∀ angle name as more, elementFrom angle name ⟨as, "", false⟩ (allParts ps ++ more) =
    elementFrom angle name ⟨a :: as, "", false⟩ more

/-- The pieces are read as an attribute. -/
def IsAttribute (a : Node) : List Piece → Prop := GivesAttribute (·.Returns a)

theorem returns_attr {name space : String} {i i' : Info} {cs cs' : List Node} (h : Node.AllReturn cs cs') :
    (Node.mk (.attr name space) i [] cs).Returns (.mk (.attr name space) i' [] cs') := by
  refine .of_kind rfl rfl rfl ?_ .nil h
  simp [Kind.bodySame, Kind.sameHead, Kind.isForeign, Kind.head, Datum.same, Kind.isReadable, Node.verdict]

theorem starts_name {name : String} (h : Text.IsFullName .attr name) (rest : List Char) : SpaceEnds (name.toList ++ rest) := by
  obtain ⟨c, w, hname, -, hspace⟩ := h.starts
  exact ⟨c, w ++ rest, by rw [hname]; rfl, hspace c List.mem_cons_self⟩

/-- An attribute with a value is read, if the value is. -/
theorem reads_valued {name space : String} {w : List Char} {P : Node → Prop} (isName : Text.IsFullName .attr name)
    (blank : Text.isBlank space = true) (spaced : space ≠ "")
    (h : Reads (Inside .tag) w (fun _ => True) (GivesValue P)) :
    Reads (Inside .tag) (space.toList ++ (name.toList ++ (['='] ++ w))) (fun _ => True)
      (GivesAttribute fun a => ∃ i v, P v ∧ a = .mk (.attr name space) i [] [v]) := by
  have hvalue := Reads.append (fun _ _ _ h => h) reads_equals h fun _ _ => trivial
  have hnamed := Reads.append (fun _ _ _ h => h) (reads_name isName) hvalue
    fun _ _ => ⟨'=', _, rfl, by decide, by decide, by decide, by decide⟩
  have hspaced := Reads.append (fun _ _ _ h => h) (reads_space blank spaced) hnamed fun rest _ => by
    rw [List.append_assoc]
    exact starts_name isName _
  refine hspaced.imp ?_
  rintro ps ⟨_, _, rfl, ⟨t, rfl, htkind, rfl⟩, _, _, rfl, ⟨t', rfl, ht'kind, rfl⟩, _, _, rfl, ⟨e, rfl, hekind, -⟩,
    p, v, rfl, hv, hgive⟩
  refine ⟨.mk (.attr t'.text t.text) { head := some (spanOf t' t') } [] [v], ⟨_, v, hv, rfl⟩, ?_⟩
  intro angle name as more
  simp only [allParts, part, List.cons_append, List.nil_append, elementFrom_space htkind, elementFrom_name ht'kind,
    elementFrom_equals hekind, String.empty_append, hgive]
  rfl

theorem reads_attribute {a : Node} (h : PlainAttribute a) :
    Reads (Inside .tag) a.write.toList TagNext (IsAttribute a) := by
  cases h with
  | @attr name space info value isName blank spaced plain =>
    cases value with
    | none =>
      have hwrite : (Node.mk (.attr name space) info [] (none : Option Node).toList).write.toList =
          space.toList ++ name.toList := by
        simp [Node.write, Node.writeAll, Kind.opening, Kind.closing]
      rw [hwrite]
      refine (Reads.append (fun _ _ _ h => h) (reads_space blank spaced)
        ((reads_name isName).weaken (fun _ _ => id) (fun _ => TagNext.endsName) fun _ => id)
        fun rest _ => starts_name isName rest).imp ?_
      rintro ps ⟨_, _, rfl, ⟨t, rfl, htkind, rfl⟩, t', rfl, ht'kind, rfl⟩
      refine ⟨.mk (.attr t'.text t.text) { head := some (spanOf t' t') } [] [], returns_attr .nil, ?_⟩
      intro angle name as more
      simp only [allParts, part, List.cons_append, List.nil_append, elementFrom_space htkind, elementFrom_name ht'kind,
        String.empty_append]
    | some v =>
      have hwrite : (Node.mk (.attr name space) info [] (some v).toList).write.toList =
          space.toList ++ (name.toList ++ (['='] ++ v.write.toList)) := by
        simp [Node.write, Node.writeAll, Kind.opening, Kind.closing]
      rw [hwrite]
      refine (reads_valued isName blank spaced (reads_value (plain v rfl))).weaken (fun _ _ => id) (fun _ _ => trivial) ?_
      rintro ps ⟨_, ⟨i, v', hv, rfl⟩, hgive⟩
      exact ⟨_, returns_attr (.cons hv .nil), hgive⟩

/-- The pieces give a tag attributes that have the property, one after the other. -/
def GivesAttributes (P : List Node → Prop) (ps : List Piece) : Prop :=
  ∃ as, P as ∧ ∀ angle name acc more, elementFrom angle name ⟨acc, "", false⟩ (allParts ps ++ more) =
    elementFrom angle name ⟨as.reverse ++ acc, "", false⟩ more

/-- The pieces are read as attributes, one after the other. -/
def IsAttributes (as : List Node) : List Piece → Prop := GivesAttributes (Node.AllReturn · as)

/-- The text of an attribute starts with white space. -/
theorem starts_attribute {a : Node} (h : PlainAttribute a) : ∃ c cs, a.write.toList = c :: cs ∧ Text.isSpace c = true := by
  cases h with
  | @attr name space info value isName blank spaced plain =>
    obtain ⟨c, cs, hspace⟩ := List.exists_cons_of_ne_nil (show space.toList ≠ [] by simpa using spaced)
    have hc : Text.isSpace c = true := List.all_eq_true.mp blank c (by simp [hspace])
    simp only [Node.write, Kind.opening, String.toList_append, hspace, List.cons_append, List.append_assoc]
    exact ⟨c, _, rfl, hc⟩

theorem tagNext_attributes {as : List Node} (h : ∀ a ∈ as, PlainAttribute a) {rest : List Char} (hrest : TagNext rest) :
    TagNext ((Node.writeAll as).toList ++ rest) := by
  cases as with
  | nil => exact hrest
  | cons a as =>
    obtain ⟨c, cs, hwrite, hc⟩ := starts_attribute (h a List.mem_cons_self)
    simp only [Node.writeAll, String.toList_append, hwrite, List.cons_append, List.append_assoc]
    exact ⟨c, _, rfl, .inl hc⟩

theorem reads_attributes {as : List Node} (h : ∀ a ∈ as, PlainAttribute a) :
    Reads (Inside .tag) (Node.writeAll as).toList TagNext (IsAttributes as) := by
  induction as with
  | nil =>
    refine Reads.nil.imp ?_
    rintro ps rfl
    exact ⟨[], .nil, fun _ _ _ _ => rfl⟩
  | cons a as ih =>
    rw [List.forall_mem_cons] at h
    rw [Node.writeAll, String.toList_append]
    refine (Reads.append (fun _ _ _ h => h) (reads_attribute h.1) (ih h.2) fun rest => tagNext_attributes h.2).imp ?_
    rintro ps ⟨qs, rs, rfl, ⟨a', ha, hqs⟩, as', has, hrs⟩
    refine ⟨a' :: as', .cons ha has, fun angle name acc more => ?_⟩
    rw [allParts_append, List.append_assoc, hqs, hrs, List.reverse_cons, List.append_assoc]
    rfl

end Markup
end JsxEdit
