import JsxEdit.Proofs.ReadTag

/-
Written plain markup is read back: content, elements, fragments and whole documents.

Adjacent texts are written as one and empty ones as nothing, so what comes back is compared with the tree in which they
are joined.
-/
set_option autoImplicit false

namespace JsxEdit

open Scan

/-! ## Joined texts -/

namespace Node

theorem prependText_empty (ns : List Node) : prependText "" ns = ns := rfl

/-- Before anything but a text, a text that is not empty is a node of its own. -/
theorem prependText_of_ne {s : String} (hs : s ≠ "") {ns : List Node} (hns : ∀ n ∈ ns.head?, n.kind.isText = false) :
    prependText s ns = .text s :: ns := by
  unfold prependText
  rw [if_neg (by simpa using hs)]
  split
  · next s' i as cs ms => cases hns (.mk (.text s') i as cs) rfl
  · rfl

theorem prependText_text {s : String} (hs : s ≠ "") (s' : String) (i : Info) (as cs ns : List Node) :
    prependText s (.mk (.text s') i as cs :: ns) = .mk (.text (s ++ s')) i as cs :: ns := by
  rw [prependText, if_neg (by simpa using hs)]

theorem exists_text {n : Node} (h : n.kind.isText = true) : ∃ s i as cs, n = .mk (.text s) i as cs := by
  obtain ⟨k, i, as, cs⟩ := n
  cases k with
  | text s => exact ⟨s, i, as, cs, rfl⟩
  | _ => cases h

theorem prependText_append (s s' : String) (ns : List Node) :
    prependText s (prependText s' ns) = prependText (s ++ s') ns := by
  by_cases hs : s = ""
  · rw [hs, prependText_empty, String.empty_append]
  by_cases hs' : s' = ""
  · rw [hs', prependText_empty, String.append_empty]
  have hboth : s ++ s' ≠ "" := by simp [hs]
  by_cases hns : ∀ n ∈ ns.head?, n.kind.isText = false
  · rw [prependText_of_ne hs' hns, prependText_of_ne hboth hns]
    exact prependText_text hs s' {} [] [] ns
  · cases ns with
    | nil => exact absurd (fun n hn => nomatch hn) hns
    | cons n ns =>
      have hn : n.kind.isText = true := by simpa using hns
      obtain ⟨t, i, as, cs, rfl⟩ := exists_text hn
      rw [prependText_text hs', prependText_text hs, prependText_text hboth, String.append_assoc]

theorem joinAll_cons_of_ne {c : Node} (h : c.kind.isText = false) (cs : List Node) :
    joinAll (c :: cs) = c.joined :: joinAll cs := by
  obtain ⟨k, i, as, bs⟩ := c
  cases k with
  | text s => cases h
  | _ => rfl

theorem kind_joined (n : Node) : n.joined.kind = n.kind := by
  cases n
  rfl

end Node

namespace Markup

/-! ## Content -/

/-- The pieces are read as a text, if it is not empty. -/
def IsText (s : String) (ps : List Piece) : Prop :=
  (s = "" ∧ ps = []) ∨ (s ≠ "" ∧ ∃ t : Token, ps = [.token t] ∧ t.kind = .text ∧ t.text = s)

/-- The pieces are read as one child. -/
def IsChild (c : Node) (ps : List Piece) : Prop :=
  ∃ p n, ps = [p] ∧ contentNode (part p) = [n] ∧ n.Returns c.joined

/-- The pieces are read as markup. -/
def IsMarkup (t : Node) (ps : List Piece) : Prop :=
  ∃ p n, ps = [p] ∧ part p = .leaf (.node n) ∧ n.Returns t.joined

/-- The pieces are read as the children after a text. -/
def IsContent (s : String) (cs : List Node) (ps : List Piece) : Prop :=
  Node.AllReturn ((allParts ps).flatMap contentNode) (Node.prependText s (Node.joinAll cs))

theorem reads_text {s : String} (hangle : '<' ∉ s.toList) (hbrace : '\x7b' ∉ s.toList) :
    Reads Between s.toList Stops (IsText s) := by
  by_cases hs : s = ""
  · subst hs
    exact Reads.nil.imp fun ps hps => .inl ⟨rfl, hps⟩
  · have hw : s.toList ≠ [] := by simpa using hs
    have hm (stack : List Mode) (pos : Nat) (before : Option Char) (rest : List Char) (h : Between stack pos)
        (hrest : Stops rest) :
        match? (current stack) (pos == 0) before (s.toList ++ rest) = one .text s.toList.length .stay := by
      rcases h with h | h
      · rw [h]
        exact content?_text hw hangle hbrace hrest
      · rw [h]
        exact content?_text hw hangle hbrace hrest
    refine (Reads.token hw (fun stack pos h => h.atMarkup.ne_markup) hm).imp ?_
    rintro ps ⟨t, rfl, hkind, htext⟩
    exact .inr ⟨hs, t, rfl, hkind, by rw [htext, String.ofList_toList]⟩

theorem returns_text (s : String) (i i' : Info) : (Node.mk (.text s) i [] []).Returns (.mk (.text s) i' [] []) := by
  refine .of_kind rfl rfl rfl ?_ .nil .nil
  simp [Kind.bodySame, Kind.sameHead, Kind.isForeign, Kind.head, Datum.same, Kind.isReadable, Node.verdict]

/-- A text stands before what comes after it, unless that is a text too. -/
theorem IsText.before {s : String} {ps : List Piece} (h : IsText s ps) {ns ms : List Node} (hns : Node.AllReturn ns ms)
    (hms : ∀ m ∈ ms.head?, m.kind.isText = false) :
    Node.AllReturn ((allParts ps).flatMap contentNode ++ ns) (Node.prependText s ms) := by
  rcases h with ⟨rfl, rfl⟩ | ⟨hs, t, rfl, hkind, rfl⟩
  · exact hns
  · have hnode : contentNode (part (.token t)) = [.mk (.text t.text) { head := some (spanOf t t) } [] []] := by
      simp [part, contentNode, hkind]
    rw [Node.prependText_of_ne hs hms, allParts, allParts, List.flatMap_cons, hnode]
    exact .cons (returns_text _ _ _) hns

/-- A string of the script is an expression in braces. -/
theorem reads_scriptString {raw : String} {q : Char} (hq : Text.IsQuote q) (hraw : Literal.IsBody q raw) :
    Reads (Inside .braces) (q :: (raw.toList ++ [q])) (fun _ => True) (IsExpression (q :: (raw.toList ++ [q]))) := by
  have hread : Reads (Inside .braces) (q :: (raw.toList ++ [q])) (fun _ => True) fun ps =>
      ∃ t : Token, ps = [.token t] ∧ t.kind = quotedKind q ∧ t.text = .ofList (q :: (raw.toList ++ [q])) := by
    refine .token (by simp) (fun stack pos h => ?_) fun stack pos before rest h _ => ?_
    · rw [show current stack = .braces from h]
      decide
    · rw [show current stack = .braces from h]
      have hm := expression?_string hq hraw before rest
      simpa [match?] using hm
  refine hread.imp ?_
  rintro ps ⟨t, rfl, -, ht⟩
  exact isExpression_token ht

/-- A string of the script in braces is read as a child. -/
theorem reads_string {raw : String} {q : Char} {info inner : Info} (hq : Text.IsQuote q) (hraw : Literal.IsBody q raw) :
    Reads Between (Node.mk (.slot "" "") info [] [.mk (.string raw (.ofList [q])) inner [] []]).write.toList
      (fun _ => True) (IsChild (.mk (.slot "" "") info [] [.mk (.string raw (.ofList [q])) inner [] []])) := by
  have hwrite : (Node.mk (.slot "" "") info [] [.mk (.string raw (.ofList [q])) inner [] []]).write.toList =
      '\x7b' :: ([] ++ (q :: (raw.toList ++ [q])) ++ [] ++ ['\x7d']) := by
    simp [Node.write, Node.writeAll, Kind.opening, Kind.closing]
  have hspace : Text.isSpace q = false := by rcases hq with rfl | rfl <;> decide
  have hsolid : Text.Solid (q :: (raw.toList ++ [q])) :=
    ⟨⟨q, _, rfl, hspace⟩, q, q :: raw.toList, rfl, hspace⟩
  have hend : Leaves .braces ([] ++ (q :: (raw.toList ++ [q])) ++ [] ++ ['\x7d'])
      (IsBracesEnd ([] ++ (q :: (raw.toList ++ [q])) ++ [])) := by
    rw [List.nil_append, List.append_nil]
    exact leaves_expression (reads_scriptString hq hraw)
  rw [hwrite]
  refine (reads_slot (fun _ _ h => .inl h) rfl rfl hsolid (Expression.kind?_string hq hraw) hend).imp ?_
  rintro ps ⟨p, g, i, rfl, hpart, hslot⟩
  refine ⟨p, slot g, rfl, by rw [hpart, contentNode], ?_⟩
  rw [hslot]
  refine returns_slot (.of_kind rfl rfl rfl ?_ .nil .nil)
  simp [Kind.bodySame, Kind.sameValue, Kind.literalValue, Kind.isLiteral, Kind.isReadable, Datum.same, Node.verdict, bind,
    Except.bind, pure, Except.pure]

theorem IsMarkup.isChild {t : Node} {ps : List Piece} (h : IsMarkup t ps) : IsChild t ps := by
  obtain ⟨p, n, rfl, hpart, hn⟩ := h
  exact ⟨p, n, rfl, by rw [hpart, contentNode], hn⟩

/-- What is no text starts with an angle or a brace. -/
theorem starts_child {c : Node} (h : Plain c) (htext : c.kind.isText = false) (rest : List Char) :
    Stops (c.write.toList ++ rest) := by
  cases h with
  | element =>
    simp only [Node.write, Kind.opening, String.toList_append, List.append_assoc]
    exact ⟨'<', _, rfl, .inl rfl⟩
  | fragment =>
    simp only [Node.write, Kind.opening, String.toList_append, List.append_assoc]
    exact ⟨'<', _, rfl, .inl rfl⟩
  | text => cases htext
  | string =>
    simp only [Node.write, Kind.opening, String.toList_append, List.append_assoc]
    exact ⟨'\x7b', _, rfl, .inr rfl⟩

theorem reads_child {c : Node} (h : Plain c) (htext : c.kind.isText = false)
    (hmarkup : c.kind.isMarkup = true → Reads AtMarkup c.write.toList (fun _ => True) (IsMarkup c)) :
    Reads Between c.write.toList (fun _ => True) (IsChild c) := by
  cases h with
  | element => exact (hmarkup rfl).weaken (fun _ _ => Between.atMarkup) (fun _ => id) fun _ => IsMarkup.isChild
  | fragment => exact (hmarkup rfl).weaken (fun _ _ => Between.atMarkup) (fun _ => id) fun _ => IsMarkup.isChild
  | text => cases htext
  | string quote body => exact reads_string quote body

/-- The children of an element or a fragment are read back, if the markup among them is. The induction carries a text `s`
that was written before them and may go on with theirs. -/
theorem reads_content {cs : List Node} (h : ∀ c ∈ cs, Plain c)
    (hmarkup : ∀ c ∈ cs, c.kind.isMarkup = true → Reads AtMarkup c.write.toList (fun _ => True) (IsMarkup c)) {s : String}
    (hangle : '<' ∉ s.toList) (hbrace : '\x7b' ∉ s.toList) :
    Reads Between (s.toList ++ (Node.writeAll cs).toList) Stops (IsContent s cs) := by
  induction cs generalizing s with
  | nil =>
    rw [Node.writeAll, String.toList_empty, List.append_nil]
    refine (reads_text hangle hbrace).imp fun ps hps => ?_
    have hbefore := hps.before .nil fun m hm => nomatch hm
    rwa [List.append_nil] at hbefore
  | cons c cs ih =>
    rw [List.forall_mem_cons] at h hmarkup
    rw [Node.writeAll, String.toList_append]
    cases htext : c.kind.isText with
    | true =>
      cases h.1 with
      | @text s' info angle brace =>
        have hwrite : (Node.mk (.text s') info [] []).write = s' := by
          simp [Node.write, Node.writeAll, Kind.opening, Kind.closing]
        have hjoined := ih h.2 hmarkup.2 (s := s ++ s') (by simp [hangle, angle]) (by simp [hbrace, brace])
        rw [hwrite, ← List.append_assoc, ← String.toList_append]
        refine hjoined.imp fun ps hps => ?_
        rw [IsContent, Node.joinAll, Node.prependText_append]
        exact hps
      | element => cases htext
      | fragment => cases htext
      | string => cases htext
    | false =>
      have hchild := reads_child h.1 htext hmarkup.1
      have hrest := ih h.2 hmarkup.2 (s := "") (by simp) (by simp)
      rw [String.toList_empty, List.nil_append] at hrest
      have hboth := Reads.append (fun _ _ _ h => h) hchild hrest fun _ _ => trivial
      refine (Reads.append (fun _ _ _ h => h) (reads_text hangle hbrace) hboth fun rest _ => ?_).imp ?_
      · rw [List.append_assoc]
        exact starts_child h.1 htext _
      · rintro ps ⟨qs, _, rfl, hqs, _, rs, rfl, ⟨p, n, rfl, hnode, hn⟩, hrs⟩
        have hbefore := hqs.before (.cons hn hrs) fun m hm => ?_
        · rw [Node.prependText_empty] at hbefore
          simpa [IsContent, allParts_append, allParts, hnode, Node.joinAll_cons_of_ne htext] using hbefore
        · obtain rfl := Option.mem_some.mp hm
          rw [Node.kind_joined, htext]

/-! ## Elements and fragments -/

theorem closingName_closingTag {name : String} (h : name = "" ∨ Text.IsFullName .tag name) :
    closingName (.ofList (closingTag name)) = name := by
  have hinner : Text.inner (.ofList (closingTag name)) = .ofList ('/' :: name.toList) := by
    rw [Text.inner, String.toList_ofList, closingTag, List.drop_one, List.tail_cons, ← List.cons_append,
      List.dropLast_concat]
  have htrim {cs : List Char} (hcs : ∀ c ∈ cs, Text.isSpace c = false) : Text.trim (.ofList cs) = .ofList cs := by
    by_cases hne : cs = []
    · subst hne
      rfl
    · have hsolid := Text.Solid.of_noSpace hne hcs
      simpa using Text.trim_of_solid (b := []) (e := []) rfl rfl hsolid
  have hname : ∀ c ∈ name.toList, Text.isSpace c = false := by
    rcases h with rfl | h
    · simp
    · obtain ⟨c, w, hname, -, hspace⟩ := h.starts
      rwa [hname]
  have hslash : ∀ c ∈ '/' :: name.toList, Text.isSpace c = false :=
    List.forall_mem_cons.mpr ⟨by decide, hname⟩
  rw [closingName, hinner, htrim hslash, String.toList_ofList, List.drop_one, List.tail_cons, htrim hname,
    String.ofList_toList]

theorem content_close {ps : List Piece} {t : Token} (h : t.kind = .delimiter) :
    content (allParts (ps ++ [Piece.token t])) = ((allParts ps).flatMap contentNode, some t) := by
  have hclose : closeTag? (allParts ps ++ [Part.leaf (.token t)]) = some t := by
    simp [closeTag?, Part.token?, Leaf.token?, h]
  have hparts : allParts (ps ++ [Piece.token t]) = allParts ps ++ [Part.leaf (.token t)] := by
    rw [allParts_append, allParts, allParts, part]
  rw [hparts, content, hclose]
  simp

/-- The pieces end an element whose children have the property. -/
def EndsTag (name : String) (selfClosing : Bool) (P : List Node → Prop) (es : List Piece) : Prop :=
  ∃ ns last, P ns ∧ ∀ angle t as space, t.text = name → ∃ info,
    elementFrom angle t ⟨as, space, false⟩ (allParts es) = .mk (.element name selfClosing space last) info as.reverse ns

/-- The pieces end an element with these children. -/
def EndsElement (name : String) (selfClosing : Bool) (cs : List Node) : List Piece → Prop :=
  EndsTag name selfClosing (Node.AllReturn · (Node.joinAll cs))

theorem ends_selfClosing (name : String) {P : List Node → Prop} (h : P []) :
    Leaves .tag ['/', '>'] (EndsTag name true P) := by
  refine leaves_tag.imp ?_
  rintro ps ⟨t, rfl, hkind, htext⟩
  refine ⟨[], none, h, fun angle t' as space ht' => ⟨⟨some (spanOf angle t'), some (spanOf t t), none⟩, ?_⟩⟩
  have hslash : t.text = "/>" := htext
  simp [allParts, part, elementFrom, readToken, hkind, hslash, ht']

theorem ends_content {name : String} (h : Text.IsFullName .tag name) {P : List Node → Prop} {w : List Char}
    (hw : Reads Between w Stops fun ps => P ((allParts ps).flatMap contentNode)) :
    Leaves .tag ('>' :: (w ++ closingTag name)) (EndsTag name false P) := by
  refine (leaves_content h hw).imp ?_
  rintro ps ⟨angle, qs, _, rfl, hkind, htext, hqs, close, rfl, hclose, hclosing⟩
  have hcontent : part (.stretch .content (qs ++ [Piece.token close])) =
      .content ((allParts qs).flatMap contentNode) (some close) := by
    rw [part, assemble, content_close hclose]
  have hname : closingName close.text = name := by rw [hclosing, closingName_closingTag (.inr h)]
  refine ⟨_, some name, hqs, fun angle' t as space ht =>
    ⟨⟨some (spanOf angle' t), some (spanOf close close), none⟩, ?_⟩⟩
  rw [allParts, allParts, allParts, hcontent]
  simp [part, elementFrom, readToken, hkind, htext, hname, ht]

/-- The pieces only change the white space since the last attribute. -/
def IsSpace (space : String) (ps : List Piece) : Prop :=
  ∀ angle name as more, elementFrom angle name ⟨as, "", false⟩ (allParts ps ++ more) =
    elementFrom angle name ⟨as, space, false⟩ more

theorem reads_spaceEnd {space : String} (hblank : Text.isBlank space = true) :
    Reads (Inside .tag) space.toList SpaceEnds (IsSpace space) := by
  by_cases hs : space = ""
  · subst hs
    refine Reads.nil.imp ?_
    rintro ps rfl angle name as more
    rfl
  · refine (reads_space hblank hs).imp ?_
    rintro ps ⟨t, rfl, hkind, rfl⟩ angle name as more
    simp only [allParts, part, List.cons_append, List.nil_append, elementFrom_space hkind, String.empty_append]

theorem tagNext_space {space : String} (hblank : Text.isBlank space = true) {rest : List Char} (hrest : TagNext rest) :
    TagNext (space.toList ++ rest) := by
  cases hs : space.toList with
  | nil => exact hrest
  | cons c cs => exact ⟨c, cs ++ rest, rfl, .inl (List.all_eq_true.mp hblank c (by simp [hs]))⟩

/-- An element is read, if its attributes and what ends it are. -/
theorem reads_tag {name spaceEnd : String} {selfClosing : Bool} {P Q : List Node → Prop} {w z : List Char}
    (h : Text.IsFullName .tag name) (hblank : Text.isBlank spaceEnd = true)
    (hw : Reads (Inside .tag) w TagNext (GivesAttributes P)) (hspace : ∀ rest, TagNext rest → TagNext (w ++ rest))
    (hz : Leaves .tag z (EndsTag name selfClosing Q)) (hstart : ∃ c rest, z = c :: rest ∧ (c = '/' ∨ c = '>')) :
    Reads AtMarkup ('<' :: name.toList ++ (w ++ (spaceEnd.toList ++ z))) (fun _ => True) fun ps => ∃ p last i as ns,
      ps = [p] ∧ part p = .leaf (.node (.mk (.element name selfClosing spaceEnd last) i as ns)) ∧ P as ∧ Q ns := by
  have hnext (rest : List Char) : TagNext (z ++ rest) := by
    obtain ⟨c, cs, rfl, hc⟩ := hstart
    exact ⟨c, cs ++ rest, rfl, .inr hc⟩
  have hends (rest : List Char) : SpaceEnds (z ++ rest) := by
    obtain ⟨c, cs, rfl, hc⟩ := hstart
    exact ⟨c, cs ++ rest, rfl, by rcases hc with rfl | rfl <;> decide⟩
  have hspaced := hz.after (reads_spaceEnd hblank) hends
  have hattributes := hspaced.after hw fun rest => by
    rw [List.append_assoc]
    exact tagNext_space hblank (hnext rest)
  have hno : ¬ IsTagStart name [] := by
    rintro ⟨angle, t, heq, -⟩
    cases heq
  refine ((enters_tag h).stretch hattributes (fun rest => ?_) hno).imp ?_
  · rw [List.append_assoc]
    refine TagNext.endsName (hspace _ ?_)
    rw [List.append_assoc]
    exact tagNext_space hblank (hnext rest)
  · rintro ps ⟨_, _, rfl, ⟨angle, t, rfl, ht⟩, qs, _, rfl, ⟨as, has, hqs⟩, ss, es, rfl, hss, ns, last, hns, hes⟩
    obtain ⟨i, helement⟩ := hes angle t (as.reverse ++ []) spaceEnd ht
    refine ⟨_, last, i, as, ns, rfl, ?_, has, hns⟩
    simp only [part, assemble, List.cons_append, List.nil_append, allParts, allParts_append, element, hqs]
    rw [hss, helement, List.append_nil, List.reverse_reverse]

/-- An element is read back, if what ends it is. -/
theorem reads_element {name spaceEnd : String} {selfClosing : Bool} {closingName : Option String} {info : Info}
    {as cs : List Node} {z : List Char} (h : Text.IsFullName .tag name) (hblank : Text.isBlank spaceEnd = true)
    (has : ∀ a ∈ as, PlainAttribute a) (hz : Leaves .tag z (EndsElement name selfClosing cs))
    (hstart : ∃ c rest, z = c :: rest ∧ (c = '/' ∨ c = '>')) :
    Reads AtMarkup ('<' :: name.toList ++ ((Node.writeAll as).toList ++ (spaceEnd.toList ++ z))) (fun _ => True)
      (IsMarkup (.mk (.element name selfClosing spaceEnd closingName) info as cs)) := by
  refine (reads_tag h hblank (reads_attributes has) (fun rest => tagNext_attributes has) hz hstart).imp ?_
  rintro ps ⟨p, last, i, as', ns, rfl, hpart, hreturn, hns⟩
  refine ⟨p, _, rfl, hpart, .of_kind rfl rfl rfl ?_ hreturn hns⟩
  simp [Kind.bodySame, Kind.sameTag, Kind.isReadable, Node.verdict]

/-- A fragment is read back, if its content is. -/
theorem reads_fragment {info : Info} {cs : List Node} {w : List Char} (hw : Reads Between w Stops (IsContent "" cs)) :
    Reads AtMarkup (['<', '>'] ++ (w ++ closingTag "")) (fun _ => True) (IsMarkup (.mk .fragment info [] cs)) := by
  have hinside : Reads (Inside .fragment) w Stops (IsContent "" cs) :=
    hw.weaken (fun _ _ h => .inr h) (fun _ => id) fun _ => id
  have hno : ¬ IsDelimiter ['<', '>'] [] := by
    rintro ⟨t, heq, -⟩
    cases heq
  refine (enters_fragment.stretch (leaves_fragment.after hinside fun rest => ?_) (fun _ => trivial) hno).imp ?_
  · exact ⟨'<', _, rfl, .inl rfl⟩
  · rintro ps ⟨_, _, rfl, ⟨t, rfl, -, -⟩, qs, _, rfl, hqs, close, rfl, hclose, hclosing⟩
    have hname : closingName close.text = "" := by rw [hclosing, closingName_closingTag (.inl rfl)]
    refine ⟨_, .mk .fragment ⟨some (spanOf t t), some (spanOf close close), none⟩ []
      ((allParts qs).flatMap contentNode), rfl, ?_, .of_kind rfl rfl rfl rfl .nil hqs⟩
    rw [part, assemble, List.cons_append, List.nil_append, allParts, part]
    simp [fragment, content_close hclose, hname]

theorem toList_write_element (name spaceEnd : String) (selfClosing : Bool) (closingName : Option String) (info : Info)
    (as cs : List Node) :
    (Node.mk (.element name selfClosing spaceEnd closingName) info as cs).write.toList =
      '<' :: name.toList ++ ((Node.writeAll as).toList ++ (spaceEnd.toList ++
        ((if selfClosing then ['/', '>'] else ['>']) ++ ((Node.writeAll cs).toList ++
          (Kind.element name selfClosing spaceEnd closingName).closing.toList)))) := by
  cases selfClosing <;> simp [Node.write, Kind.opening, Kind.tagEnd]

/-- Plain markup is read back wherever markup can stand. -/
theorem reads_plain {t : Node} (h : Plain t) (hmarkup : t.kind.isMarkup = true) :
    Reads AtMarkup t.write.toList (fun _ => True) (IsMarkup t) := by
  induction h with
  | @element name spaceEnd selfClosing closingName info as cs isName blank childless closing attributes children ih =>
    have hwrite := toList_write_element name spaceEnd selfClosing closingName info as cs
    cases selfClosing with
    | true =>
      obtain rfl := childless rfl
      rw [hwrite]
      exact reads_element isName blank attributes (ends_selfClosing name .nil) ⟨'/', _, rfl, .inl rfl⟩
    | false =>
      have hclosing : (Kind.element name false spaceEnd closingName).closing.toList = closingTag name := by
        rcases closing with rfl | rfl
        · simp [Kind.closing, closingTag]
        · simp [Kind.closing, closingTag]
      have hcontent := reads_content children ih (s := "") (by simp) (by simp)
      rw [hwrite, hclosing]
      exact reads_element isName blank attributes (ends_content isName hcontent) ⟨'>', _, rfl, .inr rfl⟩
  | @fragment info cs children ih =>
    have hwrite : (Node.mk .fragment info [] cs).write.toList =
        ['<', '>'] ++ ((Node.writeAll cs).toList ++ closingTag "") := by
      simp [Node.write, Kind.opening, Kind.closing, closingTag]
    have hcontent := reads_content children ih (s := "") (by simp) (by simp)
    rw [hwrite]
    exact reads_fragment hcontent
  | text => cases hmarkup
  | string => cases hmarkup

end Markup

/-! ## Documents -/

namespace Node

mutual

/-- There is no invalid node below a valid one. -/
theorem visits_of_isValid (path : Path) (n : Node) (h : n.isValid = true) :
    ∀ v ∈ n.visitsAt path, v.node.kind.isInvalid = false := by
  cases n with
  | mk k i as cs =>
    rw [isValid, Bool.and_eq_true, Bool.and_eq_true] at h
    rw [visitsAt]
    intro v hv
    rcases List.mem_append.mp hv with hv | hv
    · exact visits_of_allValid _ 0 as h.1.2 v hv
    · exact visits_of_allValid _ 0 cs h.2 v hv

theorem visits_of_allValid (path : Path) (index : Nat) (ns : List Node) (h : allValid ns = true) :
    ∀ v ∈ visitsIn path index ns, v.node.kind.isInvalid = false := by
  cases ns with
  | nil => exact fun v hv => nomatch hv
  | cons n ns =>
    rw [allValid, Bool.and_eq_true] at h
    rw [visitsIn, List.cons_append]
    intro v hv
    rcases List.mem_cons.mp hv with rfl | hv
    · cases n
      rw [isValid, Bool.and_eq_true, Bool.and_eq_true] at h
      simpa using h.1.1.1
    rcases List.mem_append.mp hv with hv | hv
    · exact visits_of_isValid _ n h.1 v hv
    · exact visits_of_allValid _ (index + 1) ns h.2 v hv

end

end Node

/-- A text whose nodes are all valid is read. -/
theorem Source.parse_of_allValid {text : String} (h : Node.allValid (Markup.nodes text) = true) :
    parse text = .ok (.new (.document (some text)) (Markup.nodes text)) := by
  have hnone : error? text 0 (document text) = none := by
    refine List.findSome?_eq_none_iff.mpr fun n hn => ?_
    obtain ⟨v, hv, rfl⟩ := List.mem_map.mp hn
    have hvalid := Node.visits_of_allValid [] 0 (Markup.nodes text) h v hv
    cases hkind : v.node.kind with
    | invalid reason position =>
      rw [hkind] at hvalid
      cases hvalid
    | _ => rfl
  rw [parse, hnone]
  rfl

/-- A text that is read as markup has one node. -/
theorem Markup.nodes_of_reads {text : String} {P : List Piece → Prop}
    (h : Reads AtMarkup text.toList (fun _ => True) P) :
    ∃ ps, P ps ∧ ∀ p n, ps = [p] → part p = .leaf (.node n) → nodes text = [n] := by
  -- the run over the whole text, from the start of a document and with nothing after it
  obtain ⟨before, pos, ps, hps, heq⟩ := h [] none 0 [] [] [] (.inr (.inr ⟨rfl, rfl⟩)) trivial
  have hpieces : Piece.ofText text = ps := by
    rw [List.append_nil, List.append_nil] at heq
    exact heq.trans (List.reverse_reverse ps)
  refine ⟨ps, hps, fun p n hone hpart => ?_⟩
  rw [hone] at hpieces
  simp [nodes, hpieces, allParts, hpart, Part.allLeaves, Part.leaves, Leaf.code, Leaf.codeFrom]

/-- The text of plain markup is that of one node, which is the markup with its texts joined. -/
theorem Plain.nodes_write {t : Node} (h : Plain t) (hmarkup : t.kind.isMarkup = true) :
    ∃ n, Markup.nodes t.write = [n] ∧ n.Returns t.joined := by
  obtain ⟨ps, ⟨p, n, rfl, hpart, hn⟩, hnodes⟩ := Markup.nodes_of_reads (Markup.reads_plain h hmarkup)
  exact ⟨n, hnodes p n rfl hpart, hn⟩

theorem Node.allReadable_joinAll {cs : List Node} (h : ∀ c ∈ cs, Plain c)
    (hjoined : ∀ c ∈ cs, c.joined.isReadable = c.isReadable) : allReadable (joinAll cs) = allReadable cs := by
  have hprepend (s : String) (ns : List Node) : allReadable (prependText s ns) = allReadable ns := by
    by_cases hs : s = ""
    · rw [hs, prependText_empty]
    by_cases hns : ∀ n ∈ ns.head?, n.kind.isText = false
    · rw [prependText_of_ne hs hns]
      rfl
    · cases ns with
      | nil => exact absurd (fun n hn => nomatch hn) hns
      | cons n ns =>
        obtain ⟨t, i, as, bs, rfl⟩ := exists_text (n := n) (by simpa using hns)
        rw [prependText_text hs]
        rfl
  induction cs with
  | nil => rfl
  | cons c cs ih =>
    rw [List.forall_mem_cons] at h hjoined
    cases htext : c.kind.isText with
    | true =>
      cases h.1 with
      | text => exact (hprepend _ _).trans (ih h.2 hjoined.2)
      | element => cases htext
      | fragment => cases htext
      | string => cases htext
    | false => rw [joinAll_cons_of_ne htext, allReadable, allReadable, hjoined.1, ih h.2 hjoined.2]

/-- Joining texts does not change what can be read. -/
theorem Plain.isReadable_joined {t : Node} (h : Plain t) : t.joined.isReadable = t.isReadable := by
  induction h with
  | element isName blank childless closing attributes children ih =>
    rw [Node.joined, Node.isReadable, Node.isReadable, Node.allReadable_joinAll children ih]
  | fragment children ih => rw [Node.joined, Node.isReadable, Node.isReadable, Node.allReadable_joinAll children ih]
  | text => rfl
  | string => rfl

/-- The tree is written and read back: there is one node in the document that is read, which is the tree with its texts
joined as far as its references can be read. -/
def ReadsBack (t : Node) : Prop :=
  ∃ text c, (Node.new (.document none) [t]).generate true = .ok text ∧
    Source.parse text = .ok (.new (.document (some text)) [c]) ∧
    c.equals t.joined = if t.isReadable then .ok true else .error .badNumber

theorem Plain.readsBack {t : Node} (h : Plain t) (hmarkup : t.kind.isMarkup = true) : ReadsBack t := by
  obtain ⟨c, hnodes, hc⟩ := h.nodes_write hmarkup
  have hvalid : Node.allValid (Markup.nodes t.write) = true := by
    rw [hnodes, Node.allValid, hc.valid]
    rfl
  refine ⟨t.write, c, h.generate_document, ?_, ?_⟩
  · rw [Source.parse_of_allValid hvalid, hnodes]
  · rw [hc.same, h.isReadable_joined]
    rfl

end JsxEdit
