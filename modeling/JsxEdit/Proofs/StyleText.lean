import JsxEdit.Proofs.AttributeText
import JsxEdit.Proofs.Blind
import JsxEdit.Proofs.StyleMerge

/-
Styles that are written.

The object literal that an update of styles leaves in an element is written in the place of the old one, and its text is
read there as it is.
-/
set_option autoImplicit false

namespace JsxEdit

namespace Edit
open Node

/-! ## The text of another object literal -/

theorem isValid_withChildren_of {n : Node} (h : n.isValid = true) {cs : List Node} (hcs : allValid cs = true) :
    (n.withChildren cs).isValid = true := by
  obtain ⟨k, i, as, ds⟩ := n
  rw [isValid, Bool.and_eq_true] at h
  rw [withChildren, isValid, h.1, hcs]
  rfl

mutual

theorem isValid_of_flawless : (n : Node) → n.Flawless → n.isValid = true
  | .mk k i as cs, h => by
    obtain ⟨hpermits, has, hcs⟩ := flawless_mk.mp h
    have hk : k.isInvalid = false := by cases k <;> first | rfl | cases hpermits
    rw [Node.isValid, hk, allValid_of_flawless as has, allValid_of_flawless cs hcs]
    rfl

theorem allValid_of_flawless : (ns : List Node) → (∀ n ∈ ns, n.Flawless) → allValid ns = true
  | [], _ => rfl
  | n :: ns, h => by
    rw [List.forall_mem_cons] at h
    rw [allValid, isValid_of_flawless n h.1, allValid_of_flawless ns h.2]
    rfl

end

theorem GetsObject.flawless {e o o' : Node} {as : List Node} (h : GetsObject e.attributes o o' as)
    (he : (e.withAttributes as).Flawless) : o'.Flawless := by
  have hattr {a : Node} (ha : a ∈ as) : a.Flawless := he.attr (by rwa [attributes_withAttributes])
  cases h with
  | add missing =>
    have hslot := (hattr (List.mem_append_right _ List.mem_cons_self)).child List.mem_cons_self
    exact hslot.child List.mem_cons_self
  | change split named first value slotted object =>
    have hslot := (hattr (List.mem_append_right _ List.mem_cons_self)).child
      (by rw [children_withChildren]; exact List.mem_cons_self)
    exact hslot.child (by rw [children_withChildren]; exact List.mem_cons_self)

/-- An element is as valid with another object literal as style. -/
theorem GetsObject.isValid {e o o' : Node} {as : List Node} (h : GetsObject e.attributes o o' as) (he : e.isValid = true)
    (ho' : o'.isValid = true) : (e.withAttributes as).isValid = true := by
  obtain ⟨k, i, as₀, cs⟩ := e
  rw [Node.isValid, Bool.and_eq_true, Bool.and_eq_true, allValid_iff] at he
  obtain ⟨⟨hk, has⟩, hcs⟩ := he
  rw [withAttributes, Node.isValid, Bool.and_eq_true, Bool.and_eq_true]
  refine ⟨⟨hk, ?_⟩, hcs⟩
  rw [allValid_iff]
  cases h with
  | add missing =>
    refine List.forall_mem_append.mpr ⟨has, List.forall_mem_singleton.mpr ?_⟩
    simp [Node.attr, Node.slot, isValid_new, allValid, ho', Kind.isInvalid]
  | @change left right rest rest' a slot lead trail split named first value slotted object =>
    rw [attributes_mk] at split
    rw [split, List.forall_mem_append, List.forall_mem_cons] at has
    obtain ⟨hleft, ha, hright⟩ := has
    have hbelow {n c : Node} {more : List Node} (hn : n.isValid = true) (hc : n.children = c :: more) :
        c.isValid = true ∧ allValid more = true := by
      obtain ⟨k, i, as, cs⟩ := n
      rw [children_mk] at hc
      rw [hc, Node.isValid, allValid, Bool.and_eq_true, Bool.and_eq_true] at hn
      exact Bool.and_eq_true_iff.mp hn.2
    obtain ⟨hslot, hrest⟩ := hbelow ha value
    obtain ⟨-, hrest'⟩ := hbelow hslot object
    have hchanged : (slot.withChildren (o' :: rest')).isValid = true :=
      isValid_withChildren_of hslot (by rw [allValid, ho', hrest']; rfl)
    refine List.forall_mem_append.mpr ⟨hleft, List.forall_mem_cons.mpr ⟨?_, hright⟩⟩
    exact isValid_withChildren_of ha (by rw [allValid, hchanged, hrest]; rfl)

section

variable {text : String} {angle name : Token} {items last : List Piece} {e o : Node}

theorem exists_listed (h : Drawn text angle name items last e) (ho : styleTarget e = some o)
    (hunread : Scan.unread text = []) (hclear : e.StandsClear text) (hcomments : EndsComments o) :
    ∃ trailing, Listed o trailing := by
  rw [styleTarget] at ho
  cases ha : e.attr? styleAttribute with
  | none =>
    rw [ha] at ho
    obtain rfl := Option.some.inj ho
    exact ⟨"", rfl, rfl, List.forall_mem_nil _, .inl rfl⟩
  | some a =>
    rw [ha] at ho
    obtain ⟨left, slot, rest, rest', right, hsplit, -, hchildren, hkind, hslot, -⟩ := setStyleObject_split ha ho
    obtain ⟨trailing, hk⟩ := kind_styleObject ho
    have hattr := isAttr_iff.mp (List.find?_some (p := fun a : Node => a.kind.isAttr styleAttribute) ha)
    obtain ⟨I, its, J, g, op, b, hat⟩ := h.exists_slot hsplit ⟨_, hattr⟩ hchildren hkind
    obtain ⟨lead, trail, hkind⟩ := hkind
    obtain ⟨-, -, -, htail, hreading, -⟩ := hat.slot_spec hchildren hkind hslot
    exact ⟨trailing, hat.listed h hunread hclear htail hk (by rw [hreading]) hcomments⟩

/-- An element whose style gives its place to another object literal is read with that. -/
theorem exists_styled_text (h : Drawn text angle name items last e) (ho : styleTarget e = some o) {tree : Node}
    (hparse : Source.parse text = .ok tree) (hkept : keeps text = true) (hclear : e.StandsClear text)
    {written : String} {n : Node} (hcontents : Contents written (Yields n)) (hwrite : n.write = "\x7b" ++ written ++ "\x7d")
    (hn : n.isValid = true) : ∃ text' tree', Source.parse text' = .ok tree' ∧ tree'.write = text' ∧
      (tree'.withKind tree.kind).blind =
        Node.swap (· == angle.pos) (e.withAttributes (setStyleObject e.attributes n)).blind tree := by
  have hvalid := (getsObject_setStyleObject ho n).isValid h.valid hn
  rw [styleTarget] at ho
  cases ha : e.attr? styleAttribute with
  | none =>
    have hmissing : attrIndex? e.attributes styleAttribute = none := attrIndex?_eq_none.mpr (by simpa [attr?] using ha)
    have hset : setStyleObject e.attributes n = e.attributes ++ [.attr styleAttribute (some (.slot n))] := by
      rw [setStyleObject, hmissing]
    rw [hset] at hvalid ⊢
    exact h.exists_attribute_text hparse hkept hclear (show Text.IsFullName .attr styleAttribute from rfl) hcontents hwrite hn
      hvalid
  | some a =>
    rw [ha] at ho
    obtain ⟨left, slot, rest, rest', right, hsplit, -, hchildren, hkind, hslot, hset⟩ := setStyleObject_split ha ho
    have hattr := isAttr_iff.mp (List.find?_some (p := fun a : Node => a.kind.isAttr styleAttribute) ha)
    obtain ⟨I, its, J, g, op, b, hat⟩ := h.exists_slot hsplit ⟨_, hattr⟩ hchildren hkind
    obtain ⟨lead, trail, hkind⟩ := hkind
    obtain ⟨-, rfl, rfl, htail, hreading, has⟩ := hat.slot_spec hchildren hkind hslot
    rw [hset n] at hvalid ⊢
    refine hat.exists_text h hsplit htail hparse hkept hclear hcontents hwrite ?_ hvalid hn
    rw [hreading]
    dsimp only
    obtain ⟨k, i, as, cs⟩ := slot
    obtain rfl : k = .slot lead trail := hkind
    obtain rfl : as = [] := has
    obtain ⟨k, j, as, cs'⟩ := a
    simp only [withChildren, Node.new, blind_mk, List.map_cons, List.map_nil]

end

/-! ## The element in the new text -/

/-- Another first child with the same text leaves the text as it is. -/
theorem write_firstChild {n c : Node} {rest : List Node} (h : n.children = c :: rest) {c₁ c₂ : Node}
    (hwrite : c₁.write = c₂.write) : (n.withChildren (c₁ :: rest)).write = (n.withChildren (c₂ :: rest)).write := by
  obtain ⟨pre, post, -, haround⟩ := write_setFirst h
  rw [haround, haround, hwrite]

/-- What is written for attributes with a style is known from the text of its object literal. -/
theorem writeAll_setStyleObject {e o o₁ o₂ : Node} (ho : styleTarget e = some o) (hwrite : o₁.write = o₂.write) :
    writeAll (setStyleObject e.attributes o₁) = writeAll (setStyleObject e.attributes o₂) := by
  rw [styleTarget] at ho
  cases ha : e.attr? styleAttribute with
  | none =>
    have hmissing : attrIndex? e.attributes styleAttribute = none := attrIndex?_eq_none.mpr (by simpa [attr?] using ha)
    simp only [setStyleObject, hmissing, writeAll_append, writeAll_singleton, write_newAttribute, hwrite]
  | some a =>
    rw [ha] at ho
    obtain ⟨left, slot, rest, rest', right, -, -, hchildren, -, hslot, hset⟩ := setStyleObject_split ha ho
    rw [hset, hset, writeAll_around, writeAll_around, write_firstChild hchildren (write_firstChild hslot hwrite)]

/-- Markup with the same text in one place leaves the text as it is. -/
theorem write_set_congr {tree m : Node} {v : Visit} (h : tree.get? v.path = some m) {n₁ n₂ : Node}
    (hmarkup : n₁.kind.isMarkup = true) (hwrite : n₁.write = n₂.write) :
    (tree.set v.path n₁).write = (tree.set v.path n₂).write := by
  obtain ⟨pre, post, hbefore, hafter⟩ := write_modify (f := fun _ => n₂) hmarkup (get?_set_child h n₁)
  have hset : ((tree.set v.path n₁).set v.path n₂).write = pre ++ n₂.write ++ post := hafter
  rw [set_set] at hset
  rw [hset, ← hwrite]
  exact hbefore

/-- A read text has the other element where the document had the one in whose place that is. -/
theorem exists_reread {text id : String} {tree o n : Node} {v : Visit} (hparse : Source.parse text = .ok tree)
    (hkept : keeps text = true) (hv : tree.findId id = .ok (some v)) (hclear : v.node.StandsClear text)
    (ho : styleTarget v.node = some o) {written : String} (hcontents : Contents written (Yields n))
    (hwrite : n.write = "\x7b" ++ written ++ "\x7d") (hn : n.isValid = true) : ∃ tree' v',
    Source.parse (tree.set v.path (v.node.withAttributes (setStyleObject v.node.attributes n))).write = .ok tree' ∧
      tree'.findId id = .ok (some v') ∧
      v'.node.blind = (v.node.withAttributes (setStyleObject v.node.attributes n)).blind := by
  have hfound := findId_some hv
  have hget := (Source.keepsAttributes_parse hparse).get?_visit hfound.mem
  obtain ⟨angle, name, items, last, hdrawn⟩ := exists_drawn hparse hkept (node_mem_under hfound.mem) hfound.element
  obtain ⟨text', tree', hparse', hwritten, hblind⟩ :=
    exists_styled_text hdrawn ho hparse hkept hclear hcontents hwrite hn
  have hhit : v.node.isHit (· == angle.pos) = true :=
    hit_element (A := items) (G := []) (B := last) (by rw [List.append_nil]; exact hdrawn.tagged.node) hdrawn.element hdrawn.valid
  set e := v.node.withAttributes (setStyleObject v.node.attributes n) with he
  have hdocument : tree.kind = .document (some text) ∧ tree'.kind = .document (some text') := by
    obtain ⟨rfl, -⟩ := Source.parse_eq_ok hparse
    obtain ⟨rfl, -⟩ := Source.parse_eq_ok hparse'
    exact ⟨rfl, rfl⟩
  have hroot : (tree'.withKind tree.kind).write = tree'.write ∧ (tree'.withKind tree.kind).findId id = tree'.findId id := by
    obtain ⟨k, i, as, cs⟩ := tree'
    obtain rfl : k = .document (some text') := hdocument.2
    rw [hdocument.1]
    exact ⟨rfl, rfl⟩
  -- the text is that of the changed document
  have hset : (tree.set v.path e).write = text' := by
    have hmodify := blind_modify (f := fun _ => e) hhit rfl hget (hit_once hparse angle.pos)
    rw [← write_blind, Node.set, hmodify, ← hblind, write_blind, hroot.1, hwritten]
  have helement : e.blind.kind.isElement = true := by
    have hk := hfound.element
    rw [kind_blind, he, kind_withAttributes]
    cases hkind : v.node.kind <;> first | rfl | (rw [hkind] at hk; cases hk)
  have hidentity : ∀ m : Node, m.blind = e.blind → m.identity = .ok (some id) := by
    intro m hm
    have hother := (getsObject_setStyleObject ho n).find?_other (show styleAttribute ≠ identityName by decide)
    rw [← identity_blind, hm, identity_blind, ← hfound.identity, identity, identity, attr?, attr?, he,
      attributes_withAttributes, hother]
  obtain ⟨v', hv', hnode⟩ := findId_swap helement hblind (not_hit_of_kind (by rw [hdocument.1]; rfl)) hv hhit hidentity
  exact ⟨tree', v', hset ▸ hparse', hroot.2 ▸ hv', hnode⟩

/-! ## Documents that are read back -/

/-- What is written of the document is read as the same document. -/
def ReadsSame (tree : Node) : Prop := ∃ tree', Source.parse tree.write = .ok tree' ∧ tree'.blind = tree.blind

/-- No string and no comment is open in the text where the element with the identity starts, and what starts in the element
ends as well. -/
def IsClear (text id : String) : Prop :=
  ∀ tree v, Source.parse text = .ok tree → tree.findId id = .ok (some v) → v.node.StandsClear text

theorem isClear_of_spans {text id : String} {tree : Node} {v : Visit} {a b : Nat} (hparse : Source.parse text = .ok tree)
    (hv : tree.findId id = .ok (some v)) (hspans : v.node.Spans a b) (hcloses : Scan.closes a b text = true) :
    IsClear text id := by
  intro tree' v' hparse' hv'
  obtain rfl := Except.ok.inj (hparse.symm.trans hparse')
  obtain rfl := Option.some.inj (Except.ok.inj (hv.symm.trans hv'))
  exact ⟨a, b, hspans, hcloses⟩

theorem readsSame_of_write {text : String} {tree : Node} (hparse : Source.parse text = .ok tree) (hwrite : tree.write = text) :
    ReadsSame tree := ⟨tree, by rw [hwrite, hparse], rfl⟩

theorem keeps_of_blind {tree tree' : Node} (hparse : Source.parse tree.write = .ok tree') (hblind : tree'.blind = tree.blind) :
    keeps tree.write = true :=
  keeps_of_write hparse (by rw [← write_blind tree', hblind, write_blind])

theorem Listed.of_blind {o o' : Node} {trailing : String} (h : Listed o trailing) (ho : o'.blind = o.blind) :
    Listed o' trailing := by
  have hkind := congrArg Node.kind ho
  rw [kind_blind, kind_blind, h.kind] at hkind
  have has := congrArg Node.attributes ho
  rw [attributes_blind, attributes_blind, h.attributes] at has
  have hchildren := congrArg Node.children ho
  rw [children_blind, children_blind] at hchildren
  refine ⟨Kind.eq_of_blind hkind rfl, List.map_eq_nil_iff.mp has, fun n hn => ?_, h.ends⟩
  obtain ⟨m, hm, hsame⟩ := List.mem_map.mp (hchildren ▸ List.mem_map_of_mem hn)
  exact (h.clauses m hm).of_blind hsame.symm

theorem exists_styleTarget {n n' o : Node} (h : n'.blind = n.blind) (ho : styleTarget n = some o) :
    ∃ o', styleTarget n' = some o' ∧ o'.blind = o.blind := by
  have hsame := styleTarget_blind n'
  rw [h, styleTarget_blind, ho] at hsame
  exact Option.map_eq_some_iff.mp hsame.symm

section

variable {tree o : Node} {id : String} {v : Visit} (hreads : ReadsSame tree) (hclear : IsClear tree.write id)
  (hv : tree.findId id = .ok (some v)) (ho : styleTarget v.node = some o)

include hreads hclear hv ho

theorem listed_of_readsSame (hcomments : EndsComments o) : ∃ trailing, Listed o trailing := by
  obtain ⟨tree', hparse, hblind⟩ := hreads
  obtain ⟨v', hv', -, hnode⟩ := exists_findId hblind hv
  obtain ⟨o', ho', hobject⟩ := exists_styleTarget hnode ho
  have hkept := keeps_of_blind hparse hblind
  have hfound := findId_some hv'
  obtain ⟨angle, name, items, last, hdrawn⟩ := exists_drawn hparse hkept (node_mem_under hfound.mem) hfound.element
  have hunread : Scan.unread tree.write = [] := by
    rw [keeps, Bool.and_eq_true] at hkept
    exact List.isEmpty_iff.mp hkept.1
  obtain ⟨trailing, hlisted⟩ := exists_listed hdrawn ho' hunread (hclear _ _ hparse hv') (hcomments.of_blind hobject)
  exact ⟨trailing, hlisted.of_blind hobject.symm⟩

theorem reread_of_readsSame {n : Node} {written : String} (hcontents : Contents written (Yields n))
    (hwrite : n.write = "\x7b" ++ written ++ "\x7d") (hn : n.isValid = true) : ∃ tree' v',
    Source.parse (tree.set v.path (v.node.withAttributes (setStyleObject v.node.attributes n))).write = .ok tree' ∧
      tree'.findId id = .ok (some v') ∧
      v'.node.blind = (v.node.withAttributes (setStyleObject v.node.attributes n)).blind := by
  obtain ⟨tree₁, hparse, hblind⟩ := hreads
  obtain ⟨v₁, hv₁, hpath, hnode⟩ := exists_findId hblind hv
  obtain ⟨o₁, ho₁, -⟩ := exists_styleTarget hnode ho
  obtain ⟨tree', v', hparse', hv', hnode'⟩ :=
    exists_reread hparse (keeps_of_blind hparse hblind) hv₁ (hclear _ _ hparse hv₁) ho₁ hcontents hwrite hn
  have hchanged : (v₁.node.withAttributes (setStyleObject v₁.node.attributes n)).blind =
      (v.node.withAttributes (setStyleObject v.node.attributes n)).blind := by
    rw [blind_withAttributes, map_setStyleObject, ← attributes_blind, hnode, attributes_blind, ← map_setStyleObject,
      ← blind_withAttributes]
  rw [← write_blind, blind_set, hblind, hpath, hchanged, ← blind_set, write_blind] at hparse'
  exact ⟨tree', v', hparse', hv', hnode'.trans hchanged⟩

end

/-! ## Updates of styles -/

/-- An update of styles that succeeds has found the element and its object literal, and could work out what to change and
the styles that there are then. -/
theorem exists_of_updateStyles {tree : Node} {id : String} {styles : Dict (Value Node)} {outcome : Outcome}
    (h : (updateStyles tree id styles).result = .ok outcome) (hsuccess : outcome.success = true) :
    ∃ v o changes d, tree.findId id = .ok (some v) ∧ styleTarget v.node = some o ∧
      styleChanges (Dict.rename Text.camelCase styles) = .ok changes ∧ stylesOf (changes.foldl changeStyle o) = .ok d := by
  unfold updateStyles at h
  split at h
  · cases h
  · cases h
    cases hsuccess
  · next v hv =>
    split at h
    · cases h
      cases hsuccess
    · next o ho =>
      split at h
      · cases h
        cases hsuccess
      · cases h
      · next changes hchanges =>
        dsimp only at h
        split at h
        · cases h
        · next d hd => exact ⟨v, o, changes, d, hv, ho, hchanges, hd⟩

/-- An edit that has changed a text has read it and done the operation, and written what came of it. -/
theorem exists_of_editText {text code : String} {c : Command} (hc : c.IsTextual) {edited : EditResult}
    (h : (editText text (c.run ·)).result = .ok edited) (hcode : edited.code = some code) : ∃ tree outcome,
    Source.parse text = .ok tree ∧ (c.run tree).result = .ok outcome ∧ outcome.success = true ∧
      (c.run tree).tree.Flawless ∧ code = (c.run tree).tree.write := by
  unfold editText at h
  split at h
  · cases h
    cases hcode
  · next tree hparse =>
    have hflawless : (c.run tree).tree.Flawless := Command.flawless_runAll hparse (List.forall_mem_singleton.mpr hc)
    have hgenerate : (c.run tree).tree.generate true = .ok (c.run tree).tree.write := hflawless.generate
    dsimp only at h
    split at h
    · cases h
    · next outcome hresult =>
      rw [hgenerate] at h
      split at h
      · cases h
        cases hcode
      · next hsuccess =>
        cases h
        exact ⟨tree, outcome, hparse, hresult, by simpa using hsuccess, hflawless, (Option.some.inj hcode).symm⟩

/-- The object literal that an element has as style. -/
def styleOf (n : Node) : Option Node := (n.attr? styleAttribute).bind styleObject?

theorem styleOf_blind (n : Node) : styleOf n.blind = (styleOf n).map blind := by
  rw [styleOf, styleOf, attr?_blind]
  cases n.attr? styleAttribute with
  | none => rfl
  | some a => exact styleObject?_blind a

/-- What holds something else than an object literal is no style. -/
theorem GetsObject.styleObject?_eq_none {as as' : List Node} {o o' : Node} (h : GetsObject as o o' as')
    (hk : ∀ trailing, o'.kind ≠ .object trailing) : (as'.find? (·.kind.isAttr styleAttribute)).bind Edit.styleObject? = none := by
  have hnone {a slot : Node} {rest rest' : List Node} (ha : a.children = slot :: rest) (hslot : slot.children = o' :: rest') :
      Edit.styleObject? a = none := by
    cases hobject : Edit.styleObject? a with
    | none => rfl
    | some found =>
      obtain ⟨slot', _, _, ha', -, hslot', trailing, hkind⟩ := styleObject?_eq_some.mp hobject
      obtain ⟨rfl, -⟩ := List.cons.inj (ha.symm.trans ha')
      obtain ⟨rfl, -⟩ := List.cons.inj (hslot.symm.trans hslot')
      exact absurd hkind (hk trailing)
  cases h with
  | add missing =>
    rw [find?_of_split rfl (isAttr_iff.mpr ⟨_, rfl⟩) missing, Option.bind_some]
    exact hnone rfl rfl
  | change split named first value slotted object =>
    rw [find?_of_split rfl (by rw [kind_withChildren, named]) first, Option.bind_some]
    exact hnone (children_withChildren _ _) (children_withChildren _ _)

/-- The styles that are read of an element are those of the object literal that was written for it. -/
theorem getStyles_of_reads {tree : Node} {id : String} {v : Visit} (hv : tree.findId id = .ok (some v)) {e o o' n : Node}
    (ho : styleTarget e = some o) (hnode : v.node.blind = (e.withAttributes (setStyleObject e.attributes n)).blind)
    (hreads : ReadsAs o' n) {trailing : String} (hk : o'.kind = .object trailing) {d : Dict (Value Node)}
    (hd : stylesOf o' = .ok d) : getStyles tree id = .ok (some d) := by
  have hgets := getsObject_setStyleObject ho n
  have hstyle : (styleOf v.node).map blind =
      ((setStyleObject e.attributes n).find? (·.kind.isAttr styleAttribute) |>.bind styleObject? |>.map blind) := by
    rw [← styleOf_blind, hnode, styleOf_blind, styleOf, attr?, attributes_withAttributes]
  rw [getStyles, hv]
  dsimp only [bind, Except.bind]
  rw [← styleOf]
  rcases hreads.node with rfl | ⟨hempty, hother⟩
  · rw [hgets.styleObject? hk] at hstyle
    obtain ⟨m, hm, hblind⟩ := Option.map_eq_some_iff.mp hstyle
    rw [hm]
    dsimp only
    rw [← stylesOf_blind, hblind, stylesOf_blind, hd]
    rfl
  · rw [hgets.styleObject?_eq_none hother, Option.map_none, Option.map_eq_none_iff] at hstyle
    rw [hstyle]
    rw [stylesOf, hempty] at hd
    cases hd
    rfl

theorem isWritable_of_asks {d : Dict (Value Node)} {changes : List StyleChange} (h : List.Forall₂ Asks d changes)
    (hstyles : ∀ e ∈ d, IsStyle e.2) (hnames : ∀ e ∈ d, isRemoval e.2 = false → IsKeyName e.1) :
    ∀ c ∈ changes, c.IsWritable := by
  induction h with
  | nil => exact List.forall_mem_nil _
  | cons hasks _ ih =>
    obtain ⟨hstyle, hstyles⟩ := List.forall_mem_cons.mp hstyles
    obtain ⟨hname, hnames⟩ := List.forall_mem_cons.mp hnames
    refine List.forall_mem_cons.mpr ⟨?_, ih hstyles hnames⟩
    cases hasks with
    | remove removal => trivial
    | assign given value => exact ⟨hname given, _, isStyleNode_of_styleValue hstyle value⟩

/-- Styles survive being written: once an update of styles has changed a text, the new text can be read, and the styles of
the element are the given ones there, without those that were to be removed. The given values are texts, whole numbers or
nothing. What is written of the old document is read as that document; the element stands where no string or comment is open,
and leaves none open; the names are read back from keys; and there are no two properties of a given name, and no comment that
would go on into what is written after the properties. -/
theorem styles_survive_writing {text code id : String} {styles : Dict (Value Node)} {tree : Node} {edited : EditResult}
    (hparse : Source.parse text = .ok tree) (hreads : ReadsSame tree) (hclear : IsClear tree.write id)
    (hstyles : ∀ e ∈ styles, e.2 = .null ∨ isWord e.2 = true)
    (hnames : ∀ e ∈ Dict.rename Text.camelCase styles, isRemoval e.2 = false → IsKeyName e.1)
    (hobject : ∀ v o, tree.findId id = .ok (some v) → styleTarget v.node = some o →
      EndsComments o ∧ ∀ e ∈ Dict.rename Text.camelCase styles, (named e.1 o.children).length ≤ 1)
    (h : (editText text (updateStyles · id styles)).result = .ok edited) (hcode : edited.code = some code) :
    ∃ tree', Source.parse code = .ok tree' ∧ ∃ d, getStyles tree' id = .ok (some d) ∧
      ∀ e ∈ Dict.rename Text.camelCase styles, d.get? e.1 = if isRemoval e.2 then none else some e.2 := by
  obtain ⟨tree₀, outcome, hparse₀, hresult, hsuccess, hflawless, rfl⟩ :=
    exists_of_editText (c := .updateStyles id styles) trivial h hcode
  obtain rfl := Except.ok.inj (hparse.symm.trans hparse₀)
  obtain ⟨v, o, changes, d, hv, ho, hchanges, hd⟩ := exists_of_updateStyles hresult hsuccess
  obtain ⟨hcomments, hsingle⟩ := hobject v o hv ho
  have hfound := findId_some hv
  have hget := (Source.keepsAttributes_parse hparse).get?_visit hfound.mem
  have hwords := isStyle_of_styleChanges hchanges fun e he => by
    obtain ⟨f, hf, rfl⟩ := List.mem_map.mp (mem_of_ofPairs he)
    exact hstyles f hf
  have htree : ((Command.updateStyles id styles).run tree).tree =
      tree.set v.path (v.node.withAttributes (setStyleObject v.node.attributes (changes.foldl changeStyle o))) :=
    tree_updateStyles hv ho hget hchanges
  -- the changed object literal can be read wherever it stands
  obtain ⟨trailing, hlisted⟩ := listed_of_readsSame hreads hclear hv ho hcomments
  obtain ⟨trailing', hlisted'⟩ := hlisted.changes (isWritable_of_asks (asks_of_styleChanges hchanges) hwords hnames)
  obtain ⟨n, written, hreadsAs, hwrite, hcontents⟩ := hlisted'.reads
  have hvalid : n.isValid = true := by
    rw [htree] at hflawless
    have helement := hflawless.get (get?_set_child hget _)
    exact hreadsAs.valid (isValid_of_flawless _ ((getsObject_setStyleObject ho _).flawless helement))
  obtain ⟨tree', v', hparse', hv', hnode⟩ :=
    reread_of_readsSame hreads hclear hv ho hcontents (hreadsAs.write.trans hwrite) hvalid
  have hcode : ((Command.updateStyles id styles).run tree).tree.write =
      (tree.set v.path (v.node.withAttributes (setStyleObject v.node.attributes n))).write := by
    obtain ⟨pre, post, haround⟩ := write_around_attributes v.node hfound.element
    rw [htree]
    refine write_set_congr hget (by rw [kind_withAttributes]; exact hfound.markup) ?_
    rw [haround, haround, writeAll_setStyleObject ho hreadsAs.write]
  rw [hcode]
  exact ⟨tree', hparse', d, getStyles_of_reads hv' ho hnode hreadsAs hlisted'.kind hd,
    get?_changed hwords (nodup_ofPairs _) hchanges hsingle hd⟩

/-- An element with a style that is to change and one that is to go, after a quote that ends no string on its line. -/
def styledText : String := "q = /'/;\nx = <p data-editable=\"p\" style=\x7b\x7b color: 'red', margin: 0 \x7d\x7d />;"

/-- The text after the update. -/
def restyledText : String := "q = /'/;\nx = <p data-editable=\"p\" style=\x7b\x7b color: 'it\\'s', lineHeight: 2 \x7d\x7d />;"

theorem styledText_survives : ∃ edited tree d,
    (editText styledText (updateStyles · "p" restyling)).result = .ok edited ∧
      edited.code = some restyledText ∧
      Source.parse restyledText = .ok tree ∧
      getStyles tree "p" = .ok (some d) ∧
      ∀ e ∈ Dict.rename Text.camelCase restyling, d.get? e.1 = if isRemoval e.2 then none else some e.2 := by
  obtain ⟨tree, v, hparse, hv, hrun⟩ : ∃ tree v, Source.parse styledText = .ok tree ∧ tree.findId "p" = .ok (some v) ∧
      (decide (v.node.start.toOption = some (some 13) ∧ v.node.stop.toOption = some (some 72)) && tree.write == styledText &&
        (styleTarget v.node).all fun o => decide ('\n' ∉ o.kind.closing.toList) &&
        (Dict.rename Text.camelCase restyling).all fun e => decide ((named e.1 o.children).length ≤ 1)) = true :=
    exists_found (by decide +kernel)
  rw [Bool.and_eq_true, Bool.and_eq_true, beq_iff_eq, decide_eq_true_eq] at hrun
  obtain ⟨⟨⟨hstart, hstop⟩, hwrite⟩, hrun⟩ := hrun
  have hclear : IsClear styledText "p" :=
    isClear_of_spans hparse hv ⟨by decide, eq_ok_of_toOption hstart, eq_ok_of_toOption hstop⟩ (by decide +kernel)
  obtain ⟨edited, hedited, hcode⟩ := exists_ok_of_any (r := (editText styledText (updateStyles · "p" restyling)).result)
    (p := fun edited => edited.code == some restyledText)
    (by decide +kernel)
  have hnames : (Dict.rename Text.camelCase restyling).all (fun e => isRemoval e.2 ||
      decide (Text.nameLength? .identifier e.1.toList = some e.1.toList.length)) = true := by decide +kernel
  obtain ⟨tree', hparse', d, hd, hget⟩ := styles_survive_writing hparse (readsSame_of_write hparse hwrite)
    (hwrite.symm ▸ hclear)
    (List.forall_mem_cons.mpr ⟨.inr rfl, List.forall_mem_cons.mpr ⟨.inl rfl, List.forall_mem_singleton.mpr (.inr rfl)⟩⟩)
    (fun e he hgiven => by
      have hname := List.all_eq_true.mp hnames e he
      rw [hgiven, Bool.false_or, decide_eq_true_eq] at hname
      exact .inl hname)
    (fun v₁ o hv₁ ho => by
      obtain rfl := Option.some.inj (Except.ok.inj (hv.symm.trans hv₁))
      rw [ho, Option.all_some, Bool.and_eq_true] at hrun
      exact ⟨.inr (.inl (of_decide_eq_true hrun.1)), fun e he => of_decide_eq_true (List.all_eq_true.mp hrun.2 e he)⟩)
    hedited (beq_iff_eq.mp hcode)
  exact ⟨edited, tree', d, hedited, beq_iff_eq.mp hcode, hparse', hd, hget⟩

end Edit
end JsxEdit
