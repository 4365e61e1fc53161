import JsxEdit.Proofs.Identity

/-
What edits need of a class of documents so as not to lead out of it.

A discipline says which documents, which nodes between tags, which attributes and which values of attributes are in
order, and that the few things edits do to them keep them so: giving markup other children, opening and closing it,
merging and indenting white space, copying, renaming, and setting attributes. From these laws it follows what each way
of putting nodes into a tree and taking them out of it does.
-/
set_option autoImplicit false

namespace JsxEdit

open Edit (isMarkupPlace Found)

/-- A class of documents with the laws that edits rely on. -/
structure Discipline where
  /-- The documents in order. -/
  Whole : Node → Prop
  /-- What may stand between tags. -/
  Child : Node → Prop
  /-- What may stand among attributes. -/
  Attr : Node → Prop
  /-- What may be the value of an attribute. -/
  Value : Node → Prop
  /-- Tag names that may be given. -/
  TagName : String → Prop
  /-- Names of attributes that may be added. -/
  AttrName : String → Prop
  /-- Whether styles may be changed. -/
  Styled : Prop
  child_at {tree m : Node} {p : Path} : Whole tree → tree.get? p = some m → m.kind.isMarkup = true → Child m
  whole_set {tree m m' : Node} {p : Path} : Whole tree → tree.get? p = some m → m.kind.isMarkup = true → Child m' →
    m'.kind.isMarkup = true → Whole (tree.set p m')
  child_of {n c : Node} : Child n → n.kind.isMarkup = true → c ∈ n.children → Child c
  withChildren {n : Node} {cs : List Node} : Child n → n.kind.isMarkup = true → (n.children = [] → cs = []) →
    (∀ c ∈ cs, Child c) → Child (n.withChildren cs)
  adopted {n : Node} {cs : List Node} : Child n → n.kind.isMarkup = true → (∀ c ∈ cs, Child c) →
    Child (n.opened.withChildren cs)
  closed {n : Node} : Child n → n.kind.isElement = true → n.children = [] → Child n.closed
  renamed {n : Node} {name : String} : Child n → TagName name → Child (Edit.renamed name n)
  blank {s : String} : Text.isBlank s = true → Child (.text s)
  reblanked {n : Node} {s t : String} : Child n → n.kind = .text s → Text.isBlank t = true →
    Child (n.withKind (.text t))
  text (s : String) : Child (Build.text s)
  retexted {n : Node} {s old : String} {new : List Node} : Child n →
    Edit.replaceText s n = .ok (some (new, old)) → ∀ c ∈ new, Child c
  copied {n : Node} : Child n → Child n.copy
  withMark {n : Node} {mark : Option Nat} : Child n → Child (n.withMark mark)
  reindented {n : Node} {s : String} : Child n → Text.isBlank s = true → Child (Indent.reindent s n)
  attr_of {n a : Node} : Child n → n.kind.isElement = true → a ∈ n.attributes → Attr a
  withAttributes {n : Node} {as : List Node} : Child n → n.kind.isElement = true → (∀ a ∈ as, Attr a) →
    Child (n.withAttributes as)
  attr_new {name : String} {v : Option Node} : AttrName name → (∀ x ∈ v, Value x) → Attr (.attr name v)
  attr_value {a : Node} {name : String} {v : Option Node} : Attr a → a.kind.isAttr name = true → (∀ x ∈ v, Value x) →
    Attr (a.withChildren v.toList)
  className : AttrName Edit.classAttribute
  quoted {s : String} {k : Kind} : Literal.attributeString s "\"" = .ok k → Value (.new k [])
  styled {n object : Node} {styles : Dict (JsxEdit.Value Node)} {changes : List Edit.StyleChange} : Styled → Child n →
    n.kind.isElement = true → Edit.styleTarget n = some object → Edit.styleChanges styles = .ok changes →
    ∀ a ∈ Edit.setStyleObject n.attributes (changes.foldl Edit.changeStyle object), Attr a

/-- A computation that ends well goes well step by step. -/
theorem bind_eq_ok {α β : Type} {x : Except Fault α} {f : α → Except Fault β} {b : β} (h : (x >>= f) = .ok b) :
    ∃ a, x = .ok a ∧ f a = .ok b := by
  cases x with
  | error e => cases h
  | ok a => exact ⟨a, rfl, h⟩

/-! ## White space -/

namespace Text

theorem isBlank_append {s t : String} (hs : isBlank s = true) (ht : isBlank t = true) : isBlank (s ++ t) = true := by
  rw [isBlank, String.toList_append, List.all_append]
  exact Bool.and_eq_true_iff.mpr ⟨hs, ht⟩

theorem isBlank_lead (s : String) : isBlank (lead s) = true := by
  rw [isBlank, lead, String.toList_ofList]
  exact List.all_takeWhile

theorem isBlank_repeated (n : Nat) : isBlank (repeated " " n) = true := by
  induction n with
  | zero => rfl
  | succ n ih => exact isBlank_append rfl ih

theorem isBlank_trail (s : String) : isBlank (trail s) = true := by
  rw [isBlank, trail, String.toList_ofList, List.all_reverse]
  exact List.all_takeWhile

theorem isBlank_drop {s : String} (n : Nat) (h : isBlank s = true) : isBlank (.ofList (s.toList.drop n)) = true := by
  rw [isBlank, String.toList_ofList, List.all_eq_true]
  intro c hc
  exact List.all_eq_true.mp h c (List.mem_of_mem_drop hc)

/-- White space stays white space if more of it is put after the line feeds. -/
theorem isBlank_replace_feed {s t : String} (hs : isBlank s = true) (ht : isBlank t = true) :
    isBlank (replace s "\n" ("\n" ++ t)) = true := by
  have hreplace : replace s "\n" ("\n" ++ t) = .ofList (s.toList.flatMap (substitute '\n' ("\n" ++ t).toList)) :=
    replace_singleton s '\n' ("\n" ++ t)
  have hfeed : isBlank ("\n" ++ t) = true := isBlank_append rfl ht
  rw [hreplace, isBlank, String.toList_ofList, List.all_flatMap, List.all_eq_true]
  intro c hc
  unfold substitute
  split
  · exact hfeed
  · simpa using List.all_eq_true.mp hs c hc

end Text

namespace Indent

theorem reindentAll_eq_map (s : String) (ns : List Node) :
    reindentAll s ns = ns.map fun n => (reindent s n).withKind (reindentKind s n.kind) := by
  induction ns with
  | nil => rfl
  | cons n ns ih => rw [reindentAll, ih, List.map_cons]

theorem isBlank_indentation (tree : Node) (place : Option Path) : Text.isBlank (indentation tree place) = true := by
  unfold indentation
  split
  · rfl
  · exact Text.isBlank_lead _

theorem isBlank_childSpace (width : Int) (tree : Node) (place : Option Path) (parent : Node) :
    Text.isBlank (childSpace width tree place parent) = true := by
  unfold childSpace
  split
  · exact Text.isBlank_append rfl (isBlank_indentation _ _)
  · exact Text.isBlank_append (Text.isBlank_append rfl (isBlank_indentation _ _)) (Text.isBlank_repeated _)

theorem isBlank_siblingSpace (tree : Node) (place : Option Path) : Text.isBlank (siblingSpace tree place) = true := by
  unfold siblingSpace
  split
  · exact Text.isBlank_append rfl (isBlank_indentation _ _)
  · rfl

end Indent

theorem Whitespace.isBlank_heavier {s t : String} (hs : Text.isBlank s = true) (ht : Text.isBlank t = true) :
    Text.isBlank (heavier s t) = true := by
  unfold heavier
  split
  · exact ht
  · exact hs

namespace Node

theorem copyAll_eq_map (ns : List Node) : copyAll ns = ns.map copy := by
  induction ns with
  | nil => rfl
  | cons n ns ih => rw [copyAll, ih, List.map_cons]

/-- A node at a place may as well be replaced by what a change makes of it. -/
theorem modify_eq_set (f : Node → Node) {p : Path} {n m : Node} (h : n.get? p = some m) :
    n.modify f p = n.set p (f m) := by
  rw [set]
  induction p generalizing n with
  | nil =>
    cases h
    rfl
  | cons step p ih =>
    cases step with
    | child i =>
      rw [get?_child] at h
      obtain ⟨c, hc, h⟩ := Option.bind_eq_some_iff.mp h
      rw [modify_child, modify_child]
      congr 1
      apply List.ext_getElem?
      intro j
      rw [List.getElem?_modify, List.getElem?_modify]
      by_cases hj : i = j
      · subst hj
        simp [hc, ih h]
      · simp [hj]
    | attributes =>
      rw [get?_attributes] at h
      split at h
      · next he => rw [modify_attributes, modify_attributes, if_pos he, if_pos he, ih h]
      · cases h

end Node

namespace Discipline

variable {D : Discipline} {tree : Node}

/-! ## Lists of children -/

theorem merged {ns : List Node} (h : ∀ n ∈ ns, D.Child n) : ∀ n ∈ Node.mergeWhitespace ns, D.Child n := by
  induction ns with
  | nil => exact h
  | cons n ns ih =>
    rw [List.forall_mem_cons] at h
    have hns := ih h.2
    show ∀ m ∈ Node.prepend n (Node.mergeWhitespace ns), D.Child m
    unfold Node.prepend
    split
    · simpa using h.1
    · next m ms hms =>
      rw [hms, List.forall_mem_cons] at hns
      split
      · next s t hs ht =>
        split
        · next hblank =>
          rw [Bool.and_eq_true] at hblank
          have hboth := D.reblanked h.1 hs (Whitespace.isBlank_heavier hblank.1 hblank.2)
          exact List.forall_mem_cons.mpr ⟨hboth, hns.2⟩
        · exact List.forall_mem_cons.mpr ⟨h.1, List.forall_mem_cons.mpr hns⟩
      · exact List.forall_mem_cons.mpr ⟨h.1, List.forall_mem_cons.mpr hns⟩

theorem placed {left right : List Node} {n : Node} (hl : ∀ c ∈ left, D.Child c) (hn : D.Child n)
    (hr : ∀ c ∈ right, D.Child c) : ∀ c ∈ (Edit.placed left n right).children, D.Child c :=
  merged (List.forall_mem_append.mpr ⟨hl, List.forall_mem_cons.mpr ⟨hn, hr⟩⟩)

theorem appended {children : List Node} {space closing : String} {n : Node} (hc : ∀ c ∈ children, D.Child c)
    (hs : Text.isBlank space = true) (he : Text.isBlank closing = true) (hn : D.Child n) :
    ∀ c ∈ (Edit.appended children space closing n).children, D.Child c := by
  have hspace : ∀ c ∈ [Node.text space], D.Child c := List.forall_mem_singleton.mpr (D.blank hs)
  have hclosing : ∀ c ∈ [Node.text closing], D.Child c := List.forall_mem_singleton.mpr (D.blank he)
  unfold Edit.appended
  split
  · next last hlast =>
    split
    · have hmem : last ∈ children := List.mem_of_getLast? hlast
      have hfront : ∀ c ∈ children.dropLast, D.Child c := fun c hm => hc c (List.dropLast_subset children hm)
      exact placed (List.forall_mem_append.mpr ⟨hfront, hspace⟩) hn (List.forall_mem_singleton.mpr (hc last hmem))
    · exact placed (List.forall_mem_append.mpr ⟨hc, hspace⟩) hn hclosing
  · exact placed hspace hn hclosing

theorem appendChild {parent n : Node} (width : Int) (place : Option Path) (hc : ∀ c ∈ parent.children, D.Child c)
    (hn : D.Child n) : ∀ c ∈ (Edit.appendChild width tree place parent n).children, D.Child c :=
  appended hc (Indent.isBlank_childSpace _ _ _ _) (Text.isBlank_append rfl (Indent.isBlank_indentation _ _)) hn

theorem prependChild {parent n : Node} (width : Int) (place : Option Path) (hc : ∀ c ∈ parent.children, D.Child c)
    (hn : D.Child n) : ∀ c ∈ (Edit.prependChild width tree place parent n).children, D.Child c := by
  unfold Edit.prependChild
  split
  · exact appendChild width place hc hn
  · exact placed (List.forall_mem_singleton.mpr (D.blank (Indent.isBlank_childSpace _ _ _ _))) hn hc

theorem mem_fillSignificant {ns new : List Node} : ∀ m ∈ Edit.fillSignificant ns new, m ∈ ns ∨ m ∈ new := by
  induction ns generalizing new with
  | nil => exact fun m hm => nomatch hm
  | cons n ns ih =>
    intro m hm
    unfold Edit.fillSignificant at hm
    split at hm
    · rcases List.mem_cons.mp hm with rfl | hm
      · exact .inl List.mem_cons_self
      · exact (ih m hm).imp_left (List.mem_cons_of_mem n)
    · split at hm
      · rcases List.mem_cons.mp hm with rfl | hm
        · exact .inl List.mem_cons_self
        · exact (ih m hm).imp_left (List.mem_cons_of_mem n)
      · next new =>
        rcases List.mem_cons.mp hm with rfl | hm
        · exact .inr List.mem_cons_self
        · exact (ih m hm).imp (List.mem_cons_of_mem n) (List.mem_cons_of_mem _)

/-! ## Changes at a place -/

/-- Markup at a place may be replaced by other markup in order. -/
theorem modify {f : Node → Node} {p : Path} {m : Node} (h : D.Whole tree) (hm : tree.get? p = some m)
    (hmarkup : m.kind.isMarkup = true) (hf : D.Child (f m)) (hkind : (f m).kind.isMarkup = true) :
    D.Whole (tree.modify f p) := by
  rw [Node.modify_eq_set f hm]
  exact D.whole_set h hm hmarkup hf hkind

/-- A found element is in order, unless it is at no place of the tree and stays as it is. -/
theorem modify_found {f : Node → Node} {id : String} {v : Visit} (h : D.Whole tree) (hv : Found tree id v)
    (hf : D.Child v.node → D.Child (f v.node) ∧ (f v.node).kind.isMarkup = true) : D.Whole (tree.modify f v.path) := by
  cases hm : tree.get? v.path with
  | none =>
    rw [Node.modify_of_get?_none f hm]
    exact h
  | some m =>
    obtain rfl := hv.eq_node hm
    obtain ⟨hchild, hkind⟩ := hf (D.child_at h hm hv.markup)
    exact modify h hm hv.markup hchild hkind

/-- The children of markup may be replaced by others in order, as long as markup without children gets none. -/
theorem modifyChildren {f : List Node → List Node} {p : Path} (h : D.Whole tree) (hp : isMarkupPlace tree p = true)
    (hf : ∀ m, tree.get? p = some m → (∀ c ∈ m.children, D.Child c) →
      (m.children = [] → f m.children = []) ∧ ∀ c ∈ f m.children, D.Child c) :
    D.Whole (tree.modifyChildren f p) := by
  rw [isMarkupPlace] at hp
  cases hm : tree.get? p with
  | none =>
    rw [hm] at hp
    cases hp
  | some m =>
    rw [hm] at hp
    have hmarkup : m.kind.isMarkup = true := hp
    have hchild := D.child_at h hm hmarkup
    obtain ⟨hempty, hall⟩ := hf m hm fun c hc => D.child_of hchild hmarkup hc
    refine modify h hm hmarkup (D.withChildren hchild hmarkup hempty hall) ?_
    rw [Node.kind_withChildren]
    exact hmarkup

/-- Markup takes in children, and is opened for them. -/
theorem adopt {p : Path} {m : Node} {children : List Node} (h : D.Whole tree) (hm : tree.get? p = some m)
    (hmarkup : m.kind.isMarkup = true) (hc : ∀ c ∈ children, D.Child c) : D.Whole (Edit.adopt tree p children) := by
  refine modify h hm hmarkup (D.adopted (D.child_at h hm hmarkup) hmarkup hc) ?_
  rw [Node.kind_withChildren, Node.isMarkup_opened]
  exact hmarkup

theorem detach {p : Path} (h : D.Whole tree) (hp : isMarkupPlace tree p = true) (i : Nat) :
    D.Whole (tree.modifyChildren (Edit.detach · i) p) := by
  refine modifyChildren h hp fun m _ hc => ?_
  have hsub := Edit.detach_sublist m.children i
  refine ⟨fun hempty => ?_, fun c hm => hc c (hsub.subset hm)⟩
  rw [hempty] at hsub ⊢
  exact List.sublist_nil.mp hsub

/-- Taking nodes out one after the other. The invariant is that every place that is left is, by now, a place in
markup. -/
theorem detachAll (ps : List Path) {moved : Path → Option Path} (h : D.Whole tree)
    (hps : ∀ p ∈ ps, ∀ q, moved p = some q → Edit.InMarkup tree q) : D.Whole (Edit.detachAll tree moved ps).1 := by
  induction ps generalizing tree moved with
  | nil => exact h
  | cons p ps ih =>
    have hrest : ∀ p ∈ ps, ∀ q, moved p = some q → Edit.InMarkup tree q := fun p' hp' =>
      hps p' (List.mem_cons_of_mem p hp')
    rw [Edit.detachAll]
    split
    · split
      · exact h
      · exact ih h hrest
    · next q hq =>
      obtain ⟨r, i, rfl, hr⟩ := hps p List.mem_cons_self q hq
      rw [List.getLast?_concat, List.dropLast_concat]
      refine ih (detach h hr i) fun p' hp' q' hq' => ?_
      obtain ⟨q, hq, hmoved⟩ := Option.bind_eq_some_iff.mp hq'
      exact Edit.inMarkup_afterRemoval (hrest p' hp' q hq) hmoved

/-- Moving an element to the end of another. -/
theorem transfer {id id' : String} {v w : Visit} (h : D.Whole tree) (hv : Found tree id v) (hw : Found tree id' w)
    (hp : isMarkupPlace tree v.parent = true) (width : Int) : D.Whole (Edit.transfer width tree v w).1 := by
  have hnode : D.Child v.node := D.child_at h (hv.get?_of_isMarkupPlace hp) hv.markup
  have hout := detach h hp v.index
  unfold Edit.transfer
  dsimp only
  split
  · exact hout
  · next place parent hplace =>
    obtain ⟨q, hq, hget⟩ := Option.bind_eq_some_iff.mp hplace
    obtain ⟨m, hm, hpair⟩ := Option.map_eq_some_iff.mp hget
    cases hpair
    split
    · exact hout
    · -- the place of the destination has moved with the removal, but leads to a node of the same kind
      have hmarkup : parent.kind.isMarkup = true := by
        have hk := Edit.kind_afterRemoval hq
        rw [hm] at hk
        cases hx : tree.get? w.path with
        | none =>
          rw [hx] at hk
          cases hk
        | some x =>
          rw [hx, Option.map_some, Option.map_some, Option.some.injEq] at hk
          rw [hk, hw.eq_node hx]
          exact hw.markup
      have hparent := D.child_at hout hm hmarkup
      exact adopt hout hm hmarkup (appendChild width _ (fun c hc => D.child_of hparent hmarkup hc) hnode)

/-- Two elements beside each other exchange their places. -/
theorem swap {id id' : String} {v w : Visit} (h : D.Whole tree) (hv : Found tree id v) (hw : Found tree id' w)
    (hpv : isMarkupPlace tree v.parent = true) (hpw : isMarkupPlace tree w.parent = true)
    (hvw : ¬v.path <+: w.path) (hwv : ¬w.path <+: v.path) :
    D.Whole ((tree.set v.path w.node).set w.path v.node) := by
  have hgv := hv.get?_of_isMarkupPlace hpv
  have hgw := hw.get?_of_isMarkupPlace hpw
  have hgw' : (tree.set v.path w.node).get? w.path = some w.node := by
    rw [Node.set, Node.get?_modify_of_disjoint _ hvw hwv, hgw]
  have hfirst := D.whole_set h hgv hv.markup (D.child_at h hgw hw.markup) hw.markup
  exact D.whole_set hfirst hgw' hw.markup (D.child_at h hgv hv.markup) hv.markup

/-! ## Inserting -/

theorem insertInside {place : Path} {parent n : Node} (h : D.Whole tree) (hm : tree.get? place = some parent)
    (hmarkup : parent.kind.isMarkup = true) (first : Bool) (width : Int) (hn : D.Child n) :
    D.Whole (Edit.insertInside tree place parent first width n).1 := by
  have hc : ∀ c ∈ parent.children, D.Child c := fun c hc => D.child_of (D.child_at h hm hmarkup) hmarkup hc
  have hn' := D.reindented hn (Text.isBlank_drop 1 (Indent.isBlank_childSpace width tree (some place) parent))
  unfold Edit.insertInside
  refine adopt h hm hmarkup ?_
  split
  · exact prependChild width _ hc hn'
  · exact appendChild width _ hc hn'

theorem insertBeside {id : String} {v : Visit} {n : Node} (h : D.Whole tree) (hv : Found tree id v)
    (hp : isMarkupPlace tree v.parent = true) (after : Bool) (hn : D.Child n) :
    D.Whole (Edit.insertBeside tree v after n).1 := by
  have hspace := Indent.isBlank_siblingSpace tree (some v.path)
  have hn' := D.reindented hn (Text.isBlank_drop 1 hspace)
  unfold Edit.insertBeside
  dsimp only
  refine modifyChildren h hp fun m hm hc => ⟨fun hempty => ?_, ?_⟩
  · have hmem := List.mem_of_getElem? (hv.among hm)
    rw [hempty] at hmem
    cases hmem
  · have hsiblings : ((tree.get? v.parent).map (·.children)).getD [] = m.children := by rw [hm]; rfl
    rw [hsiblings]
    have htake : ∀ i, ∀ c ∈ m.children.take i, D.Child c := fun i c hmem => hc c (List.mem_of_mem_take hmem)
    have hdrop : ∀ i, ∀ c ∈ m.children.drop i, D.Child c := fun i c hmem => hc c (List.mem_of_mem_drop hmem)
    have hgap : ∀ c ∈ if (Indent.siblingSpace tree (some v.path)).isEmpty then []
        else [Node.text (Indent.siblingSpace tree (some v.path))], D.Child c := by
      split
      · exact fun c hmem => nomatch hmem
      · exact List.forall_mem_singleton.mpr (D.blank hspace)
    split
    · exact placed (List.forall_mem_append.mpr ⟨htake _, hgap⟩) hn' (hdrop _)
    · exact placed (htake _) hn' (List.forall_mem_append.mpr ⟨hgap, hdrop _⟩)

theorem unwrapAt {id : String} {v : Visit} (h : D.Whole tree) (hv : Found tree id v)
    (hp : isMarkupPlace tree v.parent = true) : D.Whole (Edit.unwrapAt tree v) := by
  have hnode : D.Child v.node := D.child_at h (hv.get?_of_isMarkupPlace hp) hv.markup
  refine modifyChildren h hp fun m hm hc => ⟨fun hempty => ?_, merged ?_⟩
  · have hmem := List.mem_of_getElem? (hv.among hm)
    rw [hempty] at hmem
    cases hmem
  · rw [List.forall_mem_append, List.forall_mem_append]
    exact ⟨⟨fun c hmem => hc c (List.mem_of_mem_take hmem), fun c hmem => D.child_of hnode hv.markup hmem⟩,
      fun c hmem => hc c (List.mem_of_mem_drop hmem)⟩

/-! ## Attributes -/

theorem listModify {P : Node → Prop} {f : Node → Node} {as : List Node} {i : Nat} {a : Node} (h : ∀ x ∈ as, P x)
    (ha : as[i]? = some a) (hf : P a → P (f a)) : ∀ x ∈ as.modify i f, P x := by
  intro x hx
  obtain ⟨j, hj⟩ := List.mem_iff_getElem?.mp hx
  rw [List.getElem?_modify] at hj
  split at hj
  · next hij =>
    subst hij
    rw [ha] at hj
    cases hj
    exact hf (h a (List.mem_of_getElem? ha))
  · exact h x (List.mem_of_getElem? (by simpa using hj))

theorem attr_at {as : List Node} {name : String} {i : Nat} {v : Option Node} (h : ∀ a ∈ as, D.Attr a)
    (hi : Node.attrIndex? as name = some i) (hv : ∀ x ∈ v, D.Value x) :
    ∀ a ∈ as.modify i (·.withChildren v.toList), D.Attr a := by
  obtain ⟨a, ha, hname⟩ := Node.attrIndex?_some hi
  exact listModify h ha fun hattr => D.attr_value hattr hname hv

theorem attr_add {as : List Node} {name : String} {v : Option Node} (h : ∀ a ∈ as, D.Attr a) (hname : D.AttrName name)
    (hv : ∀ x ∈ v, D.Value x) : ∀ a ∈ as ++ [.attr name v], D.Attr a :=
  List.forall_mem_append.mpr ⟨h, List.forall_mem_singleton.mpr (D.attr_new hname hv)⟩

theorem attr_erase {as : List Node} {i : Nat} (h : ∀ a ∈ as, D.Attr a) : ∀ a ∈ as.eraseIdx i, D.Attr a :=
  fun a ha => h a (List.mem_of_mem_eraseIdx ha)

/-- The value gives nodes that may be values of attributes. -/
def Gives (D : Discipline) (v : JsxEdit.Value Node) : Prop :=
  ∀ w, Build.attributeValue v = .ok w → ∀ x ∈ w, D.Value x

theorem setAttribute {as : List Node} {name : String} {v : JsxEdit.Value Node} {result : List Node × JsxEdit.Value Node}
    (h : ∀ a ∈ as, D.Attr a) (hname : D.AttrName name) (hv : D.Gives v)
    (hs : Edit.setAttribute as name v = .ok result) : ∀ a ∈ result.1, D.Attr a := by
  unfold Edit.setAttribute at hs
  split at hs
  · split at hs
    · cases hs
      exact h
    · obtain ⟨w, hw, hs⟩ := bind_eq_ok hs
      cases hs
      exact attr_add h hname (hv w hw)
  · next i hi =>
    obtain ⟨old, -, hs⟩ := bind_eq_ok hs
    split at hs
    · cases hs
      exact attr_erase h
    · obtain ⟨w, hw, hs⟩ := bind_eq_ok hs
      cases hs
      exact attr_at h hi (hv w hw)

theorem setAttributes {as : List Node} {values old : Dict (JsxEdit.Value Node)} (h : ∀ a ∈ as, D.Attr a)
    (hv : ∀ e ∈ values, D.AttrName e.1 ∧ D.Gives e.2) : ∀ a ∈ (Edit.setAttributes as old values).1, D.Attr a := by
  induction values generalizing as old with
  | nil => exact h
  | cons e rest ih =>
    rw [List.forall_mem_cons] at hv
    rw [Edit.setAttributes]
    split
    · exact h
    · next hs => exact ih (setAttribute h hv.1.1 hv.1.2 hs) hv.2

theorem setClassNames {as result : List Node} {names : List String} (h : ∀ a ∈ as, D.Attr a)
    (hs : Edit.setClassNames as names = .ok result) : ∀ a ∈ result, D.Attr a := by
  unfold Edit.setClassNames at hs
  dsimp only at hs
  split at hs
  · cases hs
    cases Node.attrIndex? as Edit.classAttribute with
    | none => exact h
    | some i => exact attr_erase h
  · obtain ⟨k, hk, hs⟩ := bind_eq_ok hs
    have hvalue : ∀ x ∈ some (Node.new k []), D.Value x := by
      intro x hx
      cases hx
      exact D.quoted hk
    split at hs
    · cases hs
      exact attr_add h D.className hvalue
    · next i hi =>
      cases hs
      exact attr_at h hi hvalue

end Discipline
end JsxEdit
