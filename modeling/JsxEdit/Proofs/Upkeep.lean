import JsxEdit.Proofs.Discipline

/-
Every edit keeps every discipline, if what it brings into the tree is in order.

This holds whether the edit succeeds, fails or ends with a fault, so a document stays in order through every run of
edits.
-/
set_option autoImplicit false

namespace JsxEdit.Discipline

open Edit (Request Command isMarkupPlace findId_some)

variable (D : Discipline)

/-- What the request resolves to may stand between tags. -/
def Serves (r : Request) : Prop :=
  ∀ n log, Template.resolve r.registry r.spec r.options = .ok (n, log) → D.Child n

/-- The nodes among the values for new children may stand between tags. -/
def Fills (children : JsxEdit.Value Node) : Prop :=
  ∀ vs, Template.items children = .ok vs → ∀ n, .node n ∈ vs → D.Child n

/-- What a command brings into the tree is in order. -/
def Respects : Command → Prop
  | .insert _ _ request => D.Serves request
  | .insertAtRoot _ _ request => D.Serves request
  | .updateAttribute _ name value => (∀ s, name = .str s → isAttrName s = true → D.AttrName s) ∧ D.Gives value
  | .updateAttributes _ values => ∀ e ∈ values, (isAttrName e.1 = true → D.AttrName e.1) ∧ D.Gives e.2
  | .updateTagName _ name => ∀ s, name = .str s → isTagName s = true → D.TagName s
  | .replaceChildren _ children => D.Fills children
  | .updateStyles .. | .setSpacing .. | .setMargin .. | .setPadding .. => D.Styled
  | _ => True

variable {D} {tree : Node} (h : D.Whole tree)

omit h in
theorem fresh {n : Node} (hn : D.Child n) : D.Child (Edit.fresh tree n) := by
  unfold Edit.fresh
  split
  · exact D.copied hn
  · exact hn

omit h in
theorem newNode {r : Request} {n : Node} {log : List Record} (hr : D.Serves r) (hn : Edit.newNode tree r = .ok (n, log)) :
    D.Child n := by
  unfold Edit.newNode at hn
  split at hn
  · cases hn
  · cases hn
  · next node _ hresolve =>
    split at hn
    · cases hn
    · cases hn
      have hfresh : D.Child (Edit.fresh tree node) := fresh (hr node _ hresolve)
      unfold Edit.marked
      split
      · exact hfresh
      · exact D.withMark hfresh
    · cases hn

include h

/-! ## Inserting and removing -/

/-- A found element takes in a node, wherever it is. -/
theorem insertInside_found {id : String} {v : Visit} {n : Node} (hv : Edit.Found tree id v) (first : Bool) (width : Int)
    (hn : D.Child n) : D.Whole (Edit.insertInside tree v.path v.node first width n).1 := by
  cases hm : tree.get? v.path with
  | none =>
    rw [Edit.insertInside, Edit.adopt, Node.modify_of_get?_none _ hm]
    exact h
  | some m =>
    obtain rfl := hv.eq_node hm
    exact insertInside h hm hv.markup first width hn

theorem insert (id position : String) {r : Request} (hr : D.Serves r) :
    D.Whole (Edit.insert tree id position r).tree := by
  unfold Edit.insert
  split
  · exact h
  · next pos _ =>
    split
    · exact h
    · exact h
    · next v hv =>
      have hv := findId_some hv
      split
      · exact h
      · next hplace =>
        split
        · next hn =>
          rw [Edit.newNode_error hn]
          exact h
        · next n log hn =>
          have hn := newNode hr hn
          dsimp only
          split
          · next hsibling =>
            have hp : isMarkupPlace tree v.parent = true := by simpa [hsibling] using hplace
            exact insertBeside h hv hp _ hn
          · exact insertInside_found h hv _ _ hn

theorem insertAtRoot (position : String) (component : Option String) {r : Request} (hr : D.Serves r) :
    D.Whole (Edit.insertAtRoot tree position component r).tree := by
  unfold Edit.insertAtRoot
  split
  · exact h
  · split
    · exact h
    · exact h
    · next v hv =>
      obtain ⟨hmarkup, hplace⟩ := Edit.root_some hv
      split
      · next hn =>
        rw [Edit.newNode_error hn]
        exact h
      · next n log hn => exact insertInside h hplace hmarkup _ _ (newNode hr hn)

theorem remove (id : String) (keepChildren : Bool) : D.Whole (Edit.remove tree id keepChildren).tree := by
  unfold Edit.remove
  split
  · exact h
  · exact h
  · next v hv =>
    split
    · exact h
    · next hp =>
      have hp : isMarkupPlace tree v.parent = true := by simpa using hp
      dsimp only
      split
      · exact unwrapAt h (findId_some hv) hp
      · exact detach h hp v.index

theorem removeAll (ids : List String) : D.Whole (Edit.removeAll tree ids).tree := by
  unfold Edit.removeAll
  split
  · exact h
  · next t ht =>
    split
    · have hall : D.Whole (Edit.detachAll tree some (t.visits.map (·.path)).reverse).1 := by
        refine detachAll _ h fun p hp q hq => ?_
        obtain ⟨v, hv, rfl⟩ := List.mem_map.mp (List.mem_reverse.mp hp)
        cases hq
        exact ⟨v.parent, v.index, rfl, Edit.targets_inMarkup ht v hv⟩
      dsimp only
      split
      all_goals
        next hd =>
          rw [hd] at hall
          exact hall
    · exact h

theorem clearChildren (id : String) : D.Whole (Edit.clearChildren tree id).tree := by
  unfold Edit.clearChildren
  split
  · exact h
  · exact h
  · next v hv =>
    have hv := findId_some hv
    refine modify_found h hv fun hchild => ?_
    have hbare : D.Child (v.node.withChildren []) :=
      D.withChildren hchild hv.markup (fun _ => rfl) fun c hc => nomatch hc
    unfold Edit.cleared
    dsimp only
    split
    · split
      · refine ⟨D.closed hbare (by rw [Node.kind_withChildren]; exact hv.element) (Node.children_withChildren _ _), ?_⟩
        rw [Node.isMarkup_closed, Node.kind_withChildren]
        exact hv.markup
      · exact ⟨hbare, by rw [Node.kind_withChildren]; exact hv.markup⟩
    · exact ⟨hbare, by rw [Node.kind_withChildren]; exact hv.markup⟩

/-! ## Updating -/

omit h in
theorem replaceFirstText {s old : String} {ns new : List Node} (hns : ∀ n ∈ ns, D.Child n)
    (hr : Edit.replaceFirstText s ns = .ok (some (new, old))) : ns ≠ [] ∧ ∀ n ∈ new, D.Child n := by
  induction ns generalizing new with
  | nil => cases hr
  | cons n ns ih =>
    refine ⟨List.cons_ne_nil n ns, ?_⟩
    rw [List.forall_mem_cons] at hns
    rw [Edit.replaceFirstText] at hr
    obtain ⟨found, htext, hr⟩ := bind_eq_ok hr
    cases found with
    | some pair =>
      cases hr
      exact List.forall_mem_append.mpr ⟨D.retexted hns.1 htext, hns.2⟩
    | none =>
      obtain ⟨rest, hrest, hr⟩ := bind_eq_ok hr
      cases rest with
      | none => cases hr
      | some pair =>
        cases hr
        exact List.forall_mem_cons.mpr ⟨hns.1, (ih hns.2 hrest).2⟩

theorem addText {id s : String} {v : Visit} {tree' : Node} (hv : Edit.Found tree id v)
    (ht : Edit.addText tree v s = .ok tree') : D.Whole tree' := by
  cases hm : tree.get? v.path with
  | none =>
    have hsame : ∀ cs, Edit.adopt tree v.path cs = tree := fun cs => Node.modify_of_get?_none _ hm
    unfold Edit.addText at ht
    dsimp only at ht
    split at ht
    · obtain ⟨_, -, ht⟩ := bind_eq_ok ht
      cases ht
      rw [hsame]
      exact h
    · cases ht
      rw [hsame]
      exact h
  | some m =>
    obtain rfl := hv.eq_node hm
    have hc : ∀ c ∈ v.node.children, D.Child c := fun c hc => D.child_of (D.child_at h hm hv.markup) hv.markup hc
    unfold Edit.addText at ht
    dsimp only at ht
    split at ht
    · obtain ⟨_, -, ht⟩ := bind_eq_ok ht
      cases ht
      exact adopt h hm hv.markup (appendChild _ _ hc (D.text s))
    · cases ht
      exact adopt h hm hv.markup (List.forall_mem_append.mpr ⟨hc, List.forall_mem_singleton.mpr (D.text s)⟩)

theorem updateText (id s : String) : D.Whole (Edit.updateText tree id s).tree := by
  unfold Edit.updateText
  split
  · exact h
  · exact h
  · next v hv =>
    have hv := findId_some hv
    dsimp only
    split
    · exact h
    · next hr =>
      refine modify_found h hv fun hchild => ?_
      obtain ⟨hne, hall⟩ := replaceFirstText (fun c hc => D.child_of hchild hv.markup hc) hr
      exact ⟨D.withChildren hchild hv.markup (fun hempty => absurd hempty hne) hall,
        by rw [Node.kind_withChildren]; exact hv.markup⟩
    · split
      · exact h
      · next ht => exact addText h hv ht

/-- The attributes of a found element may be replaced by others in order. -/
theorem modify_attributes {id : String} {v : Visit} {f : Node → List Node} (hv : Edit.Found tree id v)
    (hf : D.Child v.node → (∀ a ∈ v.node.attributes, D.Attr a) → ∀ a ∈ f v.node, D.Attr a) :
    D.Whole (tree.modify (fun n => n.withAttributes (f n)) v.path) := by
  refine modify_found h hv fun hchild => ⟨?_, by rw [Node.kind_withAttributes]; exact hv.markup⟩
  exact D.withAttributes hchild hv.element (hf hchild fun a ha => D.attr_of hchild hv.element ha)

theorem updateAttribute (id : String) (name : JsxEdit.Value Node) {v : JsxEdit.Value Node}
    (hname : ∀ s, name = .str s → isAttrName s = true → D.AttrName s) (hvalue : D.Gives v) :
    D.Whole (Edit.updateAttribute tree id name v).tree := by
  unfold Edit.updateAttribute
  split
  · exact h
  · exact h
  · next w hw =>
    dsimp only
    split
    · next s =>
      split
      · exact h
      · next hs =>
        have hs : D.AttrName s := hname s rfl (by simpa using hs)
        split
        · exact h
        · exact h
        · split
          · exact h
          · next as old hset =>
            exact modify_attributes h (f := fun _ => as) (findId_some hw) fun _ ha => setAttribute ha hs hvalue hset
    · exact h

omit h in
/-- Without a problem the names of all attributes are valid. -/
theorem names_of_attributesProblem {place : Path} {values : Dict (JsxEdit.Value Node)}
    (hp : Edit.attributesProblem tree place values = .ok none) : ∀ e ∈ values, isAttrName e.1 = true := by
  induction values with
  | nil => exact fun e he => nomatch he
  | cons e rest ih =>
    rw [Edit.attributesProblem] at hp
    split at hp
    · cases hp
    · next hname =>
      obtain ⟨problem, -, hp⟩ := bind_eq_ok hp
      cases problem with
      | some message => cases hp
      | none => exact List.forall_mem_cons.mpr ⟨by simpa using hname, ih hp⟩

theorem updateAttributes (id : String) {values : Dict (JsxEdit.Value Node)}
    (hv : ∀ e ∈ values, (isAttrName e.1 = true → D.AttrName e.1) ∧ D.Gives e.2) :
    D.Whole (Edit.updateAttributes tree id values).tree := by
  unfold Edit.updateAttributes
  dsimp only
  split
  · exact h
  · exact h
  · next w hw =>
    split
    · exact h
    · exact h
    · next hp =>
      have hnames := names_of_attributesProblem hp
      have hall : ∀ e ∈ values, D.AttrName e.1 ∧ D.Gives e.2 := fun e he => ⟨(hv e he).1 (hnames e he), (hv e he).2⟩
      have hset := modify_attributes h (f := fun _ => (Edit.setAttributes w.node.attributes [] values).1) (findId_some hw)
        fun _ ha => setAttributes ha hall
      split
      · exact hset
      · exact hset

theorem updateTagName (id : String) {name : JsxEdit.Value Node}
    (hname : ∀ s, name = .str s → isTagName s = true → D.TagName s) : D.Whole (Edit.updateTagName tree id name).tree := by
  unfold Edit.updateTagName
  split
  · exact h
  · exact h
  · next v hv =>
    have hv := findId_some hv
    dsimp only
    split
    · next s =>
      split
      · exact h
      · next hs =>
        refine modify_found h hv fun hchild => ⟨D.renamed hchild (hname s rfl (by simpa using hs)), ?_⟩
        unfold Edit.renamed
        split
        · rw [Node.kind_withKind]
          rfl
        · exact hv.markup
    · exact h

omit h in
theorem newChildren {vs : List (JsxEdit.Value Node)} {nodes : List Node} (hn : Edit.newChildren tree vs = .ok nodes)
    (hv : ∀ n, .node n ∈ vs → D.Child n) : ∀ n ∈ nodes, D.Child n := by
  induction vs generalizing nodes with
  | nil =>
    cases hn
    exact fun n hn => nomatch hn
  | cons v vs ih =>
    rw [Edit.newChildren] at hn
    split at hn
    · cases hn
    · next m hm =>
      have hfirst : D.Child m := by
        unfold Edit.newChild at hm
        split at hm
        · cases hm
          exact D.text _
        · next n =>
          have hchild : D.Child (Edit.fresh tree n) := fresh (hv n List.mem_cons_self)
          split at hm <;> cases hm <;> exact hchild
        · cases hm
      cases hrest : Edit.newChildren tree vs with
      | error bad =>
        rw [hrest] at hn
        cases hn
      | ok rest =>
        rw [hrest] at hn
        cases hn
        exact List.forall_mem_cons.mpr ⟨hfirst, ih hrest fun n hn => hv n (List.mem_cons_of_mem v hn)⟩

theorem replaceChildren (id : String) {children : JsxEdit.Value Node} (hc : D.Fills children) :
    D.Whole (Edit.replaceChildren tree id children).tree := by
  unfold Edit.replaceChildren
  split
  · exact h
  · exact h
  · next v hv =>
    have hv := findId_some hv
    split
    · exact h
    · next vs hvs =>
      split
      · exact h
      · next nodes hnodes =>
        have hnodes := newChildren hnodes (hc vs hvs)
        split
        · exact h
        · refine modify_found h hv fun hchild => ?_
          split
          · exact ⟨D.withChildren hchild hv.markup (fun _ => rfl) (fun c hc => nomatch hc),
              by rw [Node.kind_withChildren]; exact hv.markup⟩
          · exact ⟨D.adopted hchild hv.markup hnodes,
              by rw [Node.kind_withChildren, Node.isMarkup_opened]; exact hv.markup⟩
        · exact h

theorem updateClassNames (id message : String) (change : List String → Option (List String)) :
    D.Whole (Edit.updateClassNames tree id message change).tree := by
  unfold Edit.updateClassNames
  split
  · exact h
  · exact h
  · next v hv =>
    split
    · exact h
    · exact h
    · next as has =>
      refine modify_attributes h (f := fun _ => as) (findId_some hv) fun _ ha => ?_
      unfold Edit.changeClassNames at has
      obtain ⟨names, -, has⟩ := bind_eq_ok has
      split at has
      · cases has
      · split at has
        · cases has
          exact ha
        · obtain ⟨result, hset, has⟩ := bind_eq_ok has
          cases has
          exact setClassNames ha hset

theorem updateStyles (hs : D.Styled) (id : String) (styles : Dict (JsxEdit.Value Node)) :
    D.Whole (Edit.updateStyles tree id styles).tree := by
  unfold Edit.updateStyles
  split
  · exact h
  · exact h
  · next v hv =>
    have hv := findId_some hv
    split
    · exact h
    · next object hobject =>
      split
      · exact h
      · exact h
      · next changes hchanges =>
        have hset := modify_attributes h
          (f := fun n => Edit.setStyleObject n.attributes (changes.foldl Edit.changeStyle object)) hv
          fun hchild _ => D.styled hs hchild hv.element hobject hchanges
        dsimp only
        split
        · exact hset
        · exact hset

theorem updateGiven (hs : D.Styled) (id : String) (styles : Except Fault (Dict (JsxEdit.Value Node))) :
    D.Whole (Edit.updateGiven tree id styles).tree := by
  unfold Edit.updateGiven
  split
  · exact h
  · exact updateStyles h hs id _

theorem clearStyles (id : String) : D.Whole (Edit.clearStyles tree id).tree := by
  unfold Edit.clearStyles
  split
  · exact h
  · exact h
  · next v hv =>
    refine modify_attributes h (f := fun n => (Node.attrIndex? n.attributes Edit.styleAttribute).elim n.attributes
      n.attributes.eraseIdx) (findId_some hv) fun _ ha => ?_
    cases Node.attrIndex? v.node.attributes Edit.styleAttribute with
    | none => exact ha
    | some i => exact attr_erase ha

/-! ## Moving -/

theorem withMovable {id : String} {go : Visit → Reply}
    (hgo : ∀ v, Edit.Found tree id v → isMarkupPlace tree v.parent = true → D.Whole (go v).tree) :
    D.Whole (Edit.withMovable tree id go).tree := by
  unfold Edit.withMovable
  split
  · exact h
  · exact h
  · next v hv =>
    split
    · next hp => exact hgo v (findId_some hv) hp
    · exact h

theorem exchange {v : Visit} (hp : isMarkupPlace tree v.parent = true) (i j : Nat) :
    D.Whole (tree.modifyChildren (Edit.exchange · i j) v.parent) := by
  refine modifyChildren h hp fun m _ hc => ?_
  have hperm := Edit.exchange_perm m.children i j
  exact ⟨fun hempty => (List.perm_nil.mp (hempty ▸ hperm)), fun c hm => hc c (hperm.mem_iff.mp hm)⟩

theorem moveUp (id : String) : D.Whole (Edit.moveUp tree id).tree := by
  refine withMovable h fun v _ hp => ?_
  dsimp only
  split
  · exact h
  · exact exchange h hp _ _

theorem moveDown (id : String) : D.Whole (Edit.moveDown tree id).tree := by
  refine withMovable h fun v _ hp => ?_
  dsimp only
  split
  · exact exchange h hp _ _
  · exact h

/-- The nodes that are no white space exchange their places among themselves. -/
theorem moveItem {v : Visit} (hp : isMarkupPlace tree v.parent = true) {i j : Nat}
    (hj : j < (Edit.significant (Edit.siblings tree v)).length) :
    D.Whole (tree.modifyChildren
      (Edit.fillSignificant · (Edit.moveItem ((Edit.siblings tree v).filter fun n => !n.isWhitespace) i j)) v.parent) := by
  refine modifyChildren h hp fun m hm hc => ⟨fun hempty => by rw [hempty]; rfl, fun c hmem => ?_⟩
  have hs : Edit.siblings tree v = m.children := by rw [Edit.siblings, hm]; rfl
  rw [hs] at hj hmem
  rw [Edit.significant_length] at hj
  rcases mem_fillSignificant c hmem with hmem | hmem
  · exact hc c hmem
  · exact hc c (List.mem_filter.mp ((Edit.moveItem_perm i hj).mem_iff.mp hmem)).1

theorem moveToIndex (id : String) (index : JsxEdit.Value Node) : D.Whole (Edit.moveToIndex tree id index).tree := by
  refine withMovable h fun v _ hp => ?_
  dsimp only
  split
  · exact h
  · next j _ =>
    split
    · next hj =>
      rw [Bool.and_eq_true, decide_eq_true_eq, decide_eq_true_eq] at hj
      exact moveItem h hp (by omega)
    · exact h

theorem moveInto (source destination : String) (width : Int) :
    D.Whole (Edit.moveInto tree source destination width).tree := by
  unfold Edit.moveInto
  split
  · exact h
  · exact h
  · next v hv =>
    split
    · exact h
    · exact h
    · next w hw =>
      split
      · exact h
      · exact h
      · split
        · exact h
        · next hp =>
          have htransfer := transfer h (findId_some hv) (findId_some hw) (by simpa using hp) width
          split
          all_goals
            next ht =>
              rw [ht] at htransfer
              exact htransfer

theorem swapCommand (id id' : String) : D.Whole (Edit.swap tree id id').tree := by
  unfold Edit.swap
  split
  · exact h
  · exact h
  · next v hv =>
    split
    · exact h
    · exact h
    · next w hw =>
      split
      · exact h
      · next hpv =>
        split
        · exact h
        · next hpw =>
          split
          · exact h
          · next hne =>
            split
            · exact h
            · exact h
            · next hbelow =>
              cases hvw : Edit.isBelow v w with
              | error f =>
                rw [hvw] at hbelow
                cases hbelow
              | ok below =>
                rw [hvw] at hbelow
                cases below with
                | true => cases hbelow
                | false =>
                  have hne : (v.path == w.path) = false := by simpa using hne
                  have hne' : (w.path == v.path) = false := by
                    rw [beq_eq_false_iff_ne] at hne ⊢
                    exact hne.symm
                  exact swap h (findId_some hv) (findId_some hw) (by simpa using hpv) (by simpa using hpw)
                    (Edit.not_prefix_of_isBelow hne hvw) (Edit.not_prefix_of_isBelow hne' hbelow)

/-! ## Runs -/

/-- One edit leaves a document in order. -/
theorem run {c : Command} (hc : D.Respects c) : D.Whole (c.run tree).tree := by
  cases c with
  | insert id position request => exact insert h id position hc
  | insertAtRoot position component request => exact insertAtRoot h position component hc
  | remove id keepChildren => exact remove h id keepChildren
  | removeAll ids => exact removeAll h ids
  | clearChildren id => exact clearChildren h id
  | updateText id text => exact updateText h id text
  | updateAttribute id name value => exact updateAttribute h id name hc.1 hc.2
  | updateAttributes id values => exact updateAttributes h id hc
  | updateTagName id name => exact updateTagName h id hc
  | replaceChildren id children => exact replaceChildren h id hc
  | addClassName id name => exact updateClassNames h id _ _
  | removeClassName id name => exact updateClassNames h id _ _
  | moveUp id => exact moveUp h id
  | moveDown id => exact moveDown h id
  | moveToIndex id index => exact moveToIndex h id index
  | moveInto source destination width => exact moveInto h source destination width
  | swap id id' => exact swapCommand h id id'
  | updateStyles id styles => exact updateStyles h hc id styles
  | setSpacing id spacing => exact updateGiven h hc id _
  | setMargin id value => exact updateGiven h hc id _
  | setPadding id value => exact updateGiven h hc id _
  | clearStyles id => exact clearStyles h id

/-- A document stays in order through every run of edits. -/
theorem runAll {commands : List Command} (hc : ∀ c ∈ commands, D.Respects c) : D.Whole (Command.runAll tree commands) := by
  induction commands generalizing tree with
  | nil => exact h
  | cons c commands ih =>
    rw [List.forall_mem_cons] at hc
    exact ih (run h hc.1) hc.2

end JsxEdit.Discipline
