import JsxEdit.Proofs.Command
import JsxEdit.Proofs.Sound

/-
Identities stay unique: no run of edits ever leaves two elements with the same identity, or an element with two
attributes of the same name, in a document that had none.

Each edit finds its element first, so what it changes is markup, and brings in nothing that it has not looked at.
-/
set_option autoImplicit false

namespace JsxEdit.Edit
open Node

/-! ## Each edit -/

/-- No element in the values for new children has two attributes of the same name. -/
def AreRepeatFree (children : Value Node) : Prop :=
  ∀ vs, Template.items children = .ok vs → ∀ n, .node n ∈ vs → n.AllRepeatFree

/-- Without a new node, the tree is left alone. -/
theorem newNode_error {tree : Node} {r : Request} {reply : Reply} (h : newNode tree r = .error reply) :
    reply.tree = tree := by
  unfold newNode at h
  split at h
  · cases h
    rfl
  · cases h
    rfl
  · split at h
    · cases h
      rfl
    · cases h
    · cases h
      rfl

theorem returned_some {anywhere : Bool} {index : Nat} {before : Option Node} {ns : List Node} {v : Visit}
    (h : Component.returned anywhere index before ns = .ok (some v)) :
    v.parent = [] ∧ v.node.kind.isMarkup = true ∧ ∃ j, v.index = index + j ∧ ns[j]? = some v.node := by
  induction ns generalizing index before with
  | nil => cases h
  | cons n ns ih =>
    rw [Component.returned] at h
    have hrest : Component.returned anywhere (index + 1) (some n) ns = .ok (some v) →
        v.parent = [] ∧ v.node.kind.isMarkup = true ∧ ∃ j, v.index = index + j ∧ (n :: ns)[j]? = some v.node := by
      intro hr
      obtain ⟨hp, hk, j, hj, hn⟩ := ih hr
      exact ⟨hp, hk, j + 1, by omega, hn⟩
    split at h
    · next hk =>
      cases ht : before.elim (.ok "") Component.headText with
      | error f =>
        rw [ht] at h
        cases h
      | ok text =>
        rw [ht] at h
        dsimp only [bind, Except.bind] at h
        split at h
        · cases h
          exact ⟨rfl, hk, 0, rfl, rfl⟩
        · exact hrest h
    · exact hrest h

/-- The root of a component is markup directly below the document. -/
theorem root_some {tree : Node} {name : Option String} {v : Visit} (h : Component.root name tree = .ok (some v)) :
    v.node.kind.isMarkup = true ∧ tree.get? v.path = some v.node := by
  have hfind : ∀ {anywhere : Bool} {index : Nat} {before : Option Node},
      Component.returned anywhere index before (tree.children.drop index) = .ok (some v) →
      v.node.kind.isMarkup = true ∧ tree.get? v.path = some v.node := by
    intro anywhere index before hr
    obtain ⟨hp, hk, j, hj, hn⟩ := returned_some hr
    refine ⟨hk, ?_⟩
    rw [get?_path (m := tree) (by rw [hp]; rfl), hj, ← List.getElem?_drop]
    exact hn
  rw [Component.root.eq_def] at h
  split at h
  · exact @hfind _ 0 _ h
  · next name =>
    cases hd : Component.declared name 0 tree.children with
    | error f =>
      rw [hd] at h
      cases h
    | ok found =>
      rw [hd] at h
      cases found with
      | none => cases h
      | some index => exact hfind h

section

variable {tree : Node} (h : tree.Sound)
include h

theorem insert_sound (id position : String) {r : Request} (hr : r.IsRepeatFree) :
    (insert tree id position r).tree.Sound := by
  unfold insert
  split
  · exact h
  · split
    · exact h
    · exact h
    · next v hv =>
      have hv := findId_some hv
      split
      · exact h
      · next hplace =>
        split
        · next hn =>
          rw [newNode_error hn]
          exact h
        · next n log hn =>
          dsimp only [Reply.after, Reply.succeeded]
          refine sound_newNode h hr hn ?_
          split
          · next hs =>
            refine grows_insertBeside (sound_root h) ?_ _ n
            rw [hs, Bool.true_and, Bool.not_eq_true, Bool.not_eq_false'] at hplace
            exact hplace
          · exact grows_insertInside (sound_root h) _ _ n (fun m hm => hv.eq_node hm) hv.markup

theorem insertAtRoot_sound (position : String) (component : Option String) {r : Request} (hr : r.IsRepeatFree) :
    (insertAtRoot tree position component r).tree.Sound := by
  unfold insertAtRoot
  split
  · exact h
  · split
    · exact h
    · exact h
    · next v hv =>
      obtain ⟨hk, hget⟩ := root_some hv
      split
      · next hn =>
        rw [newNode_error hn]
        exact h
      · next n log hn =>
        dsimp only [Reply.after, Reply.succeeded]
        refine sound_newNode h hr hn (grows_insertInside (sound_root h) _ _ n (fun m hm => ?_) hk)
        rw [hget] at hm
        exact (Option.some.inj hm).symm

theorem remove_sound (id : String) (keepChildren : Bool) : (remove tree id keepChildren).tree.Sound := by
  unfold remove
  split
  · exact h
  · exact h
  · next v hv =>
    have hv := findId_some hv
    split
    · exact h
    · next hp =>
      rw [Bool.not_eq_true, Bool.not_eq_false'] at hp
      dsimp only [Reply.succeeded]
      split
      · exact sound_shrinks h (grows_unwrapAt (sound_root h) hv hp)
      · exact sound_shrinks h (grows_detachAt (sound_root h) hp)

omit h in
theorem targets_inMarkup {ids : List String} {t : Targets} (ht : targets tree ids = .ok t) :
    ∀ v ∈ t.visits, isMarkupPlace tree v.parent = true := by
  induction ids generalizing t with
  | nil =>
    cases ht
    intro v hv
    cases hv
  | cons id ids ih =>
    rw [targets] at ht
    cases hf : tree.findId id with
    | error f =>
      rw [hf] at ht
      cases ht
    | ok found =>
      cases hr : targets tree ids with
      | error f =>
        rw [hf, hr] at ht
        cases ht
      | ok rest =>
        rw [hf, hr] at ht
        dsimp only [bind, Except.bind] at ht
        cases found with
        | none =>
          cases ht
          exact fun v hv => ih hr v hv
        | some v =>
          dsimp only at ht
          split at ht
          · cases ht
            exact fun w hw => ih hr w hw
          · next hp =>
            cases ht
            rintro w hw
            rcases List.mem_cons.mp hw with rfl | hw
            · rw [Bool.not_eq_true, Bool.not_eq_false'] at hp
              exact hp
            · exact ih hr w (List.mem_filter.mp hw).1

theorem removeAll_sound (ids : List String) : (removeAll tree ids).tree.Sound := by
  unfold removeAll
  split
  · exact h
  · next t ht =>
    split
    · dsimp only
      have hg : Grows tree (detachAll tree some (t.visits.map (·.path)).reverse).1 [] := by
        refine grows_detachAll _ (sound_root h) fun p hp q hq => ?_
        obtain ⟨v, hv, rfl⟩ := List.mem_map.mp (List.mem_reverse.mp hp)
        cases hq
        exact ⟨v.parent, v.index, rfl, targets_inMarkup ht v hv⟩
      have hs := sound_shrinks h hg
      split
      · next hd =>
        rw [hd] at hs
        exact hs
      · next hd =>
        rw [hd] at hs
        exact hs
    · exact h

theorem clearChildren_sound (id : String) : (clearChildren tree id).tree.Sound := by
  unfold clearChildren
  split
  · exact h
  · exact h
  · next v hv => exact sound_shrinks h (grows_clearChildren (sound_root h) (findId_some hv))

theorem updateText_sound (id s : String) : (updateText tree id s).tree.Sound := by
  unfold updateText
  split
  · exact h
  · exact h
  · next v hv =>
    have hv := findId_some hv
    dsimp only
    split
    · exact h
    · next hr => exact sound_shrinks h (grows_children (sound_root h) hv fun g => total_replaceFirstText g hr)
    · split
      · exact h
      · next ha => exact sound_shrinks h (grows_addText (sound_root h) hv ha)

omit h in
/-- A value that passes the check is no identity of another element. -/
theorem valueProblem_none {place : Path} {name : String} {v : Value Node}
    (hp : valueProblem tree place name v = .ok none) (id : String) (hn : name = identityName) (hv : v = .str id) :
    IsFree tree place id := by
  subst hn hv
  unfold valueProblem at hp
  dsimp only [bind, Except.bind, pure, Except.pure] at hp
  rw [if_pos (by rfl)] at hp
  cases ha : Build.attributeValue (.str id) with
  | error f =>
    rw [ha] at hp
    cases f <;> cases hp
  | ok new =>
    rw [ha] at hp
    dsimp only at hp
    rw [if_pos (by rfl)] at hp
    cases hf : tree.findId id with
    | error f =>
      rw [hf] at hp
      cases hp
    | ok found =>
      rw [hf] at hp
      cases found with
      | none => exact .inl hf
      | some w =>
        dsimp only at hp
        split at hp
        · cases hp
        · next hw => exact .inr ⟨w, hf, by simpa using hw⟩

theorem updateAttribute_sound (id : String) (name : Value Node) {v : Value Node} (hplain : isPlainValue v = true) :
    (updateAttribute tree id name v).tree.Sound := by
  unfold updateAttribute
  split
  · exact h
  · exact h
  · next w hw =>
    have hw := findId_some hw
    dsimp only
    split
    · split
      · exact h
      · split
        · exact h
        · exact h
        · next hp =>
          split
          · exact h
          · next hset =>
            exact sound_attributes h hw
              (allowed_setAttribute (names_nodup h hw) hplain (valueProblem_none hp) hset)
    · exact h

omit h in
theorem attributesProblem_none {place : Path} {values : Dict (Value Node)}
    (hp : attributesProblem tree place values = .ok none) (id : String)
    (hm : (identityName, Value.str id) ∈ values) : IsFree tree place id := by
  induction values with
  | nil => cases hm
  | cons e values ih =>
    obtain ⟨name, v⟩ := e
    rw [attributesProblem] at hp
    split at hp
    · cases hp
    · cases hv : valueProblem tree place name v with
      | error f =>
        rw [hv] at hp
        cases hp
      | ok problem =>
        rw [hv] at hp
        cases problem with
        | some p => cases hp
        | none =>
          rcases List.mem_cons.mp hm with heq | hm
          · cases heq
            exact valueProblem_none hv id rfl rfl
          · exact ih hp hm

theorem updateAttributes_sound (id : String) {values : Dict (Value Node)}
    (hplain : ∀ e ∈ values, isPlainValue e.2 = true) : (updateAttributes tree id values).tree.Sound := by
  unfold updateAttributes
  dsimp only
  split
  · exact h
  · exact h
  · next w hw =>
    have hw := findId_some hw
    split
    · exact h
    · exact h
    · next hp =>
      have hall : Allowed (IsFree tree w.path) w.node.attributes (setAttributes w.node.attributes [] values).1 :=
        allowed_setAttributes (names_nodup h hw) hplain (attributesProblem_none hp)
      have hs := sound_attributes h (f := fun _ => (setAttributes w.node.attributes [] values).1) hw hall
      split
      · exact hs
      · exact hs

theorem updateTagName_sound (id : String) (name : Value Node) : (updateTagName tree id name).tree.Sound := by
  unfold updateTagName
  split
  · exact h
  · exact h
  · next v hv =>
    dsimp only
    split
    · split
      · exact h
      · exact sound_shrinks h (grows_renamed (sound_root h) (findId_some hv) _)
    · exact h

omit h in
theorem total_newChildren {vs : List (Value Node)} {nodes : List Node} (hn : newChildren tree vs = .ok nodes)
    (hvs : ∀ n, .node n ∈ vs → n.AllRepeatFree) : total repeats nodes = 0 := by
  induction vs generalizing nodes with
  | nil =>
    cases hn
    rfl
  | cons v vs ih =>
    rw [newChildren] at hn
    split at hn
    · cases hn
    · next n hv =>
      cases hr : newChildren tree vs with
      | error bad =>
        rw [hr] at hn
        cases hn
      | ok rest =>
        rw [hr] at hn
        cases hn
        have hrest := ih hr fun m hm => hvs m (List.mem_cons_of_mem _ hm)
        have hfirst : total repeats [n] = 0 := by
          unfold newChild at hv
          split at hv
          · obtain rfl := Option.some.inj hv
            exact total_buildText _ _
          · next m =>
            have hm := total_repeats.mpr (hvs m List.mem_cons_self)
            have hle : total repeats [fresh tree m] ≤ total repeats [m] := total_fresh repeats m
            split at hv
            all_goals cases hv
            all_goals omega
          · cases hv
        rw [total_cons, hfirst, hrest]

theorem replaceChildren_sound (id : String) {children : Value Node} (hfree : AreRepeatFree children) :
    (replaceChildren tree id children).tree.Sound := by
  unfold replaceChildren
  split
  · exact h
  · exact h
  · next v hv =>
    split
    · exact h
    · next vs hvs =>
      split
      · exact h
      · next nodes hn =>
        split
        · exact h
        · next hc => exact sound_replaced h (findId_some hv) hc (total_newChildren hn (hfree vs hvs))
        · exact h

theorem updateClassNames_sound (id message : String) (change : List String → Option (List String)) :
    (updateClassNames tree id message change).tree.Sound := by
  unfold updateClassNames
  split
  · exact h
  · exact h
  · next v hv =>
    have hv := findId_some hv
    split
    · exact h
    · exact h
    · next hset => exact sound_attributes h hv (allowed_changeClassNames (names_nodup h hv) hset)

/-- What goes on with a movable element decides. -/
theorem withMovable_sound {id : String} {go : Visit → Reply}
    (hgo : ∀ v, Found tree id v → isMarkupPlace tree v.parent = true → (go v).tree.Sound) :
    (withMovable tree id go).tree.Sound := by
  unfold withMovable
  split
  · exact h
  · exact h
  · next v hv =>
    split
    · next hp => exact hgo v (findId_some hv) hp
    · exact h

theorem moveUp_sound (id : String) : (moveUp tree id).tree.Sound := by
  refine withMovable_sound h fun v _ hp => ?_
  dsimp only
  split
  · exact h
  · exact sound_shrinks h (grows_exchange (sound_root h) hp _ _)

theorem moveDown_sound (id : String) : (moveDown tree id).tree.Sound := by
  refine withMovable_sound h fun v _ hp => ?_
  dsimp only
  split
  · exact sound_shrinks h (grows_exchange (sound_root h) hp _ _)
  · exact h

theorem moveToIndex_sound (id : String) (index : Value Node) : (moveToIndex tree id index).tree.Sound := by
  refine withMovable_sound h fun v _ hp => ?_
  dsimp only
  split
  · exact h
  · split
    · next j _ hj =>
      have hlt : j.toNat < (significant (siblings tree v)).length := by
        simp only [Bool.and_eq_true, decide_eq_true_eq] at hj
        omega
      exact sound_shrinks h (grows_moveItem (sound_root h) hp hlt)
    · exact h

theorem moveInto_sound (source destination : String) (width : Int) :
    (moveInto tree source destination width).tree.Sound := by
  unfold moveInto
  split
  · exact h
  · exact h
  · next v hv =>
    split
    · exact h
    · exact h
    · next w hw =>
      split
      · exact h
      · exact h
      · split
        · exact h
        · next hp =>
          rw [Bool.not_eq_true, Bool.not_eq_false'] at hp
          have hs := sound_shrinks h (grows_transfer (sound_root h) (findId_some hv) (findId_some hw) hp width)
          split
          · next ht =>
            rw [ht] at hs
            exact hs
          · next ht =>
            rw [ht] at hs
            exact hs

omit h in
/-- An element that is not below another and is not the same has a place that leads not through it. -/
theorem not_prefix_of_isBelow {v w : Visit} (hne : (v.path == w.path) = false) (hb : isBelow v w = .ok false) :
    ¬v.path <+: w.path := by
  intro hp
  unfold isBelow at hb
  split at hb
  · cases hb
  · next hbefore =>
    apply hbefore
    rw [Path.isBefore, List.isPrefixOf_iff_prefix.mpr hp, Bool.true_and]
    simpa using hne

theorem swap_sound (id id' : String) : (swap tree id id').tree.Sound := by
  unfold swap
  split
  · exact h
  · exact h
  · next v hv =>
    split
    · exact h
    · exact h
    · next w hw =>
      split
      · exact h
      · next hpv =>
        split
        · exact h
        · next hpw =>
          rw [Bool.not_eq_true, Bool.not_eq_false'] at hpv hpw
          split
          · exact h
          · next hne =>
            rw [Bool.not_eq_true] at hne
            split
            · exact h
            · exact h
            · next hb =>
              cases hvw : isBelow v w with
              | error f =>
                rw [hvw] at hb
                cases hb
              | ok b =>
                rw [hvw] at hb
                cases b with
                | true => cases hb
                | false =>
                  have hne' : (w.path == v.path) = false := by
                    rw [beq_eq_false_iff_ne] at hne ⊢
                    exact Ne.symm hne
                  exact sound_shrinks h (grows_swap (findId_some hv) (findId_some hw) hpv hpw
                    (not_prefix_of_isBelow hne hvw) (not_prefix_of_isBelow hne' hb))

theorem updateStyles_sound (id : String) (styles : Dict (Value Node)) : (updateStyles tree id styles).tree.Sound := by
  unfold updateStyles
  split
  · exact h
  · exact h
  · next v hv =>
    have hv := findId_some hv
    split
    · exact h
    · next object ht =>
      split
      · exact h
      · exact h
      · next changes hc =>
        dsimp only
        have hall : Allowed (IsFree tree v.path) v.node.attributes
            (setStyleObject v.node.attributes (changes.foldl changeStyle object)) :=
          allowed_setStyleObject (names_nodup h hv) ht fun g =>
            total_changeStyles g (styleTarget_kind ht) (styleChanges_bare hc)
        have hs : (tree.modify (fun n => n.withAttributes
            (setStyleObject n.attributes (changes.foldl changeStyle object))) v.path).Sound :=
          sound_attributes h hv hall
        split
        · exact hs
        · exact hs

theorem updateGiven_sound (id : String) (styles : Except Fault (Dict (Value Node))) :
    (updateGiven tree id styles).tree.Sound := by
  unfold updateGiven
  split
  · exact h
  · exact updateStyles_sound h id _

theorem clearStyles_sound (id : String) : (clearStyles tree id).tree.Sound := by
  unfold clearStyles
  split
  · exact h
  · exact h
  · next v hv =>
    have hv := findId_some hv
    refine sound_attributes h hv ?_
    dsimp only
    cases attrIndex? v.node.attributes styleAttribute with
    | none => exact Allowed.refl (names_nodup h hv)
    | some i => exact allowed_erase (names_nodup h hv)

end

end JsxEdit.Edit

namespace JsxEdit.Edit.Command

/-- Nothing that a command brings into the tree has an element with two attributes of the same name, and what it gives
attributes are plain values. -/
def Admissible : Command → Prop
  | .insert _ _ request => request.IsRepeatFree
  | .insertAtRoot _ _ request => request.IsRepeatFree
  | .updateAttribute _ _ value => isPlainValue value = true
  | .updateAttributes _ values => ∀ e ∈ values, isPlainValue e.2 = true
  | .replaceChildren _ children => AreRepeatFree children
  | _ => True

/-- One edit leaves a sound document sound, whether it succeeds or fails. -/
theorem run_sound {tree : Node} (h : tree.Sound) {c : Command} (hc : c.Admissible) : (c.run tree).tree.Sound := by
  cases c with
  | insert id position request => exact insert_sound h id position hc
  | insertAtRoot position component request => exact insertAtRoot_sound h position component hc
  | remove id keepChildren => exact remove_sound h id keepChildren
  | removeAll ids => exact removeAll_sound h ids
  | clearChildren id => exact clearChildren_sound h id
  | updateText id text => exact updateText_sound h id text
  | updateAttribute id name value => exact updateAttribute_sound h id name hc
  | updateAttributes id values => exact updateAttributes_sound h id hc
  | updateTagName id name => exact updateTagName_sound h id name
  | replaceChildren id children => exact replaceChildren_sound h id hc
  | addClassName id name => exact updateClassNames_sound h id _ _
  | removeClassName id name => exact updateClassNames_sound h id _ _
  | moveUp id => exact moveUp_sound h id
  | moveDown id => exact moveDown_sound h id
  | moveToIndex id index => exact moveToIndex_sound h id index
  | moveInto source destination width => exact moveInto_sound h source destination width
  | swap id id' => exact swap_sound h id id'
  | updateStyles id styles => exact updateStyles_sound h id styles
  | setSpacing id spacing => exact updateGiven_sound h id _
  | setMargin id value => exact updateGiven_sound h id _
  | setPadding id value => exact updateGiven_sound h id _
  | clearStyles id => exact clearStyles_sound h id

/-- Identities stay unique, and attribute names unique in each element, through every run of edits. -/
theorem runAll_sound (tree : Node) (h : tree.Sound) (commands : List Command)
    (hc : ∀ c ∈ commands, c.Admissible) : (runAll tree commands).Sound := by
  induction commands generalizing tree with
  | nil => exact h
  | cons c commands ih =>
    have hfirst : (c.run tree).tree.Sound := run_sound h (hc c List.mem_cons_self)
    exact ih (c.run tree).tree hfirst fun d hd => hc d (List.mem_cons_of_mem c hd)

/-- A new item, an identity that is in use, one that is free, and a list of children one of which leaves the tree. -/
def changes : List Command :=
  [.insert "item" "after" ⟨.node (identified "li" "next" []), [], [], 2, none⟩,
    .updateAttribute "item" (.str Node.identityName) (.str "next"),
    .updateAttribute "item" (.str Node.identityName) (.str "first"),
    .replaceChildren "list" (.list [.node (identified "b" "next" []), .str "text"])]

set_option maxRecDepth 10000 in
theorem runAll_sound_changes :
    (∀ c ∈ changes, c.Admissible) ∧ (runAll nested changes).Sound ∧
      (runAll nested changes).descendants.filterMap Node.identity? = ["box", "list", "next"] := by
  have hadm : ∀ c ∈ changes, c.Admissible := by
    simp only [changes, List.forall_mem_cons]
    refine ⟨fun n log h => ?_, rfl, rfl, fun vs h n hn => ?_, fun c hc => absurd hc List.not_mem_nil⟩
    · cases h
      decide
    · cases h
      simp only [List.mem_cons, List.not_mem_nil, or_false, Value.node.injEq, reduceCtorEq] at hn
      subst hn
      decide
  exact ⟨hadm, runAll_sound nested ⟨⟨none, rfl⟩, by decide, by decide⟩ changes hadm, by decide +kernel⟩

end JsxEdit.Edit.Command
