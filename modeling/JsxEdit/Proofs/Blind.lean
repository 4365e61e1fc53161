import JsxEdit.Edit.Style
import JsxEdit.Proofs.Swap

/-
Documents that differ only in their places in a text.

Nothing that an update of styles reads, finds or changes depends on where the parts of a document stand in the text it was
read from.
-/
set_option autoImplicit false

namespace JsxEdit

/-! ## What is read of a node, wherever it stands -/

/-- The visit to a node without its place in a text. -/
def Visit.blind (v : Visit) : Visit := { v with node := v.node.blind }

theorem Kind.reads_blind (k : Kind) : k.blind.isForeign = k.isForeign ∧ k.blind.isLiteral = k.isLiteral ∧
    k.blind.literalValue = k.literalValue := by
  cases k <;> exact ⟨rfl, rfl, rfl⟩

namespace Node

theorem isForeign_blind (n : Node) : n.blind.isForeign = n.isForeign := by
  rw [isForeign, kind_blind, n.kind.reads_blind.1, isForeign]

mutual

theorem hasForeign_blind : (n : Node) → n.blind.hasForeign = n.hasForeign
  | .mk k i as cs => by
    rw [blind_mk, hasForeign, hasForeign, anyForeign_blind as, anyForeign_blind cs]

theorem anyForeign_blind : (ns : List Node) → anyForeign (ns.map blind) = anyForeign ns
  | [] => rfl
  | n :: ns => by
    rw [List.map_cons, anyForeign, anyForeign, isForeign_blind, hasForeign_blind n, anyForeign_blind ns]

end

theorem value?_blind (n : Node) : n.blind.value? = n.value?.map blind := by
  rw [value?, value?, children_blind]
  cases n.children with
  | nil => rfl
  | cons c cs =>
    rw [List.map_cons, List.head?_cons, List.head?_cons, Option.filter_some, Option.filter_some, kind_blind,
      (stringValue_blind c.kind).2]
    split <;> rfl

theorem attr?_blind (n : Node) (name : String) : n.blind.attr? name = (n.attr? name).map blind := by
  have hattr (a : Node) : a.blind.kind.isAttr name = a.kind.isAttr name := by rw [kind_blind, isAttr_blind]
  rw [attr?, attr?, attributes_blind, List.find?_map]
  exact congrArg (Option.map blind) (congrArg (List.find? · n.attributes) (funext hattr))

theorem identity_blind (n : Node) : n.blind.identity = n.identity := by
  rw [identity, identity, attr?_blind]
  cases n.attr? identityName with
  | none => rfl
  | some a =>
    rw [Option.map_some, Option.bind_some, Option.bind_some, value?_blind]
    cases a.value? with
    | none => rfl
    | some v =>
      rw [Option.map_some]
      dsimp only
      rw [kind_blind, (stringValue_blind v.kind).1]

theorem expressionValue_blind (n : Node) : n.blind.expressionValue = n.expressionValue := by
  rw [expressionValue, expressionValue, writeChecked, writeChecked, isForeign_blind, hasForeign_blind, write_blind,
    kind_blind, n.kind.reads_blind.2.1, n.kind.reads_blind.2.2]

theorem propertyName?_blind (n : Node) : n.blind.propertyName? = n.propertyName? := by
  rw [propertyName?, propertyName?, kind_blind]
  cases n.kind <;> rfl

theorem propertyValue_blind (n : Node) : n.blind.propertyValue = n.propertyValue := by
  rw [propertyValue, propertyValue, value?_blind]
  cases n.value? with
  | none => rfl
  | some v => exact expressionValue_blind v

/-! ## Searches -/

mutual

theorem visitsAt_blind (path : Path) : (n : Node) → n.blind.visitsAt path = (n.visitsAt path).map Visit.blind
  | .mk k i as cs => by
    rw [blind_mk, visitsAt, visitsAt, visitsIn_blind _ 0 as, visitsIn_blind _ 0 cs, List.map_append]

theorem visitsIn_blind (path : Path) (index : Nat) : (ns : List Node) →
    visitsIn path index (ns.map blind) = (visitsIn path index ns).map Visit.blind
  | [] => rfl
  | n :: ns => by
    rw [List.map_cons, visitsIn, visitsIn, visitsAt_blind _ n, visitsIn_blind path (index + 1) ns, List.map_append]
    rfl

end

theorem firstVisit_blind {p : Visit → Except Fault Bool} (hp : ∀ v : Visit, p v.blind = p v) (vs : List Visit) :
    firstVisit p (vs.map Visit.blind) = (firstVisit p vs).map (Option.map Visit.blind) := by
  induction vs with
  | nil => rfl
  | cons v vs ih =>
    have hforeign : v.blind.node.isForeign = v.node.isForeign := isForeign_blind v.node
    rw [List.map_cons, firstVisit, firstVisit, hp, hforeign]
    cases p v with
    | error f => rfl
    | ok found =>
      cases found with
      | true => rfl
      | false =>
        simp only [bind, Except.bind, Bool.false_eq_true, if_false]
        split
        · rfl
        · exact ih

theorem isElement_blind (k : Kind) : k.blind.isElement = k.isElement := by cases k <;> rfl

theorem findId_blind (id : String) (n : Node) : n.blind.findId id = (n.findId id).map (Option.map Visit.blind) := by
  have hvisits : n.blind.visits = n.visits.map Visit.blind := visitsAt_blind [] n
  rw [findId, findIdentity, find, hvisits]
  refine firstVisit_blind (fun v => ?_) n.visits
  dsimp only [Visit.blind]
  rw [kind_blind, isElement_blind, identity_blind]

/-- An element that is found in one document is found in the other one at the same place. -/
theorem exists_findId {tree tree' : Node} (h : tree'.blind = tree.blind) {id : String} {v : Visit}
    (hv : tree.findId id = .ok (some v)) :
    ∃ v', tree'.findId id = .ok (some v') ∧ v'.path = v.path ∧ v'.node.blind = v.node.blind := by
  have hsame := findId_blind id tree'
  rw [h, findId_blind, hv] at hsame
  cases hfound : tree'.findId id with
  | error f =>
    rw [hfound] at hsame
    cases hsame
  | ok found =>
    rw [hfound] at hsame
    cases found with
    | none => cases Except.ok.inj hsame
    | some v' =>
      have hblind : v.blind = v'.blind := Option.some.inj (Except.ok.inj hsame)
      exact ⟨v', rfl, (congrArg Visit.path hblind).symm, (congrArg Visit.node hblind).symm⟩

/-! ## Changes -/

theorem blind_withChildren (n : Node) (cs : List Node) : (n.withChildren cs).blind = n.blind.withChildren (cs.map blind) := by
  obtain ⟨k, i, as, ds⟩ := n
  rw [withChildren, blind_mk, blind_mk, withChildren]

theorem blind_withAttributes (n : Node) (as : List Node) :
    (n.withAttributes as).blind = n.blind.withAttributes (as.map blind) := by
  obtain ⟨k, i, bs, cs⟩ := n
  rw [withAttributes, blind_mk, blind_mk, withAttributes]

theorem map_modify {f g : Node → Node} (h : ∀ n, (f n).blind = g n.blind) (ns : List Node) (i : Nat) :
    (ns.modify i f).map blind = (ns.map blind).modify i g := by
  induction ns generalizing i with
  | nil => rw [List.modify_nil, List.map_nil, List.modify_nil]
  | cons n ns ih =>
    cases i with
    | zero => rw [List.modify_zero_cons, List.map_cons, List.map_cons, List.modify_zero_cons, h]
    | succ i => rw [List.modify_succ_cons, List.map_cons, List.map_cons, List.modify_succ_cons, ih]

theorem blind_modify_path {f g : Node → Node} (h : ∀ n, (f n).blind = g n.blind) (path : Path) (n : Node) :
    (n.modify f path).blind = n.blind.modify g path := by
  induction path generalizing n with
  | nil => exact h n
  | cons step path ih =>
    cases step with
    | child i => rw [modify_child, modify_child, blind_withChildren, children_blind, map_modify ih]
    | attributes =>
      have hlist : n.blind.attributeList = n.attributeList.blind := by
        rw [attributeList, attributeList, attributes_blind, Node.new, Node.new, blind_mk]
        rfl
      rw [modify, modify, kind_blind, isElement_blind]
      split
      · rw [blind_withAttributes, ← children_blind, ih, hlist]
      · rfl

theorem blind_set (n new : Node) (path : Path) : (n.set path new).blind = n.blind.set path new.blind :=
  @blind_modify_path (fun _ => new) (fun _ => new.blind) (fun _ => rfl) path n

theorem attrIndex?_blind (as : List Node) (name : String) : attrIndex? (as.map blind) name = attrIndex? as name := by
  have hattr (a : Node) : a.blind.kind.isAttr name = a.kind.isAttr name := by rw [kind_blind, isAttr_blind]
  rw [attrIndex?, attrIndex?, List.findIdx?_map]
  exact congrArg (List.findIdx? · as) (funext hattr)

end Node

namespace Edit
open Node

theorem stylesOf_blind (o : Node) : stylesOf o.blind = stylesOf o := by
  rw [stylesOf, stylesOf, children_blind, List.mapM_map]
  simp only [Function.comp_def, propertyName?_blind, propertyValue_blind]

theorem styleObject?_blind (a : Node) : styleObject? a.blind = (styleObject? a).map blind := by
  rw [styleObject?, styleObject?, value?_blind]
  cases a.value? with
  | none => rfl
  | some s =>
    simp only [Option.map_some, Option.bind_eq_bind, Option.bind_some, kind_blind, value?_blind]
    cases s.kind with
    | slot lead trail =>
      cases s.value? with
      | none => rfl
      | some o =>
        simp only [Kind.blind, Option.map_some, Option.bind_some, kind_blind]
        cases o.kind <;> rfl
    | _ => rfl

theorem styleTarget_blind (n : Node) : styleTarget n.blind = (styleTarget n).map blind := by
  rw [styleTarget, styleTarget, attr?_blind]
  cases n.attr? styleAttribute with
  | none => rfl
  | some a => exact styleObject?_blind a

theorem map_setStyleObject (as : List Node) (o : Node) :
    (setStyleObject as o).map blind = setStyleObject (as.map blind) o.blind := by
  rw [setStyleObject, setStyleObject, attrIndex?_blind]
  cases attrIndex? as styleAttribute with
  | none => rw [List.map_append]; rfl
  | some i =>
    refine map_modify (fun a => ?_) as i
    rw [blind_withChildren, children_blind]
    congr 1
    refine map_modify (fun slot => ?_) a.children 0
    rw [blind_withChildren, children_blind, List.map_set]

end Edit
end JsxEdit
