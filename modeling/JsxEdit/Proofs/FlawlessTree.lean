import JsxEdit.Proofs.Flaw
import JsxEdit.Proofs.Upkeep

/-
Trees without a flaw, by their nodes: a kind permits so many children, and all that is below is without a flaw.

Of what edits change only little matters here: names, whether an element closes itself, and how many children there are.
So trees without a flaw are a discipline, and edits keep them writable.
-/
set_option autoImplicit false

namespace JsxEdit

/-- What the kind of a node asks of itself and of the number of its children. -/
def Kind.Permits : Kind → Nat → Prop
  | .invalid .., _ => False
  | .foreign _, _ => False
  | .element name selfClosing _ closingName, n =>
    isTagName name = true ∧ (closingName = none ∨ closingName = some name) ∧ (selfClosing = true → n = 0)
  | .attr name _, n => isAttrName name = true ∧ n ≤ 1
  | .slot .., n => n ≤ 1
  | _, _ => True

namespace Node

theorem flaw?_eq_none {n : Node} (hforeign : n.isForeign = false) :
    n.flaw? = none ↔ n.kind.Permits n.children.length ∧ ∀ m ∈ n.attributes ++ n.children, m.isForeign = false := by
  have hnodes : (∀ m ∈ n.attributes ++ n.children, m.isForeign = false) ↔
      (n.attributes ++ n.children).find? (·.isForeign) = none := by
    simp only [List.find?_eq_none, Bool.not_eq_true]
  rw [hnodes]
  unfold flaw?
  cases hfind : (n.attributes ++ n.children).find? (·.isForeign) with
  | some m => simp
  | none =>
    cases hk : n.kind with
    | foreign v =>
      rw [isForeign, hk] at hforeign
      cases hforeign
    | element name selfClosing space closingName =>
      cases closingName with
      | none => cases selfClosing <;> cases hname : isTagName name <;> simp [Kind.Permits, hname]
      | some closing =>
        cases selfClosing <;> cases hname : isTagName name <;> by_cases hc : closing = name <;>
          simp [Kind.Permits, hname, hc]
    | attr name space => cases hname : isAttrName name <;> simp [Kind.Permits, hname]
    | slot lead trail => simp [Kind.Permits]
    | invalid reason position => simp [Kind.Permits]
    | _ => simp [Kind.Permits]

/-- A tree is without a flaw if its root permits its children and all below it are without a flaw. -/
theorem flawless_mk {k : Kind} {i : Info} {as cs : List Node} :
    (mk k i as cs).Flawless ↔ k.Permits cs.length ∧ (∀ a ∈ as, a.Flawless) ∧ ∀ c ∈ cs, c.Flawless := by
  constructor
  · rintro ⟨hforeign, hall⟩
    obtain ⟨hflaw, has, hcs⟩ := forall_tree.mp hall
    obtain ⟨hpermits, hnodes⟩ := (flaw?_eq_none hforeign).mp hflaw
    obtain ⟨fas, fcs⟩ := List.forall_mem_append.mp hnodes
    exact ⟨hpermits, fun a ha => ⟨fas a ha, forall_within.mp has a ha⟩, fun c hc => ⟨fcs c hc, forall_within.mp hcs c hc⟩⟩
  · rintro ⟨hpermits, has, hcs⟩
    have hforeign : (mk k i as cs).isForeign = false := by
      cases k with
      | foreign => cases hpermits
      | _ => rfl
    have hnodes := List.forall_mem_append.mpr ⟨fun a ha => (has a ha).1, fun c hc => (hcs c hc).1⟩
    refine ⟨hforeign, forall_tree.mpr ⟨(flaw?_eq_none hforeign).mpr ⟨hpermits, hnodes⟩, ?_, ?_⟩⟩
    · exact forall_within.mpr fun a ha => (has a ha).2
    · exact forall_within.mpr fun c hc => (hcs c hc).2

theorem flawless_new {k : Kind} {cs : List Node} : (new k cs).Flawless ↔ k.Permits cs.length ∧ ∀ c ∈ cs, c.Flawless := by
  rw [new, flawless_mk]
  exact and_congr_right fun _ => and_iff_right (List.forall_mem_nil _)

namespace Flawless

variable {n : Node} (h : n.Flawless)
include h

theorem permits : n.kind.Permits n.children.length := by
  cases n with
  | mk k i as cs => exact (flawless_mk.mp h).1

theorem attr {a : Node} (ha : a ∈ n.attributes) : a.Flawless := by
  cases n with
  | mk k i as cs => exact (flawless_mk.mp h).2.1 a ha

theorem child {c : Node} (hc : c ∈ n.children) : c.Flawless := by
  cases n with
  | mk k i as cs => exact (flawless_mk.mp h).2.2 c hc

/-- Another kind is fine if it permits the children. -/
theorem withKind {k : Kind} (hk : k.Permits n.children.length) : (n.withKind k).Flawless := by
  cases n with
  | mk k' i as cs => exact flawless_mk.mpr ⟨hk, (flawless_mk.mp h).2⟩

/-- Other children are fine if the kind permits as many. -/
theorem withChildren {cs : List Node} (hk : n.kind.Permits cs.length) (hcs : ∀ c ∈ cs, c.Flawless) :
    (n.withChildren cs).Flawless := by
  cases n with
  | mk k i as cs' => exact flawless_mk.mpr ⟨hk, (flawless_mk.mp h).2.1, hcs⟩

theorem withAttributes {as : List Node} (has : ∀ a ∈ as, a.Flawless) : (n.withAttributes as).Flawless := by
  cases n with
  | mk k i as' cs => exact flawless_mk.mpr ⟨(flawless_mk.mp h).1, has, (flawless_mk.mp h).2.2⟩

theorem withMark {mark : Option Nat} : (n.withMark mark).Flawless := by
  cases n with
  | mk k i as cs => exact flawless_mk.mpr (flawless_mk.mp h)

theorem attributeList : n.attributeList.Flawless := flawless_new.mpr ⟨trivial, fun _ ha => h.attr ha⟩

theorem opened : n.opened.Flawless := by
  unfold Node.opened
  split
  · next name space closing hk =>
    have hpermits := h.permits
    rw [hk] at hpermits
    exact h.withKind ⟨hpermits.1, hpermits.2.1, fun hself => nomatch hself⟩
  · exact h

theorem closed : n.closed.Flawless := by
  unfold Node.closed
  split
  · next name space closing hk =>
    have hpermits := h.permits
    rw [hk] at hpermits
    split
    · next hempty =>
      refine h.withKind ⟨hpermits.1, hpermits.2.1, fun _ => ?_⟩
      rw [List.isEmpty_iff.mp hempty]
      rfl
    · exact h
  · exact h

theorem renamed {name : String} (hname : isTagName name = true) : (Edit.renamed name n).Flawless := by
  unfold Edit.renamed
  split
  · next selfClosing space closing hk =>
    have hpermits := h.permits
    rw [hk] at hpermits
    exact h.withKind ⟨hname, .inl rfl, hpermits.2.2⟩
  · exact h

end Flawless

/-! ## Places -/

/-- What is true of a node is true of all nodes in it, and stays true if as many nodes of which it is true take their
place. -/
structure Inherited (P : Node → Prop) : Prop where
  attributeList {n : Node} : P n → P n.attributeList
  child {n c : Node} : P n → c ∈ n.children → P c
  withChildren {n : Node} {cs : List Node} : P n → cs.length = n.children.length → (∀ c ∈ cs, P c) →
    P (n.withChildren cs)
  withAttributes {n : Node} {as : List Node} : P n → n.kind.isElement = true → (∀ a ∈ as, P a) →
    P (n.withAttributes as)

namespace Inherited

variable {P : Node → Prop} (hP : Inherited P) {p : Path} {n m : Node}
include hP

theorem get (h : P n) (hm : n.get? p = some m) : P m := by
  induction p generalizing n with
  | nil =>
    cases hm
    exact h
  | cons step p ih =>
    cases step with
    | child i =>
      obtain ⟨c, hc, hm⟩ := Option.bind_eq_some_iff.mp hm
      exact ih (hP.child h (List.mem_of_getElem? hc)) hm
    | attributes =>
      rw [get?_attributes] at hm
      split at hm
      · exact ih (hP.attributeList h) hm
      · cases hm

theorem set {m' : Node} (h : P n) (hm : n.get? p = some m) (hm' : P m') : P (n.set p m') := by
  induction p generalizing n with
  | nil => exact hm'
  | cons step p ih =>
    cases step with
    | child i =>
      obtain ⟨c, hc, hm⟩ := Option.bind_eq_some_iff.mp hm
      have hall := Discipline.listModify (fun c hc => hP.child h hc) hc fun hchild => ih hchild hm
      exact hP.withChildren h (List.length_modify ..) hall
    | attributes =>
      rw [get?_attributes] at hm
      split at hm
      · next helement =>
        rw [Node.set, modify_attributes, if_pos helement]
        exact hP.withAttributes h helement fun a ha => hP.child (ih (hP.attributeList h) hm) ha
      · cases hm

end Inherited

namespace Flawless

variable {n : Node}

theorem inherited : Inherited Flawless where
  attributeList h := h.attributeList
  child h hc := h.child hc
  withChildren h hlength hcs := h.withChildren (hlength ▸ h.permits) hcs
  withAttributes h _ has := h.withAttributes has

theorem get (h : n.Flawless) {p : Path} {m : Node} (hm : n.get? p = some m) : m.Flawless := inherited.get h hm

theorem set (h : n.Flawless) {p : Path} {m m' : Node} (hm : n.get? p = some m) (hm' : m'.Flawless) :
    (n.set p m').Flawless :=
  inherited.set h hm hm'

end Flawless

/-! ## Copies and white space -/

mutual

theorem flawless_copy : (n : Node) → n.Flawless → n.copy.Flawless
  | .mk k i as cs, h => by
    obtain ⟨hk, has, hcs⟩ := flawless_mk.mp h
    have hpermits : (k.copied !cs.isEmpty).Permits (copyAll cs).length := by
      rw [copyAll_eq_map, List.length_map]
      cases k with
      | element name selfClosing space closing =>
        refine ⟨hk.1, .inl rfl, fun hself => hk.2.2 (Bool.and_eq_true_iff.mp hself).1⟩
      | _ => exact hk
    rw [Node.copy, flawless_mk]
    refine ⟨?_, flawless_copyAll as has, ?_⟩
    · split
      · next hstring =>
        cases k with
        | string => trivial
        | attributeString => trivial
        | _ => cases hstring
      · exact hpermits
    · split
      · exact fun c hc => nomatch hc
      · exact flawless_copyAll cs hcs

theorem flawless_copyAll : (ns : List Node) → (∀ n ∈ ns, n.Flawless) → ∀ n ∈ copyAll ns, n.Flawless
  | [], h => h
  | n :: ns, h => by
    rw [List.forall_mem_cons] at h
    rw [Node.copyAll, List.forall_mem_cons]
    exact ⟨flawless_copy n h.1, flawless_copyAll ns h.2⟩

end

/-- White space is indented to white space. -/
theorem permits_reindentKind {k : Kind} {n : Nat} (s : String) (h : k.Permits n) : (Indent.reindentKind s k).Permits n := by
  cases k with
  | text content =>
    rw [Indent.reindentKind]
    split <;> trivial
  | _ => exact h

mutual

theorem flawless_reindent (s : String) : (n : Node) → n.Flawless → (Indent.reindent s n).Flawless
  | .mk k i as cs, h => by
    obtain ⟨hk, has, hcs⟩ := flawless_mk.mp h
    rw [Indent.reindent, flawless_mk]
    refine ⟨?_, flawless_reindentAll s as has, flawless_reindentAll s cs hcs⟩
    rw [Indent.reindentAll_eq_map, List.length_map]
    exact hk

theorem flawless_reindentAll (s : String) : (ns : List Node) → (∀ n ∈ ns, n.Flawless) →
    ∀ n ∈ Indent.reindentAll s ns, n.Flawless
  | [], h => h
  | .mk k i as cs :: ns, h => by
    rw [List.forall_mem_cons] at h
    rw [Indent.reindentAll, List.forall_mem_cons]
    have hnode := flawless_reindent s (.mk k i as cs) h.1
    exact ⟨hnode.withKind (permits_reindentKind s hnode.permits), flawless_reindentAll s ns h.2⟩

end

end Node

/-! ## New nodes -/

theorem Node.flawless_leaf {k : Kind} (h : k.Permits 0) : (Node.new k []).Flawless :=
  flawless_new.mpr ⟨h, fun _ hc => nomatch hc⟩

theorem Node.flawless_around {k : Kind} {n : Node} (hk : k.Permits 1) (h : n.Flawless) : (Node.new k [n]).Flawless :=
  flawless_new.mpr ⟨hk, List.forall_mem_singleton.mpr h⟩

open Node (flawless_leaf flawless_around)

/-- Kinds of simple expressions permit any number of children. -/
theorem Expression.flawless_ofText (s : String) : (ofText s).Flawless := by
  unfold ofText
  dsimp only
  split
  · next k hk =>
    refine flawless_leaf ?_
    unfold kind? at hk
    dsimp only at hk
    repeat' split at hk
    all_goals first | (cases hk; trivial) | cases hk
  · exact flawless_around trivial (flawless_leaf trivial)

theorem Literal.flawless_attributeString {s quote : String} {k : Kind} (h : attributeString s quote = .ok k) :
    (Node.new k []).Flawless := by
  obtain ⟨raw, quote', rfl⟩ := Edit.attributeString_kind h
  exact flawless_leaf trivial

namespace Build

theorem flawless_text (s : String) : (text s).Flawless := by
  unfold text
  split
  · exact flawless_around (Nat.le_refl 1) (flawless_leaf trivial)
  · exact flawless_leaf trivial

theorem flawless_expression {v : Value Node} {n : Node} (h : expression v = .ok n) : n.Flawless := by
  unfold expression at h
  split at h
  · rw [← Except.ok.inj h]
    exact Expression.flawless_ofText _
  · cases h

/-- Values that are no nodes give nodes without a flaw. -/
theorem flawless_attributeValue {v : Value Node} {w : Option Node} (hv : Edit.isPlainValue v = true)
    (h : attributeValue v = .ok w) : ∀ n ∈ w, n.Flawless := by
  have hslot : ∀ {n : Node}, n.Flawless → ∀ m ∈ some (Node.slot n), m.Flawless := by
    intro n hn m hm
    obtain rfl := Option.mem_some.mp hm
    exact flawless_around (Nat.le_refl 1) hn
  cases v with
  | null => cases h
  | bool b =>
    cases b with
    | false => cases h
    | true =>
      cases h
      exact fun n hn => nomatch hn
  | int n =>
    obtain ⟨text, -, rfl⟩ := slot_number_eq_ok h
    exact hslot (flawless_leaf trivial)
  | float d =>
    obtain ⟨text, -, rfl⟩ := slot_number_eq_ok h
    exact hslot (flawless_leaf trivial)
  | str s =>
    obtain ⟨k, hk, h⟩ := bind_eq_ok h
    cases h
    intro n hn
    obtain rfl := Option.mem_some.mp hn
    exact Literal.flawless_attributeString hk
  | list items => cases h
  | dict entries =>
    rw [attributeValue] at h
    split at h
    · obtain ⟨n, hn, h⟩ := bind_eq_ok h
      cases h
      exact hslot (flawless_expression hn)
    · cases h
  | node n => cases hv

theorem flawless_styleValue {v : Value Node} {n : Node} (h : styleValue v = .ok n) : n.Flawless := by
  unfold styleValue at h
  dsimp only at h
  split at h
  · cases h
    exact flawless_leaf trivial
  · obtain ⟨text, -, rfl⟩ := number_eq_ok h
    exact flawless_leaf trivial
  · obtain ⟨text, -, rfl⟩ := number_eq_ok h
    exact flawless_leaf trivial
  · split at h
    · exact flawless_expression h
    · cases h
  · cases h

end Build

namespace Edit

theorem flawless_textNodes (s lead trail : String) : ∀ c ∈ textNodes s lead trail, c.Flawless := by
  unfold textNodes
  dsimp only
  split
  · exact List.forall_mem_singleton.mpr (flawless_leaf trivial)
  · rw [List.forall_mem_append, List.forall_mem_cons]
    refine ⟨?_, Build.flawless_text s, ?_⟩
    all_goals
      split
      · exact fun c hc => nomatch hc
      · exact List.forall_mem_singleton.mpr (flawless_leaf trivial)

theorem flawless_replaceText {n : Node} {s old : String} {new : List Node} (h : n.Flawless)
    (hr : replaceText s n = .ok (some (new, old))) : ∀ c ∈ new, c.Flawless := by
  unfold replaceText at hr
  split at hr
  · split at hr
    · cases hr
    · cases hr
      exact flawless_textNodes s _ _
  · split at hr
    · cases hr
    · next e rest hchildren =>
      -- the expression in the slot gets another kind, and the slot keeps the number of its children
      have he : e.Flawless := h.child (hchildren ▸ List.mem_cons_self)
      have hchanged : ∀ k : Kind, k.Permits e.children.length →
          ∀ c ∈ [n.withChildren (e.withKind k :: rest)], c.Flawless := by
        intro k hk
        refine List.forall_mem_singleton.mpr (h.withChildren ?_ (List.forall_mem_cons.mpr ⟨he.withKind hk, ?_⟩))
        · have hpermits := h.permits
          rw [hchildren] at hpermits
          exact hpermits
        · exact fun c hc => h.child (hchildren ▸ List.mem_cons_of_mem e hc)
      dsimp only at hr
      split at hr
      · obtain ⟨text, -, hr⟩ := bind_eq_ok hr
        cases hr
        exact flawless_textNodes s _ _
      · obtain ⟨text, -, hr⟩ := bind_eq_ok hr
        cases hr
        exact flawless_textNodes s _ _
      · cases hr
        exact hchanged _ trivial
      · obtain ⟨old, -, hr⟩ := bind_eq_ok hr
        obtain ⟨found, -, hr⟩ := bind_eq_ok hr
        cases hr
        exact hchanged _ trivial
      · cases hr
        exact hchanged _ trivial
      · cases hr
  · cases hr

/-! ## Styles -/

/-- What a change of style sets is without a flaw. -/
def StyleChange.Flawless : StyleChange → Prop
  | .remove _ => True
  | .assign _ value => value.Flawless

theorem flawless_styleChanges {styles : Dict (Value Node)} {changes : List StyleChange}
    (h : styleChanges styles = .ok changes) : ∀ c ∈ changes, c.Flawless := by
  induction styles generalizing changes with
  | nil =>
    cases h
    exact fun c hc => nomatch hc
  | cons e rest ih =>
    obtain ⟨name, v⟩ := e
    rw [styleChanges] at h
    split at h
    · obtain ⟨others, hrest, h⟩ := bind_eq_ok h
      cases h
      exact List.forall_mem_cons.mpr ⟨trivial, ih hrest⟩
    · obtain ⟨value, hvalue, h⟩ := bind_eq_ok h
      obtain ⟨others, hrest, h⟩ := bind_eq_ok h
      cases h
      exact List.forall_mem_cons.mpr ⟨Build.flawless_styleValue hvalue, ih hrest⟩

theorem propertyName?_some {p : Node} {name : String} (h : p.propertyName? = some name) :
    ∃ key space colon, p.kind = .property key space colon := by
  unfold Node.propertyName? at h
  split at h
  · next key space colon hk => exact ⟨key, space, colon, hk⟩
  · cases h

/-- An object literal with one style changed. -/
theorem flawless_changeStyle {object : Node} {change : StyleChange} (hkind : ∃ trailing, object.kind = .object trailing)
    (h : object.Flawless) (hc : change.Flawless) :
    (changeStyle object change).Flawless ∧ ∃ trailing, (changeStyle object change).kind = .object trailing := by
  obtain ⟨trailing, hkind⟩ := hkind
  have hpermits : ∀ n, object.kind.Permits n := fun n => by rw [hkind]; trivial
  have hwith : ∀ cs : List Node, (∀ c ∈ cs, c.Flawless) →
      (object.withChildren cs).Flawless ∧ ∃ trailing, (object.withChildren cs).kind = .object trailing :=
    fun cs hcs => ⟨h.withChildren (hpermits _) hcs, trailing, by rw [Node.kind_withChildren, hkind]⟩
  have hps : ∀ p ∈ object.children, p.Flawless := fun p hp => h.child hp
  unfold changeStyle
  dsimp only
  split
  · next name =>
    refine hwith _ ?_
    cases object.children.findIdx? (·.propertyName? == some name) with
    | none => exact hps
    | some i => exact fun p hp => hps p (List.mem_of_mem_eraseIdx hp)
  · next name value =>
    split
    · next i hi =>
      obtain ⟨p, hp, hname⟩ : ∃ p, object.children[i]? = some p ∧ p.propertyName? = some name := by
        obtain ⟨hlt, hname, -⟩ := List.findIdx?_eq_some_iff_getElem.mp hi
        exact ⟨_, List.getElem?_eq_getElem hlt, eq_of_beq hname⟩
      refine hwith _ (Discipline.listModify hps hp fun hflawless => ?_)
      obtain ⟨key, space, colon, hk⟩ := propertyName?_some hname
      refine hflawless.withChildren ?_ (List.forall_mem_singleton.mpr hc)
      rw [hk]
      trivial
    · have hnew := hwith (object.children ++ [Build.property name (propertySpace object.children) value])
        (List.forall_mem_append.mpr ⟨hps, List.forall_mem_singleton.mpr (flawless_around trivial hc)⟩)
      split
      · split
        · exact ⟨hnew.1.withKind trivial, " ", Node.kind_withKind _ _⟩
        · exact hnew
      · exact hnew

theorem flawless_changeStyles {object : Node} {changes : List StyleChange}
    (hkind : ∃ trailing, object.kind = .object trailing) (h : object.Flawless) (hc : ∀ c ∈ changes, c.Flawless) :
    (changes.foldl changeStyle object).Flawless := by
  induction changes generalizing object with
  | nil => exact h
  | cons c changes ih =>
    rw [List.forall_mem_cons] at hc
    obtain ⟨hnext, hkind⟩ := flawless_changeStyle hkind h hc.1
    exact ih hkind hnext hc.2

/-- The object literal of a style attribute is somewhere below it. -/
theorem flawless_styleTarget {n object : Node} (h : n.Flawless) (ht : styleTarget n = some object) :
    object.Flawless ∧ ∃ trailing, object.kind = .object trailing := by
  rw [styleTarget] at ht
  split at ht
  · cases ht
    exact ⟨flawless_leaf trivial, "", rfl⟩
  · next a ha =>
    have hattr : a.Flawless := h.attr (List.mem_of_find?_eq_some ha)
    rw [styleObject?] at ht
    obtain ⟨slot, hslot, ht⟩ := Option.bind_eq_some_iff.mp ht
    obtain ⟨rest, hrest⟩ := value?_some hslot
    have hslot : slot.Flawless := hattr.child (hrest ▸ List.mem_cons_self)
    split at ht
    · obtain ⟨found, hfound, ht⟩ := Option.bind_eq_some_iff.mp ht
      obtain ⟨rest', hrest'⟩ := value?_some hfound
      have hfound : found.Flawless := hslot.child (hrest' ▸ List.mem_cons_self)
      split at ht
      · next trailing hk =>
        cases ht
        exact ⟨hfound, trailing, hk⟩
      · cases ht
    · cases ht

/-- Replacing the first child keeps the number of children. -/
theorem flawless_setStyleObject {as : List Node} {object : Node} (has : ∀ a ∈ as, a.Flawless) (h : object.Flawless) :
    ∀ a ∈ setStyleObject as object, a.Flawless := by
  unfold setStyleObject
  split
  · refine List.forall_mem_append.mpr ⟨has, List.forall_mem_singleton.mpr ?_⟩
    exact flawless_around ⟨by decide, Nat.le_refl 1⟩ (flawless_around (Nat.le_refl 1) h)
  · next i hi =>
    obtain ⟨a, ha, -⟩ := Node.attrIndex?_some hi
    refine Discipline.listModify has ha fun hattr => hattr.withChildren ?_ ?_
    · rw [List.length_modify]
      exact hattr.permits
    · cases hchildren : a.children with
      | nil => exact fun c hc => nomatch hc
      | cons slot rest =>
        have hall : ∀ c ∈ slot :: rest, c.Flawless := fun c hc => hattr.child (hchildren ▸ hc)
        rw [List.forall_mem_cons] at hall
        rw [List.modify_zero_cons, List.forall_mem_cons]
        refine ⟨hall.1.withChildren ?_ fun c hc => ?_, hall.2⟩
        · rw [List.length_set]
          exact hall.1.permits
        · rcases List.mem_or_eq_of_mem_set hc with hc | rfl
          · exact hall.1.child hc
          · exact h

end Edit

/-! ## The discipline -/

/-- Trees without a flaw as a discipline. -/
def flawlessDiscipline : Discipline where
  Whole := Node.Flawless
  Child := Node.Flawless
  Attr := Node.Flawless
  Value := Node.Flawless
  TagName s := isTagName s = true
  AttrName s := isAttrName s = true
  Styled := True
  child_at h hm _ := h.get hm
  whole_set h hm _ hm' _ := h.set hm hm'
  child_of h _ hc := h.child hc
  withChildren {n cs} h hmarkup hempty hcs := by
    refine h.withChildren ?_ hcs
    have hpermits := h.permits
    cases hk : n.kind with
    | element name selfClosing space closing =>
      rw [hk] at hpermits
      refine ⟨hpermits.1, hpermits.2.1, fun hself => ?_⟩
      rw [hempty (List.length_eq_zero_iff.mp (hpermits.2.2 hself))]
      rfl
    | fragment => trivial
    | _ =>
      rw [hk] at hmarkup
      cases hmarkup
  adopted {n cs} h hmarkup hcs := by
    refine h.opened.withChildren ?_ hcs
    have hpermits := h.permits
    unfold Node.opened
    cases hk : n.kind with
    | element name selfClosing space closing =>
      rw [hk] at hpermits
      cases selfClosing with
      | true =>
        rw [Node.kind_withKind]
        exact ⟨hpermits.1, hpermits.2.1, fun hself => nomatch hself⟩
      | false =>
        rw [hk]
        exact ⟨hpermits.1, hpermits.2.1, fun hself => nomatch hself⟩
    | fragment =>
      rw [hk]
      trivial
    | _ =>
      rw [hk] at hmarkup
      cases hmarkup
  closed h _ _ := h.closed
  renamed h hname := h.renamed hname
  blank _ := flawless_leaf trivial
  reblanked h _ _ := h.withKind trivial
  text s := Build.flawless_text s
  retexted h hr := Edit.flawless_replaceText h hr
  copied {n} h := Node.flawless_copy n h
  withMark h := h.withMark
  reindented {n s} h _ := Node.flawless_reindent s n h
  attr_of h _ ha := h.attr ha
  withAttributes h _ has := h.withAttributes has
  attr_new {name v} hname hv := by
    refine Node.flawless_new.mpr ⟨⟨hname, ?_⟩, fun x hx => hv x (Option.mem_toList.mp hx)⟩
    cases v <;> simp
  attr_value {a name v} h hname hv := by
    refine h.withChildren ?_ fun x hx => hv x (Option.mem_toList.mp hx)
    have hpermits := h.permits
    cases hk : a.kind with
    | attr name' space =>
      rw [hk] at hpermits
      refine ⟨hpermits.1, ?_⟩
      cases v <;> simp
    | _ =>
      rw [hk] at hname
      cases hname
  className := by decide
  quoted h := Literal.flawless_attributeString h
  styled {n object styles changes} _ h _ ht hc := by
    obtain ⟨hobject, hkind⟩ := Edit.flawless_styleTarget h ht
    exact Edit.flawless_setStyleObject (fun _ ha => h.attr ha)
      (Edit.flawless_changeStyles hkind hobject (Edit.flawless_styleChanges hc))

end JsxEdit
