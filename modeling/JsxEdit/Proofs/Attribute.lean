import JsxEdit.Edit.ClassName
import JsxEdit.Edit.Style
import JsxEdit.Proofs.Census
import JsxEdit.Proofs.Reference
import Mathlib.Data.List.Nodup

/-
Edits of attribute lists.

An attribute is set, added or taken out by its name, so an attribute list without repetitions stays one. The identity
that it gives an element is the old one, none, or one that was asked for, and then it is the text that was given. Only
a node as a value could bring elements into the list.
-/
set_option autoImplicit false

namespace JsxEdit.Node

/-- The names of the attributes in a list. -/
def names (as : List Node) : List String := (entriesOf as).map (·.1)

/-- The entry that gives an element an identity. -/
def identityEntry (id : String) : Entry := (identityName, .ok (some id))

/-- A change of an attribute list: it has no repetitions after it, no more elements than before, and no other
identity unless that is one of the free ones. -/
structure Allowed (free : String → Prop) (as as' : List Node) : Prop where
  names : (names as').Nodup
  identity : ∀ id, identityEntry id ∈ entriesOf as' → identityEntry id ∈ entriesOf as ∨ free id
  count : ∀ g, total g as' ≤ total g as

namespace Allowed

variable {free : String → Prop} {as : List Node}

theorem refl (h : (Node.names as).Nodup) : Allowed free as as := ⟨h, fun _ => .inl, fun _ => Nat.le_refl _⟩

theorem trans {bs cs : List Node} (h : Allowed free as bs) (h' : Allowed free bs cs) : Allowed free as cs := by
  refine ⟨h'.names, fun id hid => ?_, fun g => Nat.le_trans (h'.count g) (h.count g)⟩
  rcases h'.identity id hid with hb | hfree
  · exact h.identity id hb
  · exact .inr hfree

/-- What is taken out of a list is missed by nobody. -/
theorem sublist {bs : List Node} (hs : List.Sublist bs as) (h : (Node.names as).Nodup) : Allowed free as bs := by
  have he : List.Sublist (entriesOf bs) (entriesOf as) := hs.filterMap entryOf?
  exact ⟨h.sublist (he.map _), fun id hid => .inl (he.subset hid), fun g => total_le_of_sublist g hs⟩

end Allowed

/-! ## Attributes by name -/

theorem entryOf?_of_isAttr {a : Node} {name : String} (h : a.kind.isAttr name = true) :
    a.entryOf? = some (name, firstText a.children) := by
  unfold Kind.isAttr at h
  split at h
  · next s space hk => rw [← eq_of_beq h, entryOf?, hk]
  · cases h

theorem isAttr_of_entryOf {a : Node} {e : Entry} (h : a.entryOf? = some e) : a.kind.isAttr e.1 = true := by
  rw [entryOf?] at h
  split at h
  · next hk =>
    cases h
    rw [hk, Kind.isAttr, beq_self_eq_true]
  · cases h

theorem not_mem_names {as : List Node} {name : String} (h : attrIndex? as name = none) : name ∉ names as := by
  intro hm
  obtain ⟨e, he, rfl⟩ := List.mem_map.mp hm
  obtain ⟨a, ha, hae⟩ := List.mem_filterMap.mp he
  have := List.findIdx?_eq_none_iff.mp h a ha
  rw [isAttr_of_entryOf hae] at this
  cases this

theorem attrIndex?_some {as : List Node} {name : String} {i : Nat} (h : attrIndex? as name = some i) :
    ∃ a, as[i]? = some a ∧ a.kind.isAttr name = true := by
  obtain ⟨hi, ha, -⟩ := List.findIdx?_eq_some_iff_getElem.mp h
  exact ⟨as[i], List.getElem?_eq_getElem hi, ha⟩

theorem entries_cons (a : Node) (as : List Node) : entriesOf (a :: as) = a.entryOf?.toList ++ entriesOf as := by
  rw [entriesOf, List.filterMap_cons]
  cases a.entryOf? <;> rfl

theorem entries_append (as bs : List Node) : entriesOf (as ++ bs) = entriesOf as ++ entriesOf bs :=
  List.filterMap_append

theorem names_cons (a : Node) (as : List Node) : names (a :: as) = (a.entryOf?.map (·.1)).toList ++ names as := by
  rw [names, entries_cons, List.map_append]
  cases a.entryOf? <;> rfl

/-- Changing an attribute changes its entry only. -/
theorem entries_listModify {f : Node → Node} {as : List Node} {i : Nat} {a : Node} {name : String}
    {old new : Except Fault (Option String)} (ha : as[i]? = some a) (hold : a.entryOf? = some (name, old))
    (hnew : (f a).entryOf? = some (name, new)) :
    names (as.modify i f) = names as ∧ ∀ e ∈ entriesOf (as.modify i f), e ∈ entriesOf as ∨ e = (name, new) := by
  induction as generalizing i with
  | nil => cases ha
  | cons b as ih =>
    cases i with
    | zero =>
      cases ha
      rw [List.modify_zero_cons, names_cons, names_cons, hold, hnew, entries_cons, entries_cons, hold, hnew]
      refine ⟨rfl, fun e he => ?_⟩
      rcases List.mem_append.mp he with he | he
      · exact .inr (List.mem_singleton.mp he)
      · exact .inl (List.mem_append_right _ he)
    | succ i =>
      obtain ⟨hn, he⟩ := ih ha
      rw [List.modify_succ_cons, names_cons, names_cons, hn, entries_cons, entries_cons]
      refine ⟨rfl, fun e hm => ?_⟩
      rcases List.mem_append.mp hm with hm | hm
      · exact .inl (List.mem_append_left _ hm)
      · rcases he e hm with he | he
        · exact .inl (List.mem_append_right _ he)
        · exact .inr he

section Setting

variable {free : String → Prop} {as : List Node} {name : String} (h : (names as).Nodup)
include h

theorem allowed_erase {i : Nat} : Allowed free as (as.eraseIdx i) := Allowed.sublist (List.eraseIdx_sublist as i) h

/-- An attribute gets another value. -/
theorem allowed_value {i : Nat} {value : List Node} (hi : attrIndex? as name = some i)
    (hcount : ∀ g, total g value = 0)
    (hfree : ∀ id, name = identityName → firstText value = .ok (some id) → free id) :
    Allowed free as (as.modify i (·.withChildren value)) := by
  obtain ⟨a, ha, hname⟩ := attrIndex?_some hi
  have hnew : (a.withChildren value).entryOf? = some (name, firstText value) := by
    have := entryOf?_of_isAttr (a := a.withChildren value) (by rw [kind_withChildren]; exact hname)
    rwa [children_withChildren] at this
  obtain ⟨hn, he⟩ := entries_listModify (f := (·.withChildren value)) ha (entryOf?_of_isAttr hname) hnew
  refine ⟨by rw [hn]; exact h, fun id hid => ?_, fun g => ?_⟩
  · rcases he _ hid with hold | heq
    · exact .inl hold
    · rw [identityEntry, Prod.mk.injEq] at heq
      exact .inr (hfree id heq.1.symm heq.2.symm)
  · have := total_listModify g (·.withChildren value) ha
    have hc := total_withChildren g value a
    rw [hcount g] at hc
    omega

/-- A new attribute is added. -/
theorem allowed_add {value : Option Node} (hi : attrIndex? as name = none)
    (hcount : ∀ g, total g value.toList = 0)
    (hfree : ∀ id, name = identityName → firstText value.toList = .ok (some id) → free id) :
    Allowed free as (as ++ [attr name value]) := by
  have hnew : entriesOf [attr name value] = [(name, firstText value.toList)] := rfl
  refine ⟨?_, fun id hid => ?_, fun g => ?_⟩
  · rw [names, entries_append, hnew, List.map_append]
    refine List.nodup_append.mpr ⟨h, List.nodup_singleton _, ?_⟩
    rintro a ha b hb rfl
    rw [List.map_singleton, List.mem_singleton] at hb
    subst hb
    exact not_mem_names hi ha
  · rw [entries_append, hnew, List.mem_append, List.mem_singleton] at hid
    rcases hid with hold | heq
    · exact .inl hold
    · rw [identityEntry, Prod.mk.injEq] at heq
      exact .inr (hfree id heq.1.symm heq.2.symm)
  · rw [total_append, total_attr, hcount g]
    exact Nat.le_refl _

end Setting

end JsxEdit.Node

namespace JsxEdit.Edit
open Node

/-! ## Values -/

/-- Values that bring no nodes with them. -/
def isPlainValue : Value Node → Bool
  | .node _ => false
  | _ => true

theorem attributeString_kind {s quote : String} {k : Kind} (h : Literal.attributeString s quote = .ok k) :
    ∃ raw quote, k = .attributeString raw quote := by
  rw [Literal.attributeString] at h
  cases ht : Literal.attributeText s quote with
  | error f =>
    rw [ht] at h
    cases h
  | ok t =>
    rw [ht] at h
    cases h
    exact ⟨_, _, rfl⟩

theorem attributeValue_str {s : String} {new : Option Node} (h : Build.attributeValue (.str s) = .ok new) :
    ∃ k, new = some (.new k []) ∧ k.isElement = false ∧ k.stringValue = .ok (some s) := by
  rw [Build.attributeValue] at h
  cases hk : Literal.attributeString s "\"" with
  | error f =>
    rw [hk] at h
    cases h
  | ok k =>
    rw [hk] at h
    cases h
    refine ⟨k, rfl, ?_, Literal.stringValue_attributeString hk⟩
    obtain ⟨raw, quote, rfl⟩ := attributeString_kind hk
    rfl

theorem expression_bare {v : Value Node} {e : Node} (h : Build.expression v = .ok e) (g : List Entry → Nat) :
    total g [e] = 0 := by
  unfold Build.expression at h
  split at h
  · obtain rfl := Except.ok.inj h
    exact total_ofText g _
  · cases h

/-- The node for a plain value has no elements, and the text it stands for is the value. -/
theorem attributeValue_spec {v : Value Node} {new : Option Node} (hv : isPlainValue v = true)
    (h : Build.attributeValue v = .ok new) :
    (∀ g, total g new.toList = 0) ∧ ∀ id, firstText new.toList = .ok (some id) → v = .str id := by
  cases v with
  | null => cases h
  | list items => cases h
  | node n => cases hv
  | bool b =>
    cases b with
    | false => cases h
    | true =>
      cases h
      exact ⟨fun _ => rfl, fun id hid => by cases hid⟩
  | int n =>
    obtain ⟨text, -, rfl⟩ := Build.slot_number_eq_ok h
    refine ⟨fun g => ?_, fun id hid => by cases hid⟩
    rw [Option.toList_some, total_slot]
    exact total_new g rfl []
  | float d =>
    obtain ⟨text, -, rfl⟩ := Build.slot_number_eq_ok h
    refine ⟨fun g => ?_, fun id hid => by cases hid⟩
    rw [Option.toList_some, total_slot]
    exact total_new g rfl []
  | str s =>
    obtain ⟨k, rfl, hk, hs⟩ := attributeValue_str h
    refine ⟨fun g => total_new g hk [], fun id hid => ?_⟩
    have : k.stringValue = .ok (some id) := hid
    rw [hs] at this
    cases this
    rfl
  | dict entries =>
    rw [Build.attributeValue] at h
    split at h
    · next e he =>
      cases hx : Build.expression e with
      | error f =>
        rw [hx] at h
        cases h
      | ok x =>
        rw [hx] at h
        cases h
        refine ⟨fun g => ?_, fun id hid => by cases hid⟩
        rw [Option.toList_some, total_slot]
        exact expression_bare hx g
    · cases h

/-! ## One attribute after the other -/

section

variable {free : String → Prop} {as : List Node}

theorem allowed_setAttribute {name : String} {v : Value Node} {result : List Node × Value Node}
    (h : (names as).Nodup) (hv : isPlainValue v = true)
    (hfree : ∀ id, name = identityName → v = .str id → free id)
    (hset : setAttribute as name v = .ok result) : Allowed free as result.1 := by
  rw [setAttribute] at hset
  split at hset
  · next hi =>
    split at hset
    · cases hset
      exact Allowed.refl h
    · cases hnew : Build.attributeValue v with
      | error f =>
        rw [hnew] at hset
        cases hset
      | ok new =>
        rw [hnew] at hset
        cases hset
        obtain ⟨hcount, htext⟩ := attributeValue_spec hv hnew
        exact allowed_add h hi hcount fun id hn ht => hfree id hn (htext id ht)
  · next i hi =>
    cases hold : (as[i]?.getD default).attributeValue with
    | error f =>
      rw [hold] at hset
      cases hset
    | ok old =>
      rw [hold] at hset
      dsimp only [bind, Except.bind] at hset
      split at hset
      · cases hset
        exact allowed_erase h
      · cases hnew : Build.attributeValue v with
        | error f =>
          rw [hnew] at hset
          cases hset
        | ok new =>
          rw [hnew] at hset
          cases hset
          obtain ⟨hcount, htext⟩ := attributeValue_spec hv hnew
          exact allowed_value h hi hcount fun id hn ht => hfree id hn (htext id ht)

/-- Attributes set one after the other, also if a fault ends it. -/
theorem allowed_setAttributes {values old : Dict (Value Node)} (h : (names as).Nodup)
    (hv : ∀ e ∈ values, isPlainValue e.2 = true)
    (hfree : ∀ id, (identityName, Value.str id) ∈ values → free id) :
    Allowed free as (setAttributes as old values).1 := by
  induction values generalizing as old with
  | nil => exact Allowed.refl h
  | cons e values ih =>
    obtain ⟨name, v⟩ := e
    rw [setAttributes]
    split
    · exact Allowed.refl h
    · next as' value hset =>
      have hfirst : Allowed free as as' :=
        allowed_setAttribute h (hv _ List.mem_cons_self)
          (fun id hn hs => hfree id (by rw [← hn, ← hs]; exact List.mem_cons_self)) hset
      exact hfirst.trans (ih hfirst.names (fun e he => hv e (List.mem_cons_of_mem _ he))
        fun id hid => hfree id (List.mem_cons_of_mem _ hid))

/-! ## Class names -/

theorem allowed_setClassNames {words : List String} {result : List Node} (h : (names as).Nodup)
    (hset : setClassNames as words = .ok result) : Allowed free as result := by
  rw [setClassNames] at hset
  dsimp only at hset
  split at hset
  · cases hset
    cases attrIndex? as classAttribute with
    | none => exact Allowed.refl h
    | some i => exact allowed_erase h
  · cases hk : Literal.attributeString (Text.join " " words) "\"" with
    | error f =>
      rw [hk] at hset
      cases hset
    | ok k =>
      rw [hk] at hset
      dsimp only [bind, Except.bind] at hset
      obtain ⟨raw, quote, rfl⟩ := attributeString_kind hk
      have hcount : ∀ g, total g [Node.new (.attributeString raw quote) []] = 0 := fun g => total_new g rfl []
      have hname : classAttribute ≠ identityName := by decide
      split at hset
      · next hi =>
        cases hset
        exact allowed_add h hi hcount fun id hn => absurd hn hname
      · next i hi =>
        cases hset
        exact allowed_value h hi hcount fun id hn => absurd hn hname

theorem allowed_changeClassNames {n : Node} {change : List String → Option (List String)} {result : List Node}
    (h : (names n.attributes).Nodup) (hset : changeClassNames n change = .ok (some result)) :
    Allowed free n.attributes result := by
  rw [changeClassNames] at hset
  cases hc : classNames n with
  | error f =>
    rw [hc] at hset
    cases hset
  | ok found =>
    rw [hc] at hset
    cases found with
    | none => cases hset
    | some words =>
      dsimp only [bind, Except.bind] at hset
      split at hset
      · cases hset
        exact Allowed.refl h
      · next words' _ =>
        cases hs : setClassNames n.attributes words' with
        | error f =>
          rw [hs] at hset
          cases hset
        | ok as' =>
          rw [hs] at hset
          cases hset
          exact allowed_setClassNames h hs

/-! ## Styles -/

/-- A change of a style that brings no elements with it. -/
def StyleChange.IsBare : StyleChange → Prop
  | .remove _ => True
  | .assign _ value => ∀ g, total g [value] = 0

theorem styleValue_bare {v : Value Node} {e : Node} (h : Build.styleValue v = .ok e) (g : List Entry → Nat) :
    total g [e] = 0 := by
  unfold Build.styleValue at h
  split at h
  · cases h
    exact total_new g rfl []
  · obtain ⟨text, -, rfl⟩ := Build.number_eq_ok h
    exact total_new g rfl []
  · obtain ⟨text, -, rfl⟩ := Build.number_eq_ok h
    exact total_new g rfl []
  · split at h
    · exact expression_bare h g
    · cases h
  · cases h

theorem styleChanges_bare {d : Dict (Value Node)} {changes : List StyleChange} (h : styleChanges d = .ok changes) :
    ∀ c ∈ changes, c.IsBare := by
  induction d generalizing changes with
  | nil =>
    cases h
    intro c hc
    cases hc
  | cons e d ih =>
    obtain ⟨name, v⟩ := e
    rw [styleChanges] at h
    split at h
    · cases hr : styleChanges d with
      | error f =>
        rw [hr] at h
        cases h
      | ok rest =>
        rw [hr] at h
        cases h
        rintro c hc
        rcases List.mem_cons.mp hc with rfl | hc
        · exact trivial
        · exact ih hr c hc
    · cases hs : Build.styleValue v with
      | error f =>
        rw [hs] at h
        cases h
      | ok value =>
        cases hr : styleChanges d with
        | error f =>
          rw [hs, hr] at h
          cases h
        | ok rest =>
          rw [hs, hr] at h
          cases h
          rintro c hc
          rcases List.mem_cons.mp hc with rfl | hc
          · exact styleValue_bare hs
          · exact ih hr c hc

theorem total_changeStyle (g : List Entry → Nat) {object : Node} {c : StyleChange} (hk : object.kind.isElement = false)
    (hc : c.IsBare) :
    total g [changeStyle object c] ≤ total g [object] ∧ (changeStyle object c).kind.isElement = false := by
  have hwith : ∀ ps : List Node, total g ps ≤ total g object.children →
      total g [object.withChildren ps] ≤ total g [object] := by
    intro ps hps
    have := total_withChildren g ps object
    omega
  unfold changeStyle
  dsimp only
  split
  · next name =>
    refine ⟨hwith _ ?_, by rw [kind_withChildren]; exact hk⟩
    cases object.children.findIdx? (·.propertyName? == some name) with
    | none => exact Nat.le_refl _
    | some i => exact total_le_of_sublist g (List.eraseIdx_sublist _ i)
  · next name value =>
    have hvalue : total g [value] = 0 := hc g
    split
    · next i hi =>
      refine ⟨hwith _ ?_, by rw [kind_withChildren]; exact hk⟩
      obtain ⟨hlt, -, -⟩ := List.findIdx?_eq_some_iff_getElem.mp hi
      have := total_listModify g (·.withChildren [value]) (List.getElem?_eq_getElem hlt)
      have hset := total_withChildren g [value] object.children[i]
      omega
    · next hi =>
      have hnew : total g [object.withChildren
          (object.children ++ [Build.property name (propertySpace object.children) value])] ≤ total g [object] := by
        refine hwith _ ?_
        rw [total_append, Build.property, total_new g rfl, hvalue]
        exact Nat.le_refl _
      split
      · split
        · refine ⟨?_, by rw [kind_withKind]; rfl⟩
          rw [total_withKind g (by rw [kind_withChildren, hk]; rfl)]
          exact hnew
        · exact ⟨hnew, by rw [kind_withChildren]; exact hk⟩
      · exact ⟨hnew, by rw [kind_withChildren]; exact hk⟩

theorem total_changeStyles (g : List Entry → Nat) {changes : List StyleChange} {object : Node}
    (hk : object.kind.isElement = false) (hc : ∀ c ∈ changes, c.IsBare) :
    total g [changes.foldl changeStyle object] ≤ total g [object] := by
  induction changes generalizing object with
  | nil => exact Nat.le_refl _
  | cons c changes ih =>
    obtain ⟨hle, hk'⟩ := total_changeStyle g hk (hc c List.mem_cons_self)
    exact Nat.le_trans (ih hk' fun d hd => hc d (List.mem_cons_of_mem _ hd)) hle

theorem attr?_eq (n : Node) (name : String) :
    n.attr? name = (attrIndex? n.attributes name).bind fun i => n.attributes[i]? := by
  rw [attr?, attrIndex?]
  induction n.attributes with
  | nil => rfl
  | cons a as ih =>
    rw [List.find?_cons, List.findIdx?_cons]
    cases a.kind.isAttr name with
    | true => rfl
    | false =>
      dsimp only
      rw [ih, if_neg (by decide)]
      cases as.findIdx? _ <;> rfl

theorem value?_some {n v : Node} (h : n.value? = some v) : ∃ rest, n.children = v :: rest := by
  rw [value?] at h
  have := Option.filter_eq_some_iff.mp h
  cases hc : n.children with
  | nil =>
    rw [hc] at this
    cases this.1
  | cons c rest =>
    rw [hc] at this
    cases this.1
    exact ⟨rest, rfl⟩

/-- The object literal of a style attribute is the only child of its slot that is looked at. -/
theorem styleObject?_some {a object : Node} (h : styleObject? a = some object) :
    ∃ slot rest rest', a.children = slot :: rest ∧ slot.children = object :: rest' ∧
      object.kind.isElement = false := by
  rw [styleObject?] at h
  obtain ⟨slot, hs, h⟩ := Option.bind_eq_some_iff.mp h
  obtain ⟨rest, hrest⟩ := value?_some hs
  split at h
  · obtain ⟨found, ho, h⟩ := Option.bind_eq_some_iff.mp h
    obtain ⟨rest', hrest'⟩ := value?_some ho
    split at h
    · next hk =>
      cases h
      exact ⟨slot, rest, rest', hrest, hrest', by rw [hk]; rfl⟩
    · cases h
  · cases h

theorem styleTarget_kind {n object : Node} (h : styleTarget n = some object) : object.kind.isElement = false := by
  rw [styleTarget] at h
  split at h
  · cases h
    rfl
  · obtain ⟨-, -, -, -, -, hk⟩ := styleObject?_some h
    exact hk

theorem allowed_setStyleObject {n object object' : Node} (h : (names n.attributes).Nodup)
    (ht : styleTarget n = some object) (hle : ∀ g, total g [object'] ≤ total g [object]) :
    Allowed free n.attributes (setStyleObject n.attributes object') := by
  rw [styleTarget, attr?_eq] at ht
  rw [setStyleObject]
  split
  · next hi =>
    rw [hi] at ht
    cases ht
    refine allowed_add h hi (fun g => ?_) fun id hn => absurd hn (by decide)
    have := hle g
    rw [total_new g rfl, total_nil] at this
    rw [Option.toList_some, total_slot]
    omega
  · next i hi =>
    obtain ⟨a, ha, hname⟩ := attrIndex?_some hi
    rw [hi, Option.bind_some, ha] at ht
    obtain ⟨slot, rest, rest', hrest, hrest', -⟩ := styleObject?_some ht
    have hold := entryOf?_of_isAttr hname
    have hnew : (a.withChildren (a.children.modify 0 fun slot => slot.withChildren (slot.children.set 0 object'))).entryOf? =
        some (styleAttribute, firstText a.children) := by
      rw [← hold]
      refine entryOf?_congr (kind_withChildren _ _) ?_
      rw [children_withChildren, hrest, List.modify_zero_cons]
      exact congrArg Kind.stringValue (kind_withChildren _ _)
    obtain ⟨hn, he⟩ := entries_listModify
      (f := fun a => a.withChildren (a.children.modify 0 fun slot => slot.withChildren (slot.children.set 0 object')))
      ha hold hnew
    refine ⟨by rw [hn]; exact h, fun id hid => ?_, fun g => ?_⟩
    · rcases he _ hid with hmem | heq
      · exact .inl hmem
      · rw [identityEntry, Prod.mk.injEq] at heq
        exact absurd heq.1 (by decide)
    · have h1 := total_listModify g
        (fun a => a.withChildren (a.children.modify 0 fun slot => slot.withChildren (slot.children.set 0 object'))) ha
      have h2 := total_withChildren g (slot.withChildren (object' :: rest') :: rest) a
      have h3 := total_withChildren g (object' :: rest') slot
      rw [hrest, total_cons g slot rest, total_cons g (slot.withChildren _) rest] at h2
      rw [hrest', total_cons g object rest', total_cons g object' rest'] at h3
      rw [hrest, List.modify_zero_cons, hrest', List.set_cons_zero] at h1
      have := hle g
      omega

end

end JsxEdit.Edit
