import JsxEdit.Proofs.Restate
import JsxEdit.Proofs.StyleChange

/-
Styles as a dictionary.

The changes for a dictionary of styles are made one after the other, each at the first property with its name. If no two
properties have the same name, what becomes of each of them can be said at once, and new properties follow in the order of
the dictionary. The styles are read property by property, so they are merged in the same way.
-/
set_option autoImplicit false

namespace JsxEdit

theorem mapM_eq_ok_of_forall₂ {α β : Type} {R : α → β → Prop} {f : α → Except Fault β} {xs : List α} {ys : List β}
    (h : List.Forall₂ R xs ys) (hf : ∀ x y, R x y → f x = .ok y) : xs.mapM f = .ok ys := by
  induction h with
  | nil => rfl
  | cons hxy _ ih =>
    rw [List.mapM_cons, hf _ _ hxy, ih]
    rfl

/-! ## Dictionaries -/

namespace Dict

variable {α : Type}

theorem ofPairs_of_nodup {pairs : List (String × α)} (h : (pairs.map (·.1)).Nodup) : ofPairs pairs = pairs := by
  induction pairs using List.reverseRecOn with
  | nil => rfl
  | append_singleton pairs e ih =>
    rw [List.map_append, List.nodup_append] at h
    have hput : ofPairs (pairs ++ [e]) = (ofPairs pairs).put e.1 e.2 := List.foldl_concat ..
    have hfresh : e.1 ∉ pairs.map (·.1) := fun hmem => h.2.2 _ hmem _ List.mem_cons_self rfl
    rw [hput, ih h.1, Edit.put_of_not_mem hfresh]

theorem has_eq_false {d : Dict α} {key : String} : d.has key = false ↔ key ∉ d.map (·.1) := by
  rw [has, List.any_eq_false]
  refine ⟨fun h hmem => ?_, fun h e he heq => h (beq_iff_eq.mp heq ▸ List.mem_map_of_mem he)⟩
  obtain ⟨e, he, rfl⟩ := List.mem_map.mp hmem
  exact h e he (beq_self_eq_true _)

end Dict

namespace Edit
open Node

/-! ## Styles -/

/-- What becomes of an entry: it stays, goes, or gets the value that the other dictionary has for its key. -/
def mergedEntry (changes : Dict (Value Node)) (e : String × Value Node) : Option (String × Value Node) :=
  match changes.get? e.1 with
  | none => some e
  | some v => if isRemoval v then none else some (e.1, v)

theorem mergedEntry_of_none {changes : Dict (Value Node)} {e : String × Value Node} (h : changes.get? e.1 = none) :
    mergedEntry changes e = some e := by
  rw [mergedEntry, h]

theorem mergedEntry_of_some {changes : Dict (Value Node)} {e : String × Value Node} {v : Value Node}
    (h : changes.get? e.1 = some v) : mergedEntry changes e = if isRemoval v then none else some (e.1, v) := by
  rw [mergedEntry, h]

theorem key_of_mergedEntry {changes : Dict (Value Node)} {e e' : String × Value Node} (h : mergedEntry changes e = some e') :
    e'.1 = e.1 := by
  cases hv : changes.get? e.1 with
  | none =>
    rw [mergedEntry_of_none hv] at h
    cases h
    rfl
  | some v =>
    rw [mergedEntry_of_some hv] at h
    split at h
    · cases h
    · cases h
      rfl

/-- A dictionary of styles with another one merged into it: removals take entries out, known keys keep their place, and new
ones follow. -/
def merged (d changes : Dict (Value Node)) : Dict (Value Node) :=
  d.filterMap (mergedEntry changes) ++ changes.filter fun e => !isRemoval e.2 && !d.has e.1

theorem nodup_merged {d changes : Dict (Value Node)} (hd : (d.map (·.1)).Nodup) (hchanges : (changes.map (·.1)).Nodup) :
    ((merged d changes).map (·.1)).Nodup := by
  have hkept : ((d.filterMap (mergedEntry changes)).map (·.1)).Sublist (d.map (·.1)) := by
    clear hd
    induction d with
    | nil => exact .slnil
    | cons e d ih =>
      cases he : mergedEntry changes e with
      | none =>
        rw [List.filterMap_cons_none he]
        exact ih.cons _
      | some e' =>
        rw [List.filterMap_cons_some he, List.map_cons, List.map_cons, key_of_mergedEntry he]
        exact ih.cons_cons _
  rw [merged, List.map_append, List.nodup_append]
  refine ⟨hkept.nodup hd, (List.filter_sublist.map _).nodup hchanges, ?_⟩
  rintro key hkey other hother rfl
  obtain ⟨e, he, rfl⟩ := List.mem_map.mp hother
  have hfresh := List.of_mem_filter he
  rw [Bool.and_eq_true, Bool.not_eq_true', Bool.not_eq_true', Dict.has_eq_false] at hfresh
  exact hfresh.2 (hkept.subset hkey)

theorem stylesOf_of_entries {o : Node} {pairs : List (String × Value Node)} (h : List.Forall₂ IsEntry o.children pairs) :
    stylesOf o = .ok (Dict.ofPairs pairs) := by
  rw [stylesOf, mapM_eq_ok_of_forall₂ h]
  · rfl
  · rintro p e ⟨hname, value, hvalue, hof⟩
    rw [hname]
    dsimp only
    rw [hvalue]
    exact congrArg Except.ok (Prod.ext rfl hof.symm)

/-- With distinct names, the styles of an object literal are the entries of its properties in order. -/
theorem entries_of_stylesOf {o : Node} {d : Dict (Value Node)} (h : stylesOf o = .ok d)
    (hnames : (o.children.map (·.propertyName?)).Nodup) :
    List.Forall₂ IsEntry o.children d ∧ (d.map (·.1)).Nodup := by
  obtain ⟨pairs, rfl, hpairs⟩ := stylesOf_eq_ok h
  have hkeys : o.children.map (·.propertyName?) = (pairs.map (·.1)).map some := by
    clear h hnames
    revert hpairs
    generalize o.children = ps
    intro hpairs
    induction hpairs with
    | nil => rfl
    | cons hentry _ ih => rw [List.map_cons, List.map_cons, List.map_cons, hentry.1, ih]
  have hnodup : (pairs.map (·.1)).Nodup := .of_map some (hkeys ▸ hnames)
  rw [Dict.ofPairs_of_nodup hnodup]
  exact ⟨hpairs, hnodup⟩

/-- A property with the expression for a style has it as its entry. -/
theorem isEntry_of_isStyle {name : String} {v : Value Node} {p value : Node} (h : IsStyle v)
    (hvalue : Build.styleValue v = .ok value) (hname : p.propertyName? = some name) (hp : p.children = [value]) :
    IsEntry p (name, v) := by
  obtain ⟨datum, hdatum, hof⟩ := (isStyleNode_of_styleValue h hvalue).propertyValue hp
  exact ⟨hname, datum, hdatum, hof.symm⟩

section

variable {ps news : List Node} {d changes : Dict (Value Node)} (hstyles : ∀ e ∈ changes, IsStyle e.2)
include hstyles

/-- The properties that were there have the entries that were there. -/
theorem entries_restyled (h : List.Forall₂ IsEntry ps d) :
    List.Forall₂ IsEntry (ps.filterMap (restyled changes)) (d.filterMap (mergedEntry changes)) := by
  induction h with
  | nil => exact .nil
  | @cons p e ps d hentry _ ih =>
    cases hv : changes.get? e.1 with
    | none =>
      rw [List.filterMap_cons_some (restyled_of_none hentry.1 hv), List.filterMap_cons_some (mergedEntry_of_none hv)]
      exact .cons hentry ih
    | some v =>
      have he := mergedEntry_of_some hv
      cases hremoval : isRemoval v with
      | true =>
        rw [hremoval, if_pos rfl] at he
        rw [List.filterMap_cons_none (restyled_of_removal hentry.1 hv hremoval), List.filterMap_cons_none he]
        exact ih
      | false =>
        rw [hremoval, if_neg Bool.false_ne_true] at he
        have hstyle : IsStyle v := by
          obtain ⟨e', he', rfl⟩ := Dict.mem_of_get? hv
          exact hstyles e' he'
        obtain ⟨value, hvalue⟩ := styleValue_of_isStyle hstyle hremoval
        rw [List.filterMap_cons_some (restyled_of_given hentry.1 hv hremoval hvalue), List.filterMap_cons_some he]
        refine .cons (isEntry_of_isStyle hstyle hvalue ?_ (children_withChildren [value] p)) ih
        rw [propertyName?_withChildren, hentry.1]

theorem entries_new (h : List.Forall₂ IsNew changes news) : List.Forall₂ IsEntry news changes := by
  refine .flip (forall₂_of_mem h fun e he p hp => ?_)
  obtain ⟨space, value, hvalue, rfl⟩ := hp
  exact isEntry_of_isStyle (hstyles e he) hvalue (propertyName?_property _ _ _) rfl

end

/-- The names that the properties hold are those of the entries. -/
theorem unheld_eq {ps : List Node} {d : Dict (Value Node)} (h : List.Forall₂ IsEntry ps d) (changes : Dict (Value Node)) :
    unheld ps changes = changes.filter fun e => !isRemoval e.2 && !d.has e.1 := by
  refine List.filter_congr fun e _ => ?_
  have hlength := (entries_named h e.1).length_eq
  have hempty : (named e.1 ps).isEmpty = !d.has e.1 := by
    rw [Bool.eq_iff_iff, List.isEmpty_iff_length_eq_zero, hlength, List.length_eq_zero_iff, List.filter_eq_nil_iff,
      Bool.not_eq_true', Dict.has, List.any_eq_false]
  rw [hempty]

/-- Changing the styles of an object literal with distinct names merges the dictionary of the changes into its own. -/
theorem stylesOf_changes {o : Node} {d changes : Dict (Value Node)} {cs : List StyleChange} (hd : stylesOf o = .ok d)
    (hnames : (o.children.map (·.propertyName?)).Nodup) (hstyles : ∀ e ∈ changes, IsStyle e.2)
    (hkeys : (changes.map (·.1)).Nodup) (hcs : styleChanges changes = .ok cs) : ∃ news,
    (cs.foldl changeStyle o).children = o.children.filterMap (restyled changes) ++ news ∧
      List.Forall₂ IsNew (changes.filter fun e => !isRemoval e.2 && !d.has e.1) news ∧
      stylesOf (cs.foldl changeStyle o) = .ok (merged d changes) := by
  obtain ⟨hentries, hnodup⟩ := entries_of_stylesOf hd hnames
  obtain ⟨news, hnews, hnew⟩ := children_changes (asks_of_styleChanges hcs) hkeys o
  rw [restyleFirsts_eq_filterMap hnames] at hnews
  rw [unheld_eq hentries] at hnew
  refine ⟨news, hnews, hnew, ?_⟩
  have hall : List.Forall₂ IsEntry (cs.foldl changeStyle o).children (merged d changes) := by
    rw [hnews]
    exact List.rel_append (entries_restyled hstyles hentries)
      (entries_new (fun e he => hstyles e (List.mem_of_mem_filter he)) hnew)
  rw [stylesOf_of_entries hall, Dict.ofPairs_of_nodup (nodup_merged hnodup hkeys)]

/-! ## The style attribute -/

/-- Attributes of which one has another object literal as style, or has come to have one. -/
inductive GetsObject (as : List Node) (o o' : Node) : List Node → Prop
  | add (missing : ∀ a ∈ as, a.kind.isAttr styleAttribute = false) :
    GetsObject as o o' (as ++ [.attr styleAttribute (some (.slot o'))])
  | change {left right rest rest' : List Node} {a slot : Node} {lead trail : String} (split : as = left ++ a :: right)
    (named : a.kind.isAttr styleAttribute = true) (first : ∀ x ∈ left, x.kind.isAttr styleAttribute = false)
    (value : a.children = slot :: rest) (slotted : slot.kind = .slot lead trail) (object : slot.children = o :: rest') :
    GetsObject as o o' (left ++ a.withChildren (slot.withChildren (o' :: rest') :: rest) :: right)

theorem getsObject_setStyleObject {n o : Node} (h : styleTarget n = some o) (o' : Node) :
    GetsObject n.attributes o o' (setStyleObject n.attributes o') := by
  rw [styleTarget] at h
  cases ha : n.attr? styleAttribute with
  | none =>
    have hmissing : ∀ a ∈ n.attributes, a.kind.isAttr styleAttribute = false := by
      simpa using List.find?_eq_none.mp ha
    rw [setStyleObject, attrIndex?_eq_none.mpr hmissing]
    exact .add hmissing
  | some a =>
    rw [ha] at h
    obtain ⟨left, slot, rest, rest', right, hsplit, hfirst, hchildren, ⟨lead, trail, hkind⟩, hslot, hset⟩ :=
      setStyleObject_split ha h
    rw [hset]
    exact .change hsplit (List.find?_some (p := fun a : Node => a.kind.isAttr styleAttribute) ha) hfirst hchildren hkind hslot

section

variable {as as' : List Node} {o o' : Node} (h : GetsObject as o o' as')
include h

/-- Nothing with another name plays a part. -/
theorem GetsObject.find?_other {other : String} (hne : styleAttribute ≠ other) :
    as'.find? (·.kind.isAttr other) = as.find? (·.kind.isAttr other) := by
  cases h with
  | add missing => rw [List.find?_append, find?_cons_other rfl hne, List.find?_nil, Option.or_none]
  | @change left right rest rest' a slot lead trail split named first value slotted object =>
    have hchanged : (a.withChildren (slot.withChildren (o' :: rest') :: rest)).kind.isAttr styleAttribute = true := by
      rw [kind_withChildren, named]
    rw [split, List.find?_append, List.find?_append, find?_cons_other named hne, find?_cons_other hchanged hne]

/-- The new object literal is the one that is found. -/
theorem GetsObject.styleObject? {trailing : String} (hk : o'.kind = .object trailing) :
    (as'.find? (·.kind.isAttr styleAttribute)).bind Edit.styleObject? = some o' := by
  cases h with
  | add missing =>
    rw [find?_of_split rfl (isAttr_iff.mpr ⟨_, rfl⟩) missing, Option.bind_some]
    exact styleObject?_eq_some.mpr ⟨_, [], [], rfl, ⟨_, _, rfl⟩, rfl, trailing, hk⟩
  | change split named first value slotted object =>
    rw [find?_of_split rfl (by rw [kind_withChildren, named]) first, Option.bind_some]
    exact styleObject?_eq_some.mpr ⟨_, _, _, children_withChildren _ _, ⟨_, _, by rw [kind_withChildren, slotted]⟩,
      children_withChildren _ _, trailing, hk⟩

end

/-- The styles of an element are those of the object literal to change. -/
theorem getStyles_of_target {tree o : Node} {id : String} {v : Visit} {d : Dict (Value Node)}
    (hv : tree.findId id = .ok (some v)) (ho : styleTarget v.node = some o) (hd : stylesOf o = .ok d) :
    getStyles tree id = .ok (some d) := by
  rw [getStyles, hv]
  dsimp only [bind, Except.bind]
  rw [styleTarget] at ho
  cases ha : v.node.attr? styleAttribute with
  | none =>
    rw [ha] at ho
    cases ho
    cases hd
    rfl
  | some a =>
    rw [ha] at ho
    dsimp only at ho
    rw [Option.bind_some, ho]
    dsimp only
    rw [hd]
    rfl

theorem styleTarget_of_bind {n o : Node} (h : (n.attr? styleAttribute).bind styleObject? = some o) :
    styleTarget n = some o := by
  obtain ⟨a, ha, ho⟩ := Option.bind_eq_some_iff.mp h
  rw [styleTarget, ha]
  exact ho

/-- The object literal to change is one, also where there was none. -/
theorem kind_styleTarget {n o : Node} (h : styleTarget n = some o) : ∃ trailing, o.kind = .object trailing := by
  rw [styleTarget] at h
  split at h
  · cases h
    exact ⟨"", rfl⟩
  · exact kind_styleObject h

/-- An update of styles merges the given ones, with their names in camel case, into those of the element: both the result
and the element have the merged dictionary. In the object literal each property is dealt with by its name and new ones
follow; nothing else in the attributes changes, and no other node does. The styles that are there have distinct names and
can be worked out; the given ones are texts, whole numbers of no more digits than can be read, or nothing. -/
theorem styles_merged {tree o : Node} {id : String} {v : Visit} {d styles : Dict (Value Node)}
    (htree : tree.KeepsAttributes) (hv : tree.findId id = .ok (some v)) (ho : styleTarget v.node = some o)
    (hnames : (o.children.map (·.propertyName?)).Nodup) (hd : stylesOf o = .ok d) (hstyles : ∀ e ∈ styles, IsStyle e.2) :
    getStyles tree id = .ok (some d) ∧ ∃ as o' trailing news,
      updateStyles tree id styles = .succeeded (tree.set v.path (v.node.withAttributes as))
        ("Styles updated on \"" ++ id ++ "\"") [("styles", .dict (merged d (Dict.rename Text.camelCase styles)))] ∧
      getStyles (tree.set v.path (v.node.withAttributes as)) id =
        .ok (some (merged d (Dict.rename Text.camelCase styles))) ∧
      GetsObject v.node.attributes o o' as ∧ o' = (o.withKind (.object trailing)).withChildren
        (o.children.filterMap (restyled (Dict.rename Text.camelCase styles)) ++ news) ∧
      List.Forall₂ IsNew ((Dict.rename Text.camelCase styles).filter fun e => !isRemoval e.2 && !d.has e.1) news := by
  refine ⟨getStyles_of_target hv ho hd, ?_⟩
  have hget := htree.get?_visit (findId_some hv).mem
  have hchanges := isStyle_rename hstyles
  obtain ⟨cs, hcs⟩ := exists_styleChanges hchanges
  obtain ⟨news, hchildren, hnew, hmerged⟩ := stylesOf_changes hd hnames hchanges (nodup_ofPairs _) hcs
  obtain ⟨trailing₀, hkind₀⟩ := kind_styleTarget ho
  obtain ⟨trailing, hobject⟩ := kind_changes hkind₀ cs
  have hkind : (cs.foldl changeStyle o).kind = .object trailing := by rw [hobject, kind_withChildren, kind_withKind]
  have hgets := getsObject_setStyleObject ho (cs.foldl changeStyle o)
  refine ⟨_, _, trailing, news, ?_, ?_, hgets, by rw [hobject, hchildren], hnew⟩
  · rw [updateStyles, hv]
    dsimp only
    rw [ho]
    dsimp only
    rw [hcs]
    dsimp only
    rw [hmerged, modify_eq_set _ hget]
  · have helement : (v.node.withAttributes (setStyleObject v.node.attributes (cs.foldl changeStyle o))).kind.isElement =
        true := by
      rw [kind_withAttributes]
      exact (findId_some hv).element
    have hfound := findId_set_of_identity hv hget helement
      (elementIdentity_withAttributes (hgets.find?_other (show styleAttribute ≠ identityName by decide)))
    refine getStyles_of_target hfound (styleTarget_of_bind ?_) hmerged
    rw [attr?, attributes_withAttributes]
    exact hgets.styleObject? hkind

/-- An object literal with a style that is to change and one that is to go. -/
def twoStyles : Node :=
  .new (.object " ") [Build.property "color" " " (.new (.string "red" "'") []),
    Build.property "margin" " " (.new (.number "0") [])]

/-- An element with the two styles. -/
def styledElement : Node :=
  .new (.document none) [.element "p" [.attr "data-editable" (some (.new (.attributeString "p" "\"") [])),
    .attr "style" (some (.slot twoStyles))] []]

/-- What the styles are to be: one of another value, one no longer there, and one more. -/
def restyling : Dict (Value Node) := [("color", .str "it's"), ("margin", .null), ("line-height", .int 2)]

theorem isStyle_restyling : ∀ e ∈ restyling, IsStyle e.2 := by
  intro e he
  simp only [restyling, List.mem_cons, List.not_mem_nil, or_false] at he
  rcases he with rfl | rfl | rfl
  · trivial
  · trivial
  · exact ⟨"2", rfl⟩

theorem styledElement_merges : getStyles styledElement "p" = .ok (some [("color", .str "red"), ("margin", .int 0)]) ∧
    ∃ tree, updateStyles styledElement "p" restyling = .succeeded tree "Styles updated on \"p\""
        [("styles", .dict [("color", .str "it's"), ("lineHeight", .int 2)])] ∧
      getStyles tree "p" = .ok (some [("color", .str "it's"), ("lineHeight", .int 2)]) := by
  have htree : styledElement.KeepsAttributes := by
    unfold KeepsAttributes
    decide
  obtain ⟨d, hd, hwords⟩ := exists_ok_of_any (r := stylesOf twoStyles)
    (p := sameWords [("color", .str "red"), ("margin", .int 0)]) (by decide +kernel)
  obtain rfl := eq_of_sameWords hwords
  have hmerged : merged [("color", .str "red"), ("margin", .int 0)] (Dict.rename Text.camelCase restyling) =
      [("color", .str "it's"), ("lineHeight", .int 2)] := eq_of_sameWords (by decide +kernel)
  obtain ⟨v, hv, ho⟩ : ∃ v, styledElement.findId "p" = .ok (some v) ∧ styleTarget v.node = some twoStyles := ⟨_, rfl, rfl⟩
  obtain ⟨hbefore, as, -, -, -, hupdate, hafter, -⟩ :=
    styles_merged htree hv ho (by decide +kernel) hd isStyle_restyling
  rw [hmerged] at hupdate hafter
  exact ⟨hbefore, _, hupdate, hafter⟩

/-- A property whose value is an attribute string. -/
def encodedProperty (raw : String) : Node := Build.property "a" " " (.new (.attributeString raw "\"") [])

/-- An element with this one style. -/
def encodedStyle (raw : String) : Node :=
  .new (.document none) [.element "p" [.attr "data-editable" (some (.new (.attributeString "p" "\"") [])),
    .attr "style" (some (.slot (.new (.object " ") [encodedProperty raw])))] []]

/-- A style that cannot be decoded keeps all styles from being given back. -/
theorem encodedStyle_faults {raw : String} (h : Literal.references raw = .error .badNumber) :
    ∃ v o, (encodedStyle raw).findId "p" = .ok (some v) ∧ styleTarget v.node = some o ∧
      o.children = [encodedProperty raw] ∧
      ¬ (updateStyles (encodedStyle raw) "p" [("color", .str "red")]).Succeeds := by
  obtain ⟨v, hv, ho⟩ : ∃ v, (encodedStyle raw).findId "p" = .ok (some v) ∧
      styleTarget v.node = some (.new (.object " ") [encodedProperty raw]) := ⟨_, rfl, rfl⟩
  refine ⟨v, _, hv, ho, rfl, ?_⟩
  have hvalue : (encodedProperty raw).propertyValue = .error .badNumber := by
    show (Node.new (.attributeString raw "\"") []).expressionValue = _
    rw [expressionValue_literal rfl, Kind.literalValue, h]
    rfl
  have hstyles : ∀ ps, stylesOf (.new (.object " ") (encodedProperty raw :: ps)) = .error .badNumber := by
    intro ps
    rw [stylesOf, children_new, List.mapM_cons]
    show ((do return ("a", Value.ofDatum (← (encodedProperty raw).propertyValue))) >>= _) >>= _ = _
    rw [hvalue]
    rfl
  obtain ⟨cs, ps, hcs, hps⟩ : ∃ cs ps, styleChanges (Dict.rename Text.camelCase [("color", .str "red")]) = .ok cs ∧
      cs.foldl changeStyle (.new (.object " ") [encodedProperty raw]) =
        .new (.object " ") (encodedProperty raw :: ps) := ⟨_, _, rfl, rfl⟩
  rw [updateStyles, hv]
  dsimp only
  rw [ho]
  dsimp only
  rw [hcs]
  dsimp only
  rw [hps, hstyles]
  rintro ⟨out, hout, -⟩
  cases hout

theorem longStyle_fails : ∃ v o, (encodedStyle longReference).findId "p" = .ok (some v) ∧
    styleTarget v.node = some o ∧ o.children = [encodedProperty longReference] ∧
    ¬ (updateStyles (encodedStyle longReference) "p" [("color", .str "red")]).Succeeds :=
  encodedStyle_faults references_longReference

end Edit
end JsxEdit
