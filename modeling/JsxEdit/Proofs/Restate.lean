import JsxEdit.Proofs.Batch
import JsxEdit.Proofs.FlawlessRun
import JsxEdit.Proofs.StyleChange

/-
What is there already, set again.

A tag name is the same name in both tags. Class names that are there, or are not, leave nothing to do. A value that was
read from an attribute and is set again takes its old place, but it is written as new values are: what was written in
another way changes there, and nothing else does. Styles are set again under the names that new styles have, and only the
first property of a name is looked at: a hyphened name has a second property for it, of two properties with one name the
first takes the value of the last, and an element without styles has an attribute for none of them.
-/
set_option autoImplicit false

namespace JsxEdit

theorem append_around_inj {pre post s t : String} : pre ++ s ++ post = pre ++ t ++ post ↔ s = t := by
  constructor
  · intro h
    rw [← String.toList_inj] at h ⊢
    simpa only [String.toList_append, List.append_left_inj, List.append_right_inj] using h
  · rintro rfl
    rfl

theorem forall₂_of_mem {α β : Type} {R S : α → β → Prop} {xs : List α} {ys : List β} (h : List.Forall₂ R xs ys)
    (hs : ∀ x ∈ xs, ∀ y, R x y → S x y) : List.Forall₂ S xs ys := by
  induction h with
  | nil => exact .nil
  | cons hxy _ ih =>
    rw [List.forall_mem_cons] at hs
    exact .cons (hs.1 _ hxy) (ih hs.2)

namespace Node

@[simp] theorem withChildren_withChildren (n : Node) (cs ds : List Node) :
    (n.withChildren cs).withChildren ds = n.withChildren ds := by cases n; rfl

/-! ## Parts of the text -/

/-- Another attribute in the place of one is another piece of the text. -/
theorem write_setAttribute {tree n : Node} {p : Path} (hget : tree.get? p = some n) (hn : n.kind.isElement = true)
    {left right : List Node} {a : Node} (hsplit : n.attributes = left ++ a :: right) (a' : Node) :
    ∃ pre post, tree.write = pre ++ a.write ++ post ∧
      (tree.set p (n.withAttributes (left ++ a' :: right))).write = pre ++ a'.write ++ post := by
  obtain ⟨pre, post, hbefore, hafter⟩ :=
    write_modify (f := fun _ => n.withAttributes (left ++ a' :: right)) (isMarkup_of_isElement hn) hget
  obtain ⟨pre', post', haround⟩ := write_around_attributes n hn
  refine ⟨pre ++ pre' ++ writeAll left, writeAll right ++ post' ++ post, ?_, ?_⟩
  · have hself := haround n.attributes
    rw [withAttributes_attributes, hsplit, writeAll_around] at hself
    rw [hbefore, hself]
    simp only [String.append_assoc]
  · rw [set, hafter, haround, writeAll_around]
    simp only [String.append_assoc]

/-- Another first child is another piece of the text. -/
theorem write_setFirst {n c : Node} {rest : List Node} (h : n.children = c :: rest) :
    ∃ pre post, n.write = pre ++ c.write ++ post ∧
      ∀ c' : Node, (n.withChildren (c' :: rest)).write = pre ++ c'.write ++ post := by
  obtain ⟨pre, post, haround⟩ := write_around n [] rest
  refine ⟨pre, post, ?_, haround⟩
  have hself := haround c
  rwa [List.nil_append, ← h, withChildren_children] at hself

theorem writeItems_congr {ps qs : List Node} (h : List.Forall₂ (fun p q => Node.write q = p.write) ps qs) :
    writeItems qs = writeItems ps := by
  induction h with
  | nil => rfl
  | @cons p q ps qs hwrite hrest ih =>
    cases hrest with
    | nil => exact hwrite
    | cons hnext hrest => rw [writeItems_cons (List.cons_ne_nil _ _), writeItems_cons (List.cons_ne_nil _ _), hwrite, ih]

theorem write_object {o : Node} {trailing : String} (h : o.kind = .object trailing) {ps : List Node}
    (hps : List.Forall₂ (fun p q => Node.write q = p.write) o.children ps) : (o.withChildren ps).write = o.write := by
  obtain ⟨k, i, as, cs⟩ := o
  obtain rfl : k = .object trailing := h
  rw [withChildren, write, write, writeItems_congr hps]
  rfl

/-- More attributes are one more piece of the text. -/
theorem write_appendAttribute {tree n : Node} {p : Path} (hget : tree.get? p = some n) (hn : n.kind.isElement = true)
    (a : Node) : ∃ pre post, tree.write = pre ++ post ∧
      (tree.set p (n.withAttributes (n.attributes ++ [a]))).write = pre ++ a.write ++ post := by
  obtain ⟨pre, post, hbefore, hafter⟩ :=
    write_modify (f := fun _ => n.withAttributes (n.attributes ++ [a])) (isMarkup_of_isElement hn) hget
  obtain ⟨pre', post', haround⟩ := write_around_attributes n hn
  refine ⟨pre ++ pre' ++ writeAll n.attributes, post' ++ post, ?_, ?_⟩
  · have hself := haround n.attributes
    rw [withAttributes_attributes] at hself
    rw [hbefore, hself]
    simp only [String.append_assoc]
  · rw [set, hafter, haround, writeAll_append, writeAll_singleton]
    simp only [String.append_assoc]

/-- An element keeps its text under its own name. -/
theorem write_renamed {n : Node} (h : n.Flawless) {name space : String} {selfClosing : Bool} {closing : Option String}
    (hk : n.kind = .element name selfClosing space closing) : (Edit.renamed name n).write = n.write := by
  obtain ⟨k, i, as, cs⟩ := n
  obtain rfl : k = .element name selfClosing space closing := hk
  obtain ⟨-, hclosing, -⟩ := h.permits
  have hend : Kind.closing (.element name selfClosing space none) =
      Kind.closing (.element name selfClosing space closing) := by
    rcases hclosing with rfl | rfl
    · rfl
    · cases selfClosing with
      | true => rfl
      | false =>
        show "</" ++ name ++ ">" = "</" ++ (if name.isEmpty then name else name) ++ ">"
        rw [ite_self]
  show write (mk (.element name selfClosing space none) i as cs) = _
  rw [write, write, hend]
  rfl

end Node

namespace Edit
open Node

/-! ## Class names -/

section

variable {tree : Node} {id message : String} {change : List String → Option (List String)}

theorem changeClassNames_of_none {n : Node} (h : ∀ names, classNames n = .ok (some names) → change names = none)
    {as : List Node} (has : changeClassNames n change = .ok (some as)) : as = n.attributes := by
  rw [changeClassNames] at has
  obtain ⟨found, hfound, has⟩ := bind_eq_ok has
  cases found with
  | none => cases has
  | some names =>
    dsimp only at has
    rw [h names hfound] at has
    cases has
    rfl

/-- If there is no change of class names, the tree stays as it is. -/
theorem updateClassNames_of_none {v : Visit} (hget : tree.get? v.path = some v.node)
    (hv : tree.findId id = .ok (some v)) (h : ∀ names, classNames v.node = .ok (some names) → change names = none) :
    (updateClassNames tree id message change).tree = tree := by
  rw [updateClassNames, hv]
  dsimp only
  split
  · rfl
  · rfl
  · next as has =>
    rw [changeClassNames_of_none h has]
    show tree.modify (·.withAttributes v.node.attributes) v.path = tree
    rw [modify_eq_set _ hget, withAttributes_attributes, set_self hget]

theorem addClassName_of_present {v : Visit} (hget : tree.get? v.path = some v.node)
    (hv : tree.findId id = .ok (some v)) {s : String}
    (h : ∀ names, classNames v.node = .ok (some names) → ∀ w ∈ Text.words s, w ∈ names) :
    (addClassName tree id s).tree = tree := by
  refine updateClassNames_of_none hget hv fun names hnames => ?_
  have hnew : (Text.words s).filter (fun w => !names.contains w) = [] :=
    List.filter_eq_nil_iff.mpr fun w hw => by simpa using h names hnames w hw
  dsimp only
  rw [hnew]
  rfl

theorem removeClassName_of_missing {v : Visit} (hget : tree.get? v.path = some v.node)
    (hv : tree.findId id = .ok (some v)) {s : String}
    (h : ∀ names, classNames v.node = .ok (some names) → ∀ w ∈ Text.words s, w ∉ names) :
    (removeClassName tree id s).tree = tree := by
  refine updateClassNames_of_none hget hv fun names hnames => ?_
  have hnone : (Text.words s).any names.contains = false :=
    List.any_eq_false.mpr fun w hw => by simpa using h names hnames w hw
  dsimp only
  rw [hnone]
  rfl

end

/-! ## Attributes -/

/-- The attribute as it is written for a value. One with a value that no text can be written for stays as it is. -/
def respelled (a : Node) (v : Value Node) : Node :=
  match Build.attributeValue v with
  | .ok new => a.withChildren new.toList
  | .error _ => a

/-- The value of the identity attribute of an element that is found is the identity. -/
theorem identity_value {tree : Node} {id : String} {v : Visit} {a : Node} (hv : tree.findId id = .ok (some v))
    (ha : v.node.attr? identityName = some a) : a.attributeValue = .ok (.str id) := by
  have hid := (findId_some hv).identity
  rw [identity, ha, Option.bind_some] at hid
  cases hvalue : a.value? with
  | none =>
    rw [hvalue] at hid
    cases hid
  | some c =>
    rw [hvalue] at hid
    replace hid : c.kind.stringValue = .ok (some id) := hid
    rw [attributeValue, hvalue]
    dsimp only
    rw [hid]
    rfl

/-- Another value for an attribute that is there: if the call succeeds, it is written for the value, and otherwise
nothing changes. -/
theorem updateAttribute_given {tree a : Node} {id name : String} {v : Visit} {value : Value Node}
    (hv : tree.findId id = .ok (some v)) (ha : v.node.attr? name = some a) (hget : tree.get? v.path = some v.node)
    (hname : isAttrName name = true) (hgiven : Build.isAbsent value = false) : ∃ left right,
      v.node.attributes = left ++ a :: right ∧
      ((updateAttribute tree id (.str name) value).Succeeds → (updateAttribute tree id (.str name) value).tree =
        tree.set v.path (v.node.withAttributes (left ++ respelled a value :: right))) ∧
      (¬(updateAttribute tree id (.str name) value).Succeeds →
        (updateAttribute tree id (.str name) value).tree = tree) := by
  obtain ⟨hnamed, left, right, hsplit, hleft⟩ := List.find?_eq_some_iff_append.mp ha
  refine ⟨left, right, hsplit, ?_⟩
  have hfails : ∀ r : Reply, r.tree = tree → ¬r.Succeeds → (r.Succeeds → r.tree =
      tree.set v.path (v.node.withAttributes (left ++ respelled a value :: right))) ∧ (¬r.Succeeds → r.tree = tree) :=
    fun r hr hno => ⟨fun hyes => absurd hyes hno, fun _ => hr⟩
  cases hproblem : valueProblem tree v.path name value with
  | error f =>
    rw [updateAttribute, hv]
    dsimp only
    rw [hname, hproblem]
    exact hfails _ rfl (Reply.not_succeeds_fault _ _)
  | ok problem =>
    cases problem with
    | some problem =>
      rw [updateAttribute, hv]
      dsimp only
      rw [hname, hproblem]
      exact hfails _ rfl (Reply.not_succeeds_invalid _ _ _)
    | none =>
      obtain ⟨new, hnew⟩ := given_of_valueProblem hproblem hgiven
      have hset : setAttribute v.node.attributes name value = a.attributeValue.map fun old =>
          (left ++ respelled a value :: right, .ofDatum old) := by
        rw [setAttribute_of_named hsplit hnamed fun x hx => by simpa using hleft x hx, respelled, hnew]
        cases a.attributeValue with
        | error f => rfl
        | ok old =>
          show (if _ then _ else _) = _
          rw [hgiven]
          rfl
      cases hold : a.attributeValue with
      | error f =>
        rw [hold] at hset
        rw [updateAttribute, hv]
        dsimp only
        rw [hname, hproblem]
        dsimp only
        rw [if_neg (by decide), hset]
        exact hfails _ rfl (Reply.not_succeeds_fault _ _)
      | ok old =>
        rw [hold] at hset
        obtain ⟨message, hdone, htree⟩ := updateAttribute_of_checked hv hname hproblem hset
        rw [modify_eq_set _ hget] at htree
        exact ⟨fun _ => htree, fun hno => absurd ⟨_, hdone, rfl⟩ hno⟩

section

variable {tree : Node} {id name : String} {v : Visit} {a : Node} {d : Datum} (hv : tree.findId id = .ok (some v))
  (ha : v.node.attr? name = some a) (hd : a.attributeValue = .ok d)
include hv ha hd

/-- An own value that can be written passes the check: if it is the identity, it is that of the element itself. -/
theorem valueProblem_of_own {new : Option Node}
    (hnew : Build.attributeValue (Value.ofDatum d : Value Node) = .ok new) :
    valueProblem tree v.path name (.ofDatum d) = .ok none := by
  by_cases hname : name = identityName
  · subst hname
    obtain rfl := Except.ok.inj ((identity_value hv ha).symm.trans hd)
    have hnew' : Build.attributeValue (.str id) = .ok new := hnew
    show valueProblem tree v.path identityName (.str id) = .ok none
    unfold valueProblem
    simp [hnew', hv, Build.isAbsent, bind, Except.bind, pure, Except.pure]
  · exact valueProblem_of_value hname hnew

/-- An attribute that is found is set to its own value: another way to write it takes its place. -/
theorem updateAttribute_restated (hget : tree.get? v.path = some v.node) (hname : isAttrName name = true)
    (hgiven : Build.isAbsent (Value.ofDatum d : Value Node) = false) : ∃ left right,
      v.node.attributes = left ++ a :: right ∧ (updateAttribute tree id (.str name) (.ofDatum d)).tree =
        tree.set v.path (v.node.withAttributes (left ++ respelled a (.ofDatum d) :: right)) := by
  obtain ⟨hnamed, left, right, hsplit, hleft⟩ := List.find?_eq_some_iff_append.mp ha
  refine ⟨left, right, hsplit, ?_⟩
  cases hnew : Build.attributeValue (Value.ofDatum d : Value Node) with
  | error f =>
    have hsame : (updateAttribute tree id (.str name) (.ofDatum d)).tree = tree := by
      rw [updateAttribute, hv]
      dsimp only
      rw [hname]
      cases hproblem : valueProblem tree v.path name (.ofDatum d) with
      | error g => rfl
      | ok problem =>
        cases problem with
        | some problem => rfl
        | none =>
          obtain ⟨new, hok⟩ := given_of_valueProblem hproblem hgiven
          rw [hnew] at hok
          cases hok
    rw [hsame, respelled, hnew]
    dsimp only
    rw [← hsplit, withAttributes_attributes, set_self hget]
  | ok new =>
    have hset : setAttribute v.node.attributes name (.ofDatum d) =
        .ok (left ++ a.withChildren new.toList :: right, .ofDatum d) := by
      rw [setAttribute_of_named hsplit hnamed fun x hx => by simpa using hleft x hx, hd]
      show (if _ then _ else _) = _
      rw [hgiven, if_neg Bool.false_ne_true, hnew]
      rfl
    obtain ⟨message, -, htree⟩ := updateAttribute_of_checked hv hname (valueProblem_of_own hv ha hd hnew) hset
    rw [htree, modify_eq_set _ hget, respelled, hnew]

end

/-! ## Styles -/

/-- Texts and whole numbers. -/
def isWord : Value Node → Bool
  | .str _ | .int _ => true
  | _ => false

/-- Words for which the changes could be worked out can be written. -/
theorem isStyle_of_styleChanges {d : Dict (Value Node)} {changes : List StyleChange} (h : styleChanges d = .ok changes)
    (hwords : ∀ e ∈ d, e.2 = .null ∨ isWord e.2 = true) : ∀ e ∈ d, IsStyle e.2 := by
  have hasks := asks_of_styleChanges h
  clear h
  induction hasks with
  | nil => exact List.forall_mem_nil _
  | @cons e c rest others hasks _ ih =>
    obtain ⟨hword, hrest⟩ := List.forall_mem_cons.mp hwords
    refine List.forall_mem_cons.mpr ⟨?_, ih hrest⟩
    rcases hword with hnone | hword
    · rw [hnone]
      trivial
    · cases hasks with
      | @remove name v removal =>
        cases v with
        | str s => trivial
        | int n => cases removal
        | _ => cases hword
      | @assign name v value given hvalue =>
        cases v with
        | str s => trivial
        | int n =>
          obtain ⟨text, htext, -⟩ := Build.number_eq_ok hvalue
          exact ⟨text, htext⟩
        | _ => cases hword

/-- The texts and whole numbers of a dictionary of styles, under the names that they are set with. -/
def ownWords (d : Dict (Value Node)) : Dict (Value Node) := Dict.rename Text.camelCase (d.filter (isWord ·.2))

theorem isWord_of_ownWords {d : Dict (Value Node)} : ∀ e ∈ ownWords d, isWord e.2 = true := by
  intro e he
  obtain ⟨e', he', rfl⟩ := List.mem_map.mp (mem_of_ofPairs he)
  exact (List.mem_filter.mp he').2

/-- Whether an entry leaves the text of the properties as it is: it does not ask for a removal, and the first property with
its name is written as it is with the value of the entry. -/
def keepsText (ps : List Node) (e : String × Value Node) : Bool :=
  match named e.1 ps, Build.styleValue e.2 with
  | p :: _, .ok value => !isRemoval e.2 && (p.withChildren [value]).write == p.write
  | _, _ => false

theorem keepsText_eq_true {ps : List Node} {e : String × Value Node} : keepsText ps e = true ↔ ∃ p rest value,
    named e.1 ps = p :: rest ∧ Build.styleValue e.2 = .ok value ∧ isRemoval e.2 = false ∧
      (p.withChildren [value]).write = p.write := by
  rw [keepsText]
  constructor
  · intro h
    split at h
    · next p rest value hnamed hvalue =>
      rw [Bool.and_eq_true, Bool.not_eq_true'] at h
      exact ⟨p, rest, value, hnamed, hvalue, h.1, beq_iff_eq.mp h.2⟩
    · cases h
  · rintro ⟨p, rest, value, hnamed, hvalue, hgiven, hwrite⟩
    simp [hnamed, hvalue, hgiven, hwrite]

theorem write_restyleFirsts {d : Dict (Value Node)} {ps : List Node} (h : ∀ e ∈ d, keepsText ps e = true) :
    List.Forall₂ (fun p q => Node.write q = p.write) ps (restyleFirsts d ps) := by
  induction ps generalizing d with
  | nil => exact .nil
  | cons p ps ih =>
    have hrest : ∀ e ∈ withoutName p d, keepsText ps e = true := by
      intro e he
      obtain ⟨hmem, hother⟩ := List.mem_filter.mp he
      have hnamed : named e.1 (p :: ps) = named e.1 ps :=
        List.filter_cons_of_neg fun heq => bne_iff_ne.mp hother (beq_iff_eq.mp heq).symm
      have hkeeps := h e hmem
      rwa [keepsText, hnamed] at hkeeps
    obtain ⟨q, hq, hwrite⟩ : ∃ q, restyled d p = some q ∧ q.write = p.write := by
      cases hfound : p.propertyName?.bind d.get? with
      | none => exact ⟨p, by rw [restyled, hfound], rfl⟩
      | some v =>
        obtain ⟨name, hname, hv⟩ := Option.bind_eq_some_iff.mp hfound
        obtain ⟨p', rest, value, hnamed, hvalue, hgiven, hwrite⟩ :=
          keepsText_eq_true.mp (h _ (Dict.mem_entry_of_get? hv))
        rw [named_cons_self hname] at hnamed
        obtain ⟨rfl, -⟩ := List.cons.inj hnamed
        exact ⟨_, restyled_of_given hname hv hgiven hvalue, hwrite⟩
    rw [restyleFirsts, hq]
    exact .cons hwrite (ih hrest)

/-- An object literal keeps its text if every entry leaves it as it is. -/
theorem write_changes_of_keepsText {o : Node} {trailing : String} (hk : o.kind = .object trailing) {d : Dict (Value Node)}
    (hd : (d.map (·.1)).Nodup) {changes : List StyleChange} (h : styleChanges d = .ok changes)
    (hkeeps : ∀ e ∈ d, keepsText o.children e = true) : (changes.foldl changeStyle o).write = o.write := by
  have hasks := asks_of_styleChanges h
  have hheld : unheld o.children d = [] := by
    refine List.filter_eq_nil_iff.mpr fun e he => ?_
    obtain ⟨p, rest, -, hnamed, -⟩ := keepsText_eq_true.mp (hkeeps e he)
    simp [hnamed]
  obtain ⟨news, hchildren, hnew⟩ := children_changes hasks hd o
  rw [hheld, List.forall₂_nil_left_iff] at hnew
  subst hnew
  obtain ⟨trailing', hobject⟩ := kind_changes hk changes
  have hsame : trailing' = trailing := by
    have hkind := kind_changes_of_held hasks hd hheld
    rw [hobject, kind_withChildren, kind_withKind, hk] at hkind
    cases hkind
    rfl
  rw [hobject, hsame, ← hk, withKind_kind, hchildren, List.append_nil, write_object hk (write_restyleFirsts hkeeps)]

theorem forall₂_split {α β : Type} {R : α → β → Prop} {ps : List α} {left right : List β} {q : β}
    (h : List.Forall₂ R ps (left ++ q :: right)) : ∃ before p after, ps = before ++ p :: after ∧
      List.Forall₂ R before left ∧ R p q ∧ List.Forall₂ R after right := by
  have hleft := List.forall₂_take_append ps left (q :: right) h
  have hright := List.forall₂_drop_append ps left (q :: right) h
  obtain ⟨p, after, hp, hrest, hdrop⟩ := List.forall₂_cons_right_iff.mp hright
  exact ⟨ps.take left.length, p, after, by rw [← hdrop, List.take_append_drop], hleft, hp, hrest⟩

/-- The entry of a dictionary of styles is the value of the last property with its name. -/
theorem last_of_stylesOf {o : Node} {d : Dict (Value Node)} (h : stylesOf o = .ok d) : ∀ e ∈ d, ∃ p value,
    (named e.1 o.children).getLast? = some p ∧ p.propertyValue = .ok value ∧ e.2 = .ofDatum value := by
  intro e he
  obtain ⟨pairs, rfl, hpairs⟩ := stylesOf_eq_ok h
  have hget := Dict.get?_of_mem (nodup_ofPairs pairs) he
  rw [get?_ofPairs] at hget
  obtain ⟨e', hlast, he'⟩ := Option.map_eq_some_iff.mp hget
  obtain ⟨entries, hentries⟩ := List.getLast?_eq_some_iff.mp hlast
  obtain ⟨before, p, after, hnamed, -, ⟨-, value, hvalue, hof⟩, hafter⟩ :=
    forall₂_split (hentries ▸ entries_named hpairs e.1)
  rw [List.forall₂_nil_right_iff] at hafter
  subst hafter
  exact ⟨p, value, by rw [hnamed, List.getLast?_concat], hvalue, by rw [← he', hof]⟩

/-- A style attribute holds an object literal in a slot. -/
theorem styleObject?_eq_some {a o : Node} : styleObject? a = some o ↔ ∃ slot rest rest', a.children = slot :: rest ∧
    (∃ lead trail, slot.kind = .slot lead trail) ∧ slot.children = o :: rest' ∧ ∃ trailing, o.kind = .object trailing := by
  constructor
  · intro h
    rw [styleObject?] at h
    obtain ⟨slot, hs, h⟩ := Option.bind_eq_some_iff.mp h
    obtain ⟨rest, hrest⟩ := value?_some hs
    split at h
    · next lead trail hslot =>
      obtain ⟨found, ho, h⟩ := Option.bind_eq_some_iff.mp h
      obtain ⟨rest', hrest'⟩ := value?_some ho
      split at h
      · next trailing hk =>
        cases h
        exact ⟨slot, rest, rest', hrest, ⟨lead, trail, hslot⟩, hrest', trailing, hk⟩
      · cases h
    · cases h
  · rintro ⟨slot, rest, rest', hchildren, ⟨lead, trail, hslot⟩, hobject, trailing, hk⟩
    have hvalue : a.value? = some slot := by simp [value?, hchildren, hslot, Kind.isNothing]
    have hinner : slot.value? = some o := by simp [value?, hobject, hk, Kind.isNothing]
    simp [styleObject?, hvalue, hslot, hinner, hk]

theorem kind_styleObject {a o : Node} (h : styleObject? a = some o) : ∃ trailing, o.kind = .object trailing := by
  obtain ⟨-, -, -, -, -, -, hk⟩ := styleObject?_eq_some.mp h
  exact hk

/-- The object literal of a style attribute gives its place to another one. -/
theorem setStyleObject_split {as : List Node} {a o : Node} (ha : as.find? (·.kind.isAttr styleAttribute) = some a)
    (ho : styleObject? a = some o) : ∃ left slot rest rest' right, as = left ++ a :: right ∧
      (∀ x ∈ left, x.kind.isAttr styleAttribute = false) ∧ a.children = slot :: rest ∧
      (∃ lead trail, slot.kind = .slot lead trail) ∧ slot.children = o :: rest' ∧
      ∀ o', setStyleObject as o' = left ++ a.withChildren (slot.withChildren (o' :: rest') :: rest) :: right := by
  obtain ⟨hnamed, left, right, hsplit, hleft⟩ := List.find?_eq_some_iff_append.mp ha
  obtain ⟨slot, rest, rest', hchildren, hkind, hslot, -⟩ := styleObject?_eq_some.mp ho
  have hfirst : ∀ x ∈ left, x.kind.isAttr styleAttribute = false := fun x hx => by simpa using hleft x hx
  refine ⟨left, slot, rest, rest', right, hsplit, hfirst, hchildren, hkind, hslot, fun o' => ?_⟩
  rw [setStyleObject, attrIndex?_of_split hsplit hnamed hfirst]
  dsimp only
  rw [hsplit, List.modify_eq_take_cons_drop (by simp)]
  simp [hchildren, hslot]

/-- Another object literal as a style is another piece of the text. -/
theorem write_setStyleObject {tree n a o : Node} {p : Path} (hget : tree.get? p = some n) (hn : n.kind.isElement = true)
    (ha : n.attr? styleAttribute = some a) (ho : styleObject? a = some o) (o' : Node) :
    ∃ pre post, tree.write = pre ++ o.write ++ post ∧
      (tree.set p (n.withAttributes (setStyleObject n.attributes o'))).write = pre ++ o'.write ++ post := by
  obtain ⟨left, slot, rest, rest', right, hsplit, -, hchildren, -, hslot, hset⟩ := setStyleObject_split ha ho
  obtain ⟨pre₁, post₁, hbefore₁, hafter₁⟩ := write_setAttribute hget hn hsplit
    (a.withChildren (slot.withChildren (o' :: rest') :: rest))
  obtain ⟨pre₂, post₂, hbefore₂, hafter₂⟩ := write_setFirst hchildren
  obtain ⟨pre₃, post₃, hbefore₃, hafter₃⟩ := write_setFirst hslot
  refine ⟨pre₁ ++ pre₂ ++ pre₃, post₃ ++ post₂ ++ post₁, ?_, ?_⟩
  · rw [hbefore₁, hbefore₂, hbefore₃]
    simp only [String.append_assoc]
  · rw [hset, hafter₁, hafter₂, hafter₃]
    simp only [String.append_assoc]

section

variable {tree o : Node} {id : String} {v : Visit} {styles : Dict (Value Node)} (hv : tree.findId id = .ok (some v))
  (ho : styleTarget v.node = some o)
include hv ho

/-- An update of styles for which there are changes puts the changed object literal in the place of the old one. -/
theorem tree_updateStyles (hget : tree.get? v.path = some v.node) {changes : List StyleChange}
    (hchanges : styleChanges (Dict.rename Text.camelCase styles) = .ok changes) : (updateStyles tree id styles).tree =
      tree.set v.path (v.node.withAttributes (setStyleObject v.node.attributes (changes.foldl changeStyle o))) := by
  rw [updateStyles, hv]
  dsimp only
  rw [ho]
  dsimp only
  rw [hchanges]
  dsimp only
  rw [modify_eq_set _ hget]
  split <;> rfl

/-- An update of styles for which there are no changes leaves the tree as it is. -/
theorem tree_updateStyles_of_fault {f : Fault}
    (hchanges : styleChanges (Dict.rename Text.camelCase styles) = .error f) : (updateStyles tree id styles).tree = tree := by
  rw [updateStyles, hv]
  dsimp only
  rw [ho]
  dsimp only
  rw [hchanges]
  cases f <;> rfl

end

section

variable {text : String} {tree : Node} {id : String} {v : Visit} (hparse : Source.parse text = .ok tree)
  (hv : tree.findId id = .ok (some v))
include hparse hv

/-- An element that is given its own tag name has the same text. -/
theorem updateTagName_own : (updateTagName tree id (.ofDatum v.node.kind.head)).tree.write = tree.write := by
  have hfound := findId_some hv
  have hget := (Source.keepsAttributes_parse hparse).get?_visit hfound.mem
  have hflawless := (Source.flawless_parse hparse).get hget
  have helement := hfound.element
  cases hk : v.node.kind with
  | element name selfClosing space closing =>
    have hpermits := hflawless.permits
    rw [hk] at hpermits
    have htree : (updateTagName tree id (.str name)).tree = tree.modify (renamed name) v.path := by
      rw [updateTagName, hv]
      dsimp only
      rw [hpermits.1]
      rfl
    obtain ⟨pre, post, hbefore, hafter⟩ := write_modify (f := renamed name) hfound.markup hget
    show (updateTagName tree id (.str name)).tree.write = tree.write
    rw [htree, hafter, write_renamed hflawless hk, hbefore]
  | _ =>
    rw [hk] at helement
    cases helement

/-- The value of an attribute goes to the first attribute of that name, written as new values are. -/
theorem updateAttribute_own {b : Node} {name : String} {d : Datum} (hb : b ∈ v.node.attributes)
    (hnamed : b.kind.isAttr name = true) (hd : b.attributeValue = .ok d)
    (hgiven : Build.isAbsent (Value.ofDatum d : Value Node) = false) : ∃ a pre post, v.node.attr? name = some a ∧
      tree.write = pre ++ a.write ++ post ∧
      ((updateAttribute tree id (.str name) (.ofDatum d)).Succeeds →
        (updateAttribute tree id (.str name) (.ofDatum d)).tree.write =
          pre ++ (respelled a (.ofDatum d)).write ++ post) ∧
      (¬(updateAttribute tree id (.str name) (.ofDatum d)).Succeeds →
        (updateAttribute tree id (.str name) (.ofDatum d)).tree = tree) ∧
      (b = a → ((updateAttribute tree id (.str name) (.ofDatum d)).tree.write = tree.write ↔
        (respelled a (.ofDatum d)).write = a.write)) := by
  have hfound := findId_some hv
  have hget := (Source.keepsAttributes_parse hparse).get?_visit hfound.mem
  obtain ⟨a, ha⟩ : ∃ a, v.node.attr? name = some a :=
    Option.isSome_iff_exists.mp (List.find?_isSome.mpr ⟨b, hb, hnamed⟩)
  have hname : isAttrName name = true := by
    have hpermits := (((Source.flawless_parse hparse).get hget).attr hb).permits
    obtain ⟨space, hk⟩ := isAttr_iff.mp hnamed
    rw [hk] at hpermits
    exact hpermits.1
  obtain ⟨left, right, hsplit, hyes, hno⟩ := updateAttribute_given hv ha hget hname hgiven
  obtain ⟨pre, post, hbefore, hafter⟩ := write_setAttribute hget hfound.element hsplit (respelled a (.ofDatum d))
  refine ⟨a, pre, post, ha, hbefore, fun hsucceeds => by rw [hyes hsucceeds, hafter], hno, ?_⟩
  rintro rfl
  obtain ⟨left', right', hsplit', htree⟩ := updateAttribute_restated hv ha hd hget hname hgiven
  obtain ⟨pre', post', hbefore', hafter'⟩ := write_setAttribute hget hfound.element hsplit' (respelled b (.ofDatum d))
  rw [htree, hafter', hbefore', append_around_inj]

/-- An element without styles has an attribute for them once none are set. -/
theorem updateStyles_missing (hmissing : v.node.attr? styleAttribute = none) : ∃ pre post, tree.write = pre ++ post ∧
    (updateStyles tree id []).tree.write = pre ++ " style=\x7b\x7b\x7d\x7d" ++ post := by
  have hfound := findId_some hv
  have hget := (Source.keepsAttributes_parse hparse).get?_visit hfound.mem
  have htarget : styleTarget v.node = some (.new (.object "") []) := by rw [styleTarget, hmissing]
  obtain ⟨pre, post, hbefore, hafter⟩ :=
    write_appendAttribute hget hfound.element (.attr styleAttribute (some (.slot (.new (.object "") []))))
  refine ⟨pre, post, hbefore, ?_⟩
  have hset (o' : Node) : setStyleObject v.node.attributes o' =
      v.node.attributes ++ [.attr styleAttribute (some (.slot o'))] := by
    rw [setStyleObject, attrIndex?_eq_none.mpr (by simpa using List.find?_eq_none.mp hmissing)]
  have htree := tree_updateStyles hv htarget hget (show styleChanges (Dict.rename Text.camelCase []) = .ok [] from rfl)
  rw [htree, hset]
  exact hafter.trans (by rfl)

/-- What the words of a dictionary of styles, set again, make of the object literal of the element. -/
theorem updateStyles_words {a o : Node} (d : Dict (Value Node)) (ha : v.node.attr? styleAttribute = some a)
    (ho : styleObject? a = some o) : ∃ pre post, tree.write = pre ++ o.write ++ post ∧
      ((¬∀ e ∈ ownWords d, IsStyle e.2) → (updateStyles tree id (d.filter (isWord ·.2))).tree = tree) ∧
      ((∀ e ∈ ownWords d, IsStyle e.2) → ∃ o' trailing news,
        o' = (o.withKind (.object trailing)).withChildren (restyleFirsts (ownWords d) o.children ++ news) ∧
        List.Forall₂ IsNew (unheld o.children (ownWords d)) news ∧
        (updateStyles tree id (d.filter (isWord ·.2))).tree.write = pre ++ o'.write ++ post ∧
        ((∀ e ∈ ownWords d, keepsText o.children e = true) → o'.write = o.write)) := by
  have hfound := findId_some hv
  have hget := (Source.keepsAttributes_parse hparse).get?_visit hfound.mem
  have htarget : styleTarget v.node = some o := by rw [styleTarget, ha]; exact ho
  cases hchanges : styleChanges (ownWords d) with
  | error f =>
    obtain ⟨pre, post, hbefore, -⟩ := write_setStyleObject hget hfound.element ha ho o
    refine ⟨pre, post, hbefore, fun _ => tree_updateStyles_of_fault hv htarget hchanges, fun hshort => ?_⟩
    obtain ⟨changes, hok⟩ := exists_styleChanges hshort
    rw [hchanges] at hok
    cases hok
  | ok changes =>
    obtain ⟨trailing, hk⟩ := kind_styleObject ho
    obtain ⟨news, hchildren, hnew⟩ := children_changes (asks_of_styleChanges hchanges) (nodup_ofPairs _) o
    obtain ⟨trailing', hobject⟩ := kind_changes hk changes
    obtain ⟨pre, post, hbefore, hafter⟩ := write_setStyleObject hget hfound.element ha ho (changes.foldl changeStyle o)
    refine ⟨pre, post, hbefore,
      fun hlong => absurd (isStyle_of_styleChanges hchanges fun e he => .inr (isWord_of_ownWords e he)) hlong,
      fun _ => ⟨changes.foldl changeStyle o, trailing', news, by rw [hobject, hchildren], hnew, ?_,
        write_changes_of_keepsText hk (nodup_ofPairs _) hchanges⟩⟩
    rw [tree_updateStyles hv htarget hget hchanges, hafter]

/-- In a document that was read, an element is given what it has already. Its own tag name, class names that are there and
the removal of others leave the text of the document as it is.

The value of an attribute takes the place of the one that the first attribute of that name has, written as new values are.
So the text is the same for an attribute that is the first of its name exactly if it was written that way; a second one
gives its value to the first, or the call fails and nothing changes.

An element without a style attribute is given an empty one, and one whose style is no object literal stays as it is. Where
there is an object literal, each entry of its styles is the value of the last property with its name, and it goes under its
name in camel case to the first property with that, written as new values are; the empty string takes that property out,
and an entry for whose new name there is no property has one added. The text is the same exactly if that of the object
literal is, as where every entry finds the property that it goes to written in that way. Entries with a number too long to
be written change nothing. -/
theorem own_values_set_again :
    (updateTagName tree id (.ofDatum v.node.kind.head)).tree.generate true = tree.generate true ∧
    (∀ s, (∀ names, classNames v.node = .ok (some names) → ∀ w ∈ Text.words s, w ∈ names) →
      (addClassName tree id s).tree = tree) ∧
    (∀ s, (∀ names, classNames v.node = .ok (some names) → ∀ w ∈ Text.words s, w ∉ names) →
      (removeClassName tree id s).tree = tree) ∧
    (∀ b ∈ v.node.attributes, ∀ name d, b.kind.isAttr name = true → b.attributeValue = .ok d →
      Build.IsSimple (.ofDatum d) → Build.isAbsent (Value.ofDatum d : Value Node) = false → ∃ a pre post,
        v.node.attr? name = some a ∧ tree.generate true = .ok (pre ++ a.write ++ post) ∧
        ((updateAttribute tree id (.str name) (.ofDatum d)).Succeeds →
          (updateAttribute tree id (.str name) (.ofDatum d)).tree.generate true =
            .ok (pre ++ (respelled a (.ofDatum d)).write ++ post)) ∧
        (¬(updateAttribute tree id (.str name) (.ofDatum d)).Succeeds →
          (updateAttribute tree id (.str name) (.ofDatum d)).tree = tree) ∧
        (b = a → ((updateAttribute tree id (.str name) (.ofDatum d)).tree.generate true = tree.generate true ↔
          (respelled a (.ofDatum d)).write = a.write))) ∧
    (v.node.attr? styleAttribute = none → getStyles tree id = .ok (some []) ∧ ∃ pre post,
      tree.generate true = .ok (pre ++ post) ∧
      (updateStyles tree id []).tree.generate true = .ok (pre ++ " style=\x7b\x7b\x7d\x7d" ++ post)) ∧
    (∀ a, v.node.attr? styleAttribute = some a → styleObject? a = none → getStyles tree id = .ok (some []) ∧
      ∀ styles, (updateStyles tree id styles).tree = tree) ∧
    (∀ a o d, v.node.attr? styleAttribute = some a → styleObject? a = some o → getStyles tree id = .ok (some d) →
      (∀ e ∈ d, ∃ p value, (named e.1 o.children).getLast? = some p ∧ p.propertyValue = .ok value ∧
        e.2 = .ofDatum value) ∧ ∃ pre post, tree.generate true = .ok (pre ++ o.write ++ post) ∧
      ((¬∀ e ∈ ownWords d, IsStyle e.2) → (updateStyles tree id (d.filter (isWord ·.2))).tree = tree) ∧
      ((∀ e ∈ ownWords d, IsStyle e.2) → ∃ o' trailing news,
        o' = (o.withKind (.object trailing)).withChildren (restyleFirsts (ownWords d) o.children ++ news) ∧
        List.Forall₂ IsNew (unheld o.children (ownWords d)) news ∧
        (updateStyles tree id (d.filter (isWord ·.2))).tree.generate true = .ok (pre ++ o'.write ++ post) ∧
        ((updateStyles tree id (d.filter (isWord ·.2))).tree.generate true = tree.generate true ↔ o'.write = o.write) ∧
        ((∀ e ∈ ownWords d, keepsText o.children e = true) → o'.write = o.write))) := by
  have hgenerate : tree.generate true = .ok tree.write := (Source.flawless_parse hparse).generate
  have hedited {c : Command} (hc : c.IsTextual) : (c.run tree).tree.generate true = .ok (c.run tree).tree.write :=
    Command.generate_run hparse hc
  have hrestyled (styles : Dict (Value Node)) : (updateStyles tree id styles).tree.generate true =
      .ok (updateStyles tree id styles).tree.write := hedited (c := .updateStyles id styles) trivial
  refine ⟨?_, fun s hs => addClassName_of_present ?_ hv hs, fun s hs => removeClassName_of_missing ?_ hv hs,
    fun b hb name d hnamed hd hsimple hgiven => ?_, fun hmissing => ⟨?_, ?_⟩, fun a ha ho => ⟨?_, fun styles => ?_⟩,
    fun a o d ha ho hd => ⟨?_, ?_⟩⟩
  · have htag : (updateTagName tree id (.ofDatum v.node.kind.head)).tree.generate true = .ok _ :=
      hedited (c := .updateTagName id (.ofDatum v.node.kind.head)) trivial
    rw [htag, hgenerate]
    exact congrArg Except.ok (updateTagName_own hparse hv)
  · exact (Source.keepsAttributes_parse hparse).get?_visit (findId_some hv).mem
  · exact (Source.keepsAttributes_parse hparse).get?_visit (findId_some hv).mem
  · have hset : (updateAttribute tree id (.str name) (.ofDatum d)).tree.generate true =
        .ok (updateAttribute tree id (.str name) (.ofDatum d)).tree.write :=
      hedited (c := .updateAttribute id (.str name) (.ofDatum d)) (isPlain_of_simple hsimple)
    obtain ⟨a, pre, post, ha, hbefore, hyes, hno, hiff⟩ := updateAttribute_own hparse hv hb hnamed hd hgiven
    rw [hset, hgenerate]
    simp only [Except.ok.injEq]
    exact ⟨a, pre, post, ha, hbefore, hyes, hno, hiff⟩
  · rw [getStyles, hv]
    dsimp only [bind, Except.bind]
    rw [hmissing]
    rfl
  · rw [hrestyled, hgenerate]
    simp only [Except.ok.injEq]
    exact updateStyles_missing hparse hv hmissing
  · rw [getStyles, hv]
    dsimp only [bind, Except.bind]
    rw [ha, Option.bind_some, ho]
    rfl
  · have htarget : styleTarget v.node = none := by rw [styleTarget, ha]; exact ho
    rw [updateStyles, hv]
    dsimp only
    rw [htarget]
    rfl
  · rw [getStyles, hv] at hd
    dsimp only [bind, Except.bind] at hd
    rw [ha, Option.bind_some, ho] at hd
    obtain ⟨d', hstyles, heq⟩ := bind_eq_ok hd
    cases heq
    exact last_of_stylesOf hstyles
  · obtain ⟨pre, post, hbefore, hlong, hshort⟩ := updateStyles_words hparse hv d ha ho
    rw [hrestyled, hgenerate]
    simp only [Except.ok.injEq]
    refine ⟨pre, post, hbefore, hlong, fun hwords => ?_⟩
    obtain ⟨o', trailing, news, ho', hnew, hafter, hkeeps⟩ := hshort hwords
    exact ⟨o', trailing, news, ho', hnew, hafter, by rw [hafter, hbefore, append_around_inj], hkeeps⟩

end

/-! ## Values at hand -/

/-- Whether two values are the same text or the same whole number. -/
def sameWord {ν : Type} : Value ν → Value ν → Bool
  | .str s, .str t => s == t
  | .int m, .int n => m == n
  | _, _ => false

theorem eq_of_sameWord {ν : Type} {v w : Value ν} (h : sameWord v w = true) : w = v := by
  unfold sameWord at h
  split at h
  · rw [beq_iff_eq.mp h]
  · rw [beq_iff_eq.mp h]
  · cases h

/-- Whether two dictionaries have the same texts and whole numbers in the same order. -/
def sameWords : Dict (Value Node) → Dict (Value Node) → Bool
  | [], [] => true
  | (name, v) :: d, (name', v') :: d' => name == name' && sameWord v v' && sameWords d d'
  | _, _ => false

theorem eq_of_sameWords {d d' : Dict (Value Node)} (h : sameWords d d' = true) : d' = d := by
  induction d generalizing d' with
  | nil =>
    cases d' with
    | nil => rfl
    | cons e' d' => cases h
  | cons e d ih =>
    cases d' with
    | nil => cases h
    | cons e' d' =>
      rw [sameWords, Bool.and_eq_true, Bool.and_eq_true] at h
      obtain ⟨⟨hname, hvalue⟩, hrest⟩ := h
      rw [ih hrest, Prod.ext (beq_iff_eq.mp hname).symm (eq_of_sameWord hvalue)]

theorem eq_ok_of_toOption {α : Type} {r : Except Fault α} {x : α} (h : r.toOption = some x) : r = .ok x := by
  cases r with
  | error f => cases h
  | ok y => rw [Option.some.inj h]

theorem exists_ok_of_any {α : Type} {r : Except Fault α} {p : α → Bool} (h : r.toOption.any p = true) :
    ∃ x, r = .ok x ∧ p x = true := by
  cases r with
  | error f => cases h
  | ok x => exact ⟨x, rfl, h⟩

/-- An element with a title in single quotes and an empty style. -/
def spelled : String := "<p data-editable=\"p\" title='x' style=\x7b\x7b color: '' \x7d\x7d/>"

theorem spelled_changes : ∃ tree v a, Source.parse spelled = .ok tree ∧ tree.findId "p" = .ok (some v) ∧
    v.node.attr? "title" = some a ∧ a.attributeValue = .ok (.str "x") ∧
    getStyles tree "p" = .ok (some [("color", .str "")]) ∧
    tree.generate true = .ok "<p data-editable=\"p\" title='x' style=\x7b\x7b color: '' \x7d\x7d/>" ∧
    (updateAttribute tree "p" (.str "title") (.str "x")).tree.generate true =
      .ok "<p data-editable=\"p\" title=\"x\" style=\x7b\x7b color: '' \x7d\x7d/>" ∧
    (updateStyles tree "p" [("color", .str "")]).tree.generate true =
      .ok "<p data-editable=\"p\" title='x' style=\x7b\x7b \x7d\x7d/>" := by
  obtain ⟨tree, v, hparse, hv, hrun⟩ : ∃ tree v, Source.parse spelled = .ok tree ∧ tree.findId "p" = .ok (some v) ∧
      (decide (tree.write = "<p data-editable=\"p\" title='x' style=\x7b\x7b color: '' \x7d\x7d/>" ∧
        (updateAttribute tree "p" (.str "title") (.str "x")).tree.write =
          "<p data-editable=\"p\" title=\"x\" style=\x7b\x7b color: '' \x7d\x7d/>" ∧
        (updateStyles tree "p" [("color", .str "")]).tree.write =
          "<p data-editable=\"p\" title='x' style=\x7b\x7b \x7d\x7d/>") &&
        (v.node.attr? "title").any (fun a => a.attributeValue.toOption.any (sameWord (.str "x"))) &&
        (getStyles tree "p").toOption.any (·.any (sameWords [("color", .str "")]))) = true :=
    exists_found (by decide +kernel)
  rw [Bool.and_eq_true, Bool.and_eq_true] at hrun
  obtain ⟨⟨hwrite, htitle⟩, hstyles⟩ := hrun
  obtain ⟨hbefore, htitled, hstyled⟩ := of_decide_eq_true hwrite
  obtain ⟨a, ha, hvalue⟩ := (Option.any_eq_true _ _).mp htitle
  obtain ⟨d, hd, hword⟩ := exists_ok_of_any hvalue
  obtain ⟨found, hfound, hentries⟩ := exists_ok_of_any hstyles
  obtain ⟨entries, rfl, hwords⟩ := (Option.any_eq_true _ _).mp hentries
  have hgenerate {c : Command} (hc : c.IsTextual) : (c.run tree).tree.generate true = .ok (c.run tree).tree.write :=
    Command.generate_run hparse hc
  refine ⟨tree, v, a, hparse, hv, ha, eq_of_sameWord hword ▸ hd, eq_of_sameWords hwords ▸ hfound, ?_, ?_, ?_⟩
  · rw [(Source.flawless_parse hparse).generate, hbefore]
  · exact (hgenerate (c := .updateAttribute "p" (.str "title") (.str "x")) rfl).trans (congrArg Except.ok htitled)
  · exact (hgenerate (c := .updateStyles "p" [("color", .str "")]) trivial).trans (congrArg Except.ok hstyled)

/-- An element whose attributes and styles are written as new ones are. -/
def card : String := "<p data-editable=\"p\" className=\"a b\" title=\"x\" style=\x7b\x7b color: 'red', margin: 0 \x7d\x7d/>"

theorem card_stays : ∃ tree v, Source.parse card = .ok tree ∧ tree.findId "p" = .ok (some v) ∧
    (updateTagName tree "p" (.ofDatum v.node.kind.head)).tree.generate true = tree.generate true ∧
    (addClassName tree "p" "b a").tree = tree ∧ (removeClassName tree "p" "c").tree = tree ∧
    (updateAttribute tree "p" (.str "title") (.str "x")).tree.generate true = tree.generate true ∧
    getStyles tree "p" = .ok (some [("color", .str "red"), ("margin", .int 0)]) ∧
    (updateStyles tree "p" [("color", .str "red"), ("margin", .int 0)]).tree.generate true = tree.generate true := by
  obtain ⟨tree, v, hparse, hv, hrun⟩ : ∃ tree v, Source.parse card = .ok tree ∧ tree.findId "p" = .ok (some v) ∧
      (decide ((classNames v.node).toOption = some (some ["a", "b"])) &&
        (v.node.attr? "title").any (fun a => a.attributeValue.toOption.any (sameWord (.str "x")) &&
          (respelled a (.str "x")).write == a.write) &&
        (v.node.attr? styleAttribute).any (fun a => (styleObject? a).any fun o =>
          (ownWords [("color", .str "red"), ("margin", .int 0)]).all (keepsText o.children)) &&
        (getStyles tree "p").toOption.any (·.any (sameWords [("color", .str "red"), ("margin", .int 0)]))) = true :=
    exists_found (by decide +kernel)
  simp only [Bool.and_eq_true] at hrun
  obtain ⟨⟨⟨hclass, htitle⟩, hstyle⟩, hstyles⟩ := hrun
  obtain ⟨htag, hadd, hremove, hattribute, -, -, hrestyle⟩ := own_values_set_again hparse hv
  have hclasses : ∀ names, classNames v.node = .ok (some names) → names = ["a", "b"] := by
    intro names hnames
    have hclass := of_decide_eq_true hclass
    rw [hnames] at hclass
    exact Option.some.inj (Option.some.inj hclass)
  obtain ⟨a, ha, htitle⟩ := (Option.any_eq_true _ _).mp htitle
  obtain ⟨hvalue, hwrite⟩ := Bool.and_eq_true_iff.mp htitle
  obtain ⟨d, hd, hword⟩ := exists_ok_of_any hvalue
  obtain rfl := eq_of_sameWord hword
  obtain ⟨a', ha', hobject⟩ := (Option.any_eq_true _ _).mp hstyle
  obtain ⟨o, ho, hobject⟩ := (Option.any_eq_true _ _).mp hobject
  obtain ⟨found, hfound, hentries⟩ := exists_ok_of_any hstyles
  obtain ⟨entries, rfl, hwords⟩ := (Option.any_eq_true _ _).mp hentries
  obtain rfl := eq_of_sameWords hwords
  have hwords : ∀ e ∈ ownWords [("color", .str "red"), ("margin", .int 0)], IsStyle e.2 :=
    List.forall_mem_cons.mpr ⟨trivial, List.forall_mem_singleton.mpr ⟨"0", rfl⟩⟩
  obtain ⟨-, _, _, -, -, hshort⟩ := hrestyle a' o _ ha' ho hfound
  obtain ⟨o', _, _, -, -, -, hsame, hkeeps⟩ := hshort hwords
  have hnamed : a.kind.isAttr "title" = true := List.find?_some (p := fun a : Node => a.kind.isAttr "title") ha
  obtain ⟨a'', _, _, hfirst, -, -, -, hiff⟩ :=
    hattribute a (List.mem_of_find?_eq_some ha) "title" (.str "x") hnamed hd trivial rfl
  obtain rfl : a = a'' := Option.some.inj (ha.symm.trans hfirst)
  refine ⟨tree, v, hparse, hv, htag, hadd _ fun names hnames => ?_, hremove _ fun names hnames => ?_,
    (hiff rfl).mpr (beq_iff_eq.mp hwrite), hfound, hsame.mpr (hkeeps (List.all_eq_true.mp hobject))⟩
  · rw [hclasses names hnames]
    decide
  · rw [hclasses names hnames]
    decide

end Edit
end JsxEdit
