import JsxEdit.Proofs.DocumentOrder
import JsxEdit.Proofs.Purge
import JsxEdit.Proofs.Restyle
import JsxEdit.Proofs.Retext

/-
Several attributes that are set at once.

An attribute is set in a list of attributes by its name, and nothing with another name plays a part in that. So a
dictionary of values is as good as its entries one after the other: in the list, and for the element that is looked for
again each time. What is checked before depends on the values only, but the old values are not looked at until then, and
one that cannot be worked out ends the setting where it stands.
-/
set_option autoImplicit false

namespace JsxEdit

/-! ## Attributes by name -/

namespace Node

theorem isAttr_iff {k : Kind} {name : String} : k.isAttr name = true ↔ ∃ space, k = .attr name space := by
  cases k <;> simp [Kind.isAttr]

theorem isAttr_other {k : Kind} {name other : String} (h : k.isAttr name = true) (hne : name ≠ other) :
    k.isAttr other = false := by
  obtain ⟨space, rfl⟩ := isAttr_iff.mp h
  exact beq_eq_false_iff_ne.mpr hne

theorem find?_cons_other {a : Node} {name other : String} (ha : a.kind.isAttr name = true) (hne : name ≠ other)
    (as : List Node) : (a :: as).find? (·.kind.isAttr other) = as.find? (·.kind.isAttr other) :=
  List.find?_cons_of_neg (by rw [isAttr_other ha hne]; exact Bool.false_ne_true)

theorem attrIndex?_eq_none {as : List Node} {name : String} :
    attrIndex? as name = none ↔ ∀ a ∈ as, a.kind.isAttr name = false := List.findIdx?_eq_none_iff

theorem attrIndex?_of_split {as left right : List Node} {a : Node} {name : String} (h : as = left ++ a :: right)
    (ha : a.kind.isAttr name = true) (hleft : ∀ x ∈ left, x.kind.isAttr name = false) :
    attrIndex? as name = some left.length := by
  rw [attrIndex?, h, List.findIdx?_append, List.findIdx?_eq_none_iff.mpr hleft, List.findIdx?_cons, ha, if_pos rfl,
    Option.map_some, Nat.zero_add]
  rfl

theorem find?_of_split {as left right : List Node} {a : Node} {name : String} (h : as = left ++ a :: right)
    (ha : a.kind.isAttr name = true) (hleft : ∀ x ∈ left, x.kind.isAttr name = false) :
    as.find? (·.kind.isAttr name) = some a :=
  List.find?_eq_some_iff_append.mpr ⟨ha, left, right, h, fun x hx => by rw [hleft x hx]; rfl⟩

theorem find?_of_missing {as : List Node} {name : String} (h : ∀ a ∈ as, a.kind.isAttr name = false) :
    as.find? (·.kind.isAttr name) = none :=
  List.find?_eq_none.mpr fun a ha => by rw [h a ha]; exact Bool.false_ne_true

theorem attributeValue_of_nil {a : Node} (h : a.children = []) : a.attributeValue = .ok (.bool true) := by
  rw [attributeValue, value?, h]
  rfl

theorem attributeValue_of_string {a c : Node} {rest : List Node} {raw quote : String} (h : a.children = c :: rest)
    (hc : c.kind = .attributeString raw quote) : a.attributeValue = (Literal.references raw).map .str := by
  have hvalue : a.value? = some c := by
    rw [value?, h, List.head?_cons, Option.filter_some, hc]
    rfl
  rw [attributeValue, hvalue]
  dsimp only
  rw [hc, Kind.stringValue]
  cases Literal.references raw <;> rfl

theorem attributeValue_of_number {a c e : Node} {rest rest' : List Node} {lead trail text : String}
    (h : a.children = c :: rest) (hc : c.kind = .slot lead trail) (hcs : c.children = e :: rest')
    (he : e.kind = .number text) : a.attributeValue = (Kind.numberValue text).map .ofNumber := by
  have hvalue : a.value? = some c := by
    rw [value?, h, List.head?_cons, Option.filter_some, hc]
    rfl
  have hinner : c.value? = some e := by
    rw [value?, hcs, List.head?_cons, Option.filter_some, he]
    rfl
  have hnone : (Kind.slot lead trail).stringValue = .ok none := rfl
  rw [attributeValue, hvalue]
  dsimp only
  rw [hc, hnone]
  dsimp only
  rw [hinner]
  show (if e.kind.isLiteral then e.kind.literalValue else _) = _
  rw [he, Kind.isLiteral, if_pos rfl, Kind.literalValue]

theorem elementIdentity_withAttributes {n : Node} {as : List Node}
    (h : as.find? (·.kind.isAttr identityName) = n.attributes.find? (·.kind.isAttr identityName)) :
    (n.withAttributes as).elementIdentity = n.elementIdentity := by
  rw [elementIdentity, elementIdentity, identity, identity, attr?, attr?, attributes_withAttributes, h,
    kind_withAttributes]

@[simp] theorem withAttributes_withAttributes (n : Node) (as bs : List Node) :
    (n.withAttributes as).withAttributes bs = n.withAttributes bs := by cases n; rfl

end Node

namespace Edit
open Node

/-! ## One attribute -/

/-- An attribute is set in a list, by its name: it is left out, added, removed or changed. The old value is that of the
first attribute with the name. -/
inductive Sets (as : List Node) (name : String) (v : Value Node) : List Node → Value Node → Prop
  | skip (absent : Build.isAbsent v = true) (missing : ∀ a ∈ as, a.kind.isAttr name = false) : Sets as name v as .null
  | add {new : Option Node} (given : Build.isAbsent v = false) (missing : ∀ a ∈ as, a.kind.isAttr name = false)
      (value : Build.attributeValue v = .ok new) : Sets as name v (as ++ [Node.attr name new]) .null
  | remove {left right : List Node} {a : Node} {old : Datum} (absent : Build.isAbsent v = true)
      (split : as = left ++ a :: right) (named : a.kind.isAttr name = true)
      (first : ∀ x ∈ left, x.kind.isAttr name = false) (was : a.attributeValue = .ok old) :
      Sets as name v (left ++ right) (.ofDatum old)
  | change {left right : List Node} {a : Node} {old : Datum} {new : Option Node} (given : Build.isAbsent v = false)
      (split : as = left ++ a :: right) (named : a.kind.isAttr name = true)
      (first : ∀ x ∈ left, x.kind.isAttr name = false) (was : a.attributeValue = .ok old)
      (value : Build.attributeValue v = .ok new) :
      Sets as name v (left ++ a.withChildren new.toList :: right) (.ofDatum old)

section

variable {as as' : List Node} {name : String} {v old : Value Node}

theorem setAttribute_of_missing (h : ∀ a ∈ as, a.kind.isAttr name = false) :
    setAttribute as name v =
      if Build.isAbsent v then .ok (as, .null) else (Build.attributeValue v).map (as ++ [Node.attr name ·], .null) := by
  rw [setAttribute, attrIndex?_eq_none.mpr h]
  dsimp only
  split
  · rfl
  · cases Build.attributeValue v <;> rfl

theorem setAttribute_of_named {left right : List Node} {a : Node} (h : as = left ++ a :: right)
    (ha : a.kind.isAttr name = true) (hleft : ∀ x ∈ left, x.kind.isAttr name = false) :
    setAttribute as name v = a.attributeValue.bind fun old =>
      if Build.isAbsent v then .ok (left ++ right, .ofDatum old)
      else (Build.attributeValue v).map fun new => (left ++ a.withChildren new.toList :: right, .ofDatum old) := by
  have hget : as[left.length]?.getD default = a := by
    rw [h, List.getElem?_append_right (Nat.le_refl _), Nat.sub_self]
    rfl
  have herase : as.eraseIdx left.length = left ++ right := by
    rw [h, List.eraseIdx_append_of_length_le (Nat.le_refl _), Nat.sub_self, List.eraseIdx_cons_zero]
  have hmodify (f : Node → Node) : as.modify left.length f = left ++ f a :: right := by
    rw [h, List.modify_eq_take_cons_drop (by simp)]
    simp
  rw [setAttribute, attrIndex?_of_split h ha hleft]
  dsimp only
  rw [hget, herase]
  cases a.attributeValue with
  | error f => rfl
  | ok old =>
    simp only [bind, Except.bind, pure, Except.pure]
    split
    · rfl
    · cases Build.attributeValue v with
      | error f => rfl
      | ok new => exact congrArg (fun as => Except.ok (as, Value.ofDatum old)) (hmodify _)

theorem sets_of_ok (h : setAttribute as name v = .ok (as', old)) : Sets as name v as' old := by
  cases hi : attrIndex? as name with
  | none =>
    have hmissing := attrIndex?_eq_none.mp hi
    rw [setAttribute_of_missing hmissing] at h
    split at h
    · next habsent =>
      cases h
      exact .skip habsent hmissing
    · next hgiven =>
      cases hnew : Build.attributeValue v with
      | error f =>
        rw [hnew] at h
        cases h
      | ok new =>
        rw [hnew] at h
        cases h
        exact .add (Bool.eq_false_iff.mpr hgiven) hmissing hnew
  | some i =>
    obtain ⟨left, a, right, hsplit, -, ha, hleft⟩ := split_of_findIdx? hi
    rw [setAttribute_of_named hsplit ha hleft] at h
    obtain ⟨was, hwas, h⟩ := bind_eq_ok h
    split at h
    · next habsent =>
      cases h
      exact .remove habsent hsplit ha hleft hwas
    · next hgiven =>
      cases hnew : Build.attributeValue v with
      | error f =>
        rw [hnew] at h
        cases h
      | ok new =>
        rw [hnew] at h
        cases h
        exact .change (Bool.eq_false_iff.mpr hgiven) hsplit ha hleft hwas hnew

/-- Nothing with another name plays a part when an attribute is set. -/
theorem Sets.find?_other (h : Sets as name v as' old) {other : String} (hne : name ≠ other) :
    as'.find? (·.kind.isAttr other) = as.find? (·.kind.isAttr other) := by
  cases h with
  | skip => rfl
  | @add new given missing value =>
    have hnew : (Node.attr name new).kind.isAttr name = true := isAttr_iff.mpr ⟨_, rfl⟩
    rw [List.find?_append, find?_cons_other hnew hne, List.find?_nil, Option.or_none]
  | remove absent split named first was =>
    rw [split, List.find?_append, List.find?_append, find?_cons_other named hne]
  | @change left right a old new given split named first was value =>
    have hchanged : (a.withChildren new.toList).kind.isAttr name = true := by rw [kind_withChildren, named]
    rw [split, List.find?_append, List.find?_append, find?_cons_other named hne, find?_cons_other hchanged hne]

end

/-! ## One attribute after the other -/

/-- Attributes are set one after the other, and each has its old value. -/
inductive SetsAll : List Node → Dict (Value Node) → List Node → Dict (Value Node) → Prop
  | nil (as : List Node) : SetsAll as [] as []
  | cons {as as₁ as' : List Node} {name : String} {v old : Value Node} {values olds : Dict (Value Node)}
      (first : setAttribute as name v = .ok (as₁, old)) (rest : SetsAll as₁ values as' olds) :
      SetsAll as ((name, v) :: values) as' ((name, old) :: olds)

theorem put_of_not_mem {α : Type} {d : Dict α} {key : String} (h : key ∉ d.map (·.1)) (value : α) :
    d.put key value = d ++ [(key, value)] := by
  induction d with
  | nil => rfl
  | cons e d ih =>
    rw [List.map_cons, List.mem_cons, not_or] at h
    rw [Dict.put, if_neg (by simpa using Ne.symm h.1), ih h.2, List.cons_append]

theorem SetsAll.find?_other {as as' : List Node} {values olds : Dict (Value Node)} (h : SetsAll as values as' olds)
    {other : String} (hother : other ∉ values.map (·.1)) :
    as'.find? (·.kind.isAttr other) = as.find? (·.kind.isAttr other) := by
  induction h with
  | nil as => rfl
  | cons first rest ih =>
    rw [List.map_cons, List.mem_cons, not_or] at hother
    rw [ih hother.2, (sets_of_ok first).find?_other (Ne.symm hother.1)]

/-- The old values of names that are still unknown come behind the known ones. -/
theorem setAttributes_of_setsAll {as as' : List Node} {values olds : Dict (Value Node)} (h : SetsAll as values as' olds)
    {known : Dict (Value Node)} (hkeys : (known.map (·.1) ++ values.map (·.1)).Nodup) :
    setAttributes as known values = (as', .ok (known ++ olds)) := by
  induction h generalizing known with
  | nil as => rw [setAttributes, List.append_nil]
  | @cons as as₁ as' name v old values olds first rest ih =>
    have hfresh : name ∉ known.map (·.1) := fun hmem =>
      (List.nodup_append.mp hkeys).2.2 name hmem name List.mem_cons_self rfl
    rw [setAttributes, first]
    dsimp only
    rw [ih ?_, put_of_not_mem hfresh, List.append_assoc, List.singleton_append]
    rw [put_of_not_mem hfresh, List.map_append, List.append_assoc]
    exact hkeys

/-- All attributes of a dictionary are set, or those before one that cannot be. -/
theorem setAttributes_cases (as : List Node) (values : Dict (Value Node)) :
    (∃ as' olds, SetsAll as values as' olds) ∨
      ∃ before name v after as' olds f, values = before ++ (name, v) :: after ∧ SetsAll as before as' olds ∧
        setAttribute as' name v = .error f := by
  induction values generalizing as with
  | nil => exact .inl ⟨as, [], .nil as⟩
  | cons e values ih =>
    obtain ⟨name, v⟩ := e
    cases hset : setAttribute as name v with
    | error f => exact .inr ⟨[], name, v, values, as, [], f, rfl, .nil as, hset⟩
    | ok done =>
      obtain ⟨as₁, old⟩ := done
      rcases ih as₁ with ⟨as', olds, hall⟩ | ⟨before, name', v', after, as', olds, f, rfl, hbefore, hfault⟩
      · exact .inl ⟨as', _, .cons hset hall⟩
      · exact .inr ⟨(name, v) :: before, name', v', after, as', _, f, rfl, .cons hset hbefore, hfault⟩

/-- One that cannot be set ends the setting where it stands. -/
theorem setAttributes_of_fault {as as' : List Node} {before after olds : Dict (Value Node)} {name : String}
    {v : Value Node} {f : Fault} (h : SetsAll as before as' olds) (hfault : setAttribute as' name v = .error f)
    (known : Dict (Value Node)) : setAttributes as known (before ++ (name, v) :: after) = (as', .error f) := by
  induction h generalizing known with
  | nil as => rw [List.nil_append, setAttributes, hfault]
  | cons first rest ih =>
    rw [List.cons_append, setAttributes, first]
    exact ih hfault _

/-! ## The values -/

/-- What stands behind the name of an attribute for a simple value is read as that. -/
theorem reads_of_simple {v : Value Node} (hv : Build.IsSimple v) (hgiven : Build.isAbsent v = false) {new : Option Node}
    (hnew : Build.attributeValue v = .ok new) {a : Node} (ha : a.children = new.toList) :
    a.attributeValue.map Value.ofDatum = .ok v := by
  cases v with
  | null => cases hgiven
  | bool b =>
    cases b with
    | false => cases hgiven
    | true =>
      cases hnew
      rw [attributeValue_of_nil ha]
      rfl
  | str s =>
    rw [Build.attributeValue] at hnew
    obtain ⟨k, hk, hnew⟩ := bind_eq_ok hnew
    obtain rfl := Except.ok.inj hnew
    obtain ⟨raw, quote, rfl⟩ := attributeString_kind hk
    have hread : (Literal.references raw).map some = .ok (some s) := Literal.stringValue_attributeString hk
    cases hraw : Literal.references raw with
    | error f =>
      rw [hraw] at hread
      cases hread
    | ok s' =>
      rw [hraw] at hread
      cases hread
      rw [attributeValue_of_string ha rfl, hraw]
      rfl
  | int n =>
    obtain ⟨text, htext, rfl⟩ := Build.slot_number_eq_ok hnew
    obtain ⟨hshort, rfl⟩ := Literal.numberText_int_eq_ok htext
    rw [attributeValue_of_number ha rfl rfl rfl, Number.numberValue_intText_eq hshort]
    rfl
  | float | list | dict | node => exact hv.elim

section

variable {tree : Node} {place : Path} {name : String} {v : Value Node}

/-- A value that was checked is left out or has a node. -/
theorem given_of_valueProblem (h : valueProblem tree place name v = .ok none) (hgiven : Build.isAbsent v = false) :
    ∃ new, Build.attributeValue v = .ok new := by
  unfold valueProblem at h
  rw [hgiven] at h
  cases hnew : Build.attributeValue v with
  | ok new => exact ⟨new, rfl⟩
  | error f =>
    rw [hnew] at h
    cases f <;> cases h

/-- A value that has a node passes the check if it is not the identity. -/
theorem valueProblem_of_value (hname : name ≠ identityName) {new : Option Node} (h : Build.attributeValue v = .ok new) :
    valueProblem tree place name v = .ok none := by
  unfold valueProblem
  rw [h]
  cases v with
  | bool b => cases b <;> rfl
  | str s =>
    rw [beq_eq_false_iff_ne.mpr hname]
    rfl
  | _ => rfl

/-- Unless it is the identity, a value is checked without a look at the tree. -/
theorem valueProblem_congr (hname : name ≠ identityName) (tree' : Node) (place' : Path) :
    valueProblem tree place name v = valueProblem tree' place' name v := by
  unfold valueProblem
  rw [beq_eq_false_iff_ne.mpr hname]
  rfl

theorem valueProblem_of_simple (hname : name ≠ identityName) (hv : Build.IsSimple v) {problem : String} :
    valueProblem tree place name v ≠ .ok (some problem) := by
  intro h
  unfold valueProblem at h
  cases v with
  | null => cases h
  | bool b => cases b <;> cases h
  | int n =>
    rw [Build.attributeValue, Build.number, Literal.numberText] at h
    by_cases hshort : (Nat.toDigits 10 n.natAbs).length ≤ Text.maxDigits
    · rw [if_pos hshort] at h
      cases h
    · rw [if_neg hshort] at h
      cases h
  | str s =>
    rw [beq_eq_false_iff_ne.mpr hname, Build.attributeValue, Literal.attributeString, Literal.attributeText,
      Literal.references] at h
    cases hdecode : Text.decodeReferences? s <;> (rw [hdecode] at h; cases h)
  | float | list | dict | node => exact hv.elim

end

theorem attributesProblem_eq_ok {tree : Node} {place : Path} {values : Dict (Value Node)} :
    attributesProblem tree place values = .ok none ↔
      ∀ e ∈ values, isAttrName e.1 = true ∧ valueProblem tree place e.1 e.2 = .ok none := by
  induction values with
  | nil => exact iff_of_true rfl (List.forall_mem_nil _)
  | cons e values ih =>
    obtain ⟨name, v⟩ := e
    rw [List.forall_mem_cons, ← ih, attributesProblem]
    cases isAttrName name with
    | false => exact iff_of_false (fun h => by cases h) fun h => by cases h.1.1
    | true =>
      cases valueProblem tree place name v with
      | error f => exact iff_of_false (fun h => by cases h) fun h => by cases h.1.2
      | ok problem =>
        cases problem with
        | some problem => exact iff_of_false (fun h => by cases h) fun h => by cases h.1.2
        | none => exact ⟨fun h => ⟨⟨rfl, rfl⟩, h⟩, fun h => h.2⟩

/-! ## The list afterwards -/

/-- The node for the value of an attribute, if it has one. -/
def valueNode? (v : Value Node) : Option Node := (Build.attributeValue v).toOption.join

/-- What becomes of an attribute for a dictionary of values: one that is named gets its value or is left out. -/
def revalued (values : Dict (Value Node)) (a : Node) : Option Node :=
  match values.find? fun e => a.kind.isAttr e.1 with
  | none => some a
  | some e => if Build.isAbsent e.2 then none else some (a.withChildren (valueNode? e.2).toList)

/-- The attribute that is added for an entry: none if there is one already, or none is to be. -/
def added (as : List Node) (e : String × Value Node) : Option Node :=
  if Build.isAbsent e.2 || as.any (·.kind.isAttr e.1) then none else some (.attr e.1 (valueNode? e.2))

/-- No value is given for the attribute. -/
def isUnnamed (values : Dict (Value Node)) (a : Node) : Bool := values.all fun e => !a.kind.isAttr e.1

section

variable {values : Dict (Value Node)} {a : Node}

theorem revalued_of_unnamed (h : ∀ e ∈ values, a.kind.isAttr e.1 = false) : revalued values a = some a := by
  rw [revalued, List.find?_eq_none.mpr fun e he => by rw [h e he]; exact Bool.false_ne_true]

/-- An attribute with the name of an entry, whose name no other entry has. -/
theorem revalued_cons_self {e : String × Value Node} (ha : a.kind.isAttr e.1 = true) :
    revalued (e :: values) a = if Build.isAbsent e.2 then none else some (a.withChildren (valueNode? e.2).toList) := by
  have hfind : (e :: values).find? (fun e => a.kind.isAttr e.1) = some e := List.find?_cons_of_pos ha
  rw [revalued, hfind]

theorem revalued_cons_other {e : String × Value Node} (ha : a.kind.isAttr e.1 = false) :
    revalued (e :: values) a = revalued values a := by
  rw [revalued, List.find?_cons_of_neg (by rw [ha]; exact Bool.false_ne_true), revalued]

/-- The entries may come one after the other. -/
theorem revalued_cons {e : String × Value Node} (h : e.1 ∉ values.map (·.1)) (a : Node) :
    revalued (e :: values) a = (revalued [e] a).bind (revalued values) := by
  cases ha : a.kind.isAttr e.1 with
  | false =>
    rw [revalued_cons_other ha, revalued_cons_other ha]
    rfl
  | true =>
    rw [revalued_cons_self ha, revalued_cons_self ha]
    split
    · rfl
    · have hothers : ∀ e' ∈ values, (a.withChildren (valueNode? e.2).toList).kind.isAttr e'.1 = false := fun e' he' => by
        rw [kind_withChildren]
        exact isAttr_other ha fun heq => h (heq ▸ List.mem_map_of_mem he')
      rw [Option.bind_some, revalued_of_unnamed hothers]

end

section

variable {as as' : List Node}

/-- In a list without repetitions one attribute at most has a name. -/
theorem unnamed_of_nodup {left right : List Node} {a : Node} {name : String}
    (hnames : (names (left ++ a :: right)).Nodup) (ha : a.kind.isAttr name = true) :
    (∀ x ∈ left, x.kind.isAttr name = false) ∧ ∀ x ∈ right, x.kind.isAttr name = false := by
  have hmem {x : Node} {bs : List Node} (hx : x ∈ bs) (hname : x.kind.isAttr name = true) : name ∈ names bs :=
    List.mem_map.mpr ⟨_, List.mem_filterMap.mpr ⟨x, hx, entryOf?_of_isAttr hname⟩, rfl⟩
  have hsplit : names (left ++ a :: right) = names left ++ name :: names right := by
    rw [names, entries_append, List.map_append, ← names, ← names, names_cons, entryOf?_of_isAttr ha]
    rfl
  rw [hsplit, List.nodup_append, List.nodup_cons] at hnames
  obtain ⟨-, ⟨hright, -⟩, hleft⟩ := hnames
  constructor
  · intro x hx
    rw [← Bool.not_eq_true]
    exact fun hname => hleft name (hmem hx hname) name List.mem_cons_self rfl
  · intro x hx
    rw [← Bool.not_eq_true]
    exact fun hname => hright (hmem hx hname)

theorem filter_named {a : Node} {name : String} (hnames : (names as).Nodup) (hmem : a ∈ as)
    (ha : a.kind.isAttr name = true) : as.filter (·.kind.isAttr name) = [a] := by
  obtain ⟨left, right, rfl⟩ := List.append_of_mem hmem
  obtain ⟨hleft, hright⟩ := unnamed_of_nodup hnames ha
  have hnone {bs : List Node} (h : ∀ x ∈ bs, x.kind.isAttr name = false) : bs.filter (·.kind.isAttr name) = [] :=
    List.filter_eq_nil_iff.mpr fun x hx => by rw [h x hx]; exact Bool.false_ne_true
  have hself : (a :: right).filter (·.kind.isAttr name) = a :: right.filter (·.kind.isAttr name) :=
    List.filter_cons_of_pos ha
  rw [List.filter_append, hnone hleft, hself, hnone hright, List.nil_append]

/-- One attribute is set: the others stay where they are. -/
theorem Sets.eq {name : String} {v old : Value Node} (h : Sets as name v as' old) (hnames : (names as).Nodup) :
    as' = as.filterMap (revalued [(name, v)]) ++ (added as (name, v)).toList := by
  have hstay {bs : List Node} (hbs : ∀ a ∈ bs, a.kind.isAttr name = false) :
      bs.filterMap (revalued [(name, v)]) = bs := by
    rw [List.filterMap_congr fun a ha => revalued_of_unnamed (List.forall_mem_singleton.mpr (hbs a ha)),
      List.filterMap_some]
  have hnamed {left right : List Node} {a : Node} (hsplit : as = left ++ a :: right)
      (ha : a.kind.isAttr name = true) : added as (name, v) = none := by
    have hany : as.any (·.kind.isAttr name) = true :=
      List.any_eq_true.mpr ⟨a, by rw [hsplit]; simp, ha⟩
    rw [added, hany, Bool.or_true, if_pos rfl]
  cases h with
  | skip absent missing =>
    rw [hstay missing, added, absent, Bool.true_or, if_pos rfl, Option.toList_none, List.append_nil]
  | @add new given missing value =>
    have hany : as.any (·.kind.isAttr name) = false :=
      List.any_eq_false.mpr fun a ha => by rw [missing a ha]; exact Bool.false_ne_true
    rw [hstay missing, added, given, hany, Bool.or_self, if_neg Bool.false_ne_true, valueNode?, value]
    rfl
  | @remove left right a old absent split named first was =>
    obtain ⟨-, hright⟩ := unnamed_of_nodup (split ▸ hnames) named
    rw [hnamed split named, split, List.filterMap_append, List.filterMap_cons, revalued_cons_self named, absent,
      if_pos rfl, hstay first, hstay hright, Option.toList_none, List.append_nil]
  | @change left right a old new given split named first was value =>
    obtain ⟨-, hright⟩ := unnamed_of_nodup (split ▸ hnames) named
    rw [hnamed split named, split, List.filterMap_append, List.filterMap_cons, revalued_cons_self named, given,
      if_neg Bool.false_ne_true, hstay first, hstay hright, Option.toList_none, List.append_nil, valueNode?, value]
    rfl

/-- Attributes are set one after the other: what is named changes or goes, new ones come last, in the order of the
entries, and the others stay where they are. -/
theorem SetsAll.eq {values olds : Dict (Value Node)} (h : SetsAll as values as' olds) (hnames : (names as).Nodup)
    (hkeys : (values.map (·.1)).Nodup) (hplain : ∀ e ∈ values, isPlainValue e.2 = true) :
    as' = as.filterMap (revalued values) ++ values.filterMap (added as) := by
  induction h with
  | nil as =>
    rw [List.filterMap_congr fun a _ => revalued_of_unnamed (List.forall_mem_nil _), List.filterMap_some,
      List.filterMap_nil, List.append_nil]
  | @cons as as₁ as' name v old values olds first rest ih =>
    rw [List.map_cons, List.nodup_cons] at hkeys
    rw [List.forall_mem_cons] at hplain
    have hallowed : Allowed (fun _ => True) as as₁ :=
      allowed_setAttribute hnames hplain.1 (fun _ _ _ => trivial) first
    have hsets := sets_of_ok first
    have hnew : (added as (name, v)).toList.filterMap (revalued values) = (added as (name, v)).toList := by
      rw [List.filterMap_congr fun a ha => revalued_of_unnamed fun e he => ?_, List.filterMap_some]
      rw [Option.mem_toList, added] at ha
      split at ha
      · cases ha
      · cases ha
        refine isAttr_other (isAttr_iff.mpr ⟨_, rfl⟩) fun heq => hkeys.1 ?_
        rw [heq]
        exact List.mem_map_of_mem he
    have hlater : values.filterMap (added as₁) = values.filterMap (added as) := by
      refine List.filterMap_congr fun e he => ?_
      have hne : name ≠ e.1 := by
        intro heq
        have hmem : e.1 ∈ values.map (·.1) := List.mem_map_of_mem he
        exact hkeys.1 (heq ▸ hmem)
      have hany : as₁.any (·.kind.isAttr e.1) = as.any (·.kind.isAttr e.1) := by
        rw [← List.isSome_find?, hsets.find?_other hne, List.isSome_find?]
      rw [added, added, hany]
    rw [ih hallowed.names hkeys.2 hplain.2, hlater, hsets.eq hnames, List.filterMap_append, List.filterMap_filterMap,
      hnew, List.filterMap_cons, List.filterMap_congr fun a _ => (revalued_cons (e := (name, v)) hkeys.1 a).symm,
      List.append_assoc]
    cases added as (name, v) <;> rfl

end

theorem kind_of_revalued {values : Dict (Value Node)} {a b : Node} (h : revalued values b = some a) :
    a.kind = b.kind := by
  rw [revalued] at h
  split at h
  · cases h
    rfl
  · split at h
    · cases h
    · cases h
      exact kind_withChildren ..

section

variable {as : List Node} {values : Dict (Value Node)} {e : String × Value Node} (he : e ∈ values)
  (hkeys : (values.map (·.1)).Nodup)
include he hkeys

/-- Only one entry has the name of an attribute. -/
theorem entry_unique {e' : String × Value Node} (he' : e' ∈ values) {a : Node} (ha : a.kind.isAttr e.1 = true)
    (ha' : a.kind.isAttr e'.1 = true) : e' = e := by
  refine List.inj_on_of_nodup_map hkeys he' he ?_
  by_contra hne
  rw [isAttr_other ha' hne] at ha
  cases ha

theorem revalued_of_named {b : Node} (hb : b.kind.isAttr e.1 = true) : revalued values b =
    if Build.isAbsent e.2 then none else some (b.withChildren (valueNode? e.2).toList) := by
  rw [revalued]
  split
  · next hnone => exact absurd hb (List.find?_eq_none.mp hnone e he)
  · next e' hsome =>
    have hname : b.kind.isAttr e'.1 = true := List.find?_some (p := fun e : String × Value Node => b.kind.isAttr e.1) hsome
    obtain rfl := entry_unique he hkeys (List.mem_of_find?_eq_some hsome) hb hname
    rfl

/-- After a dictionary of values was set, an attribute with the name of an entry has the value of that. -/
theorem value_of_named {a : Node} (hmem : a ∈ as.filterMap (revalued values) ++ values.filterMap (added as))
    (ha : a.kind.isAttr e.1 = true) : Build.isAbsent e.2 = false ∧ a.children = (valueNode? e.2).toList := by
  rcases List.mem_append.mp hmem with hmem | hmem
  · obtain ⟨b, -, hb⟩ := List.mem_filterMap.mp hmem
    rw [revalued_of_named he hkeys (kind_of_revalued hb ▸ ha)] at hb
    split at hb
    · cases hb
    · next hgiven =>
      cases hb
      exact ⟨Bool.eq_false_iff.mpr hgiven, children_withChildren ..⟩
  · obtain ⟨e', he', hb⟩ := List.mem_filterMap.mp hmem
    rw [added] at hb
    split at hb
    · cases hb
    · next hgiven =>
      cases hb
      obtain rfl := entry_unique he hkeys he' ha (isAttr_iff.mpr ⟨_, rfl⟩)
      rw [Bool.or_eq_true, not_or] at hgiven
      exact ⟨Bool.eq_false_iff.mpr hgiven.1, rfl⟩

/-- An entry that does not ask for an attribute to be left out has one afterwards. -/
theorem exists_named (hgiven : Build.isAbsent e.2 = false) :
    ∃ a ∈ as.filterMap (revalued values) ++ values.filterMap (added as), a.kind.isAttr e.1 = true := by
  cases hany : as.any (·.kind.isAttr e.1) with
  | false =>
    refine ⟨.attr e.1 (valueNode? e.2), List.mem_append_right _ (List.mem_filterMap.mpr ⟨e, he, ?_⟩),
      isAttr_iff.mpr ⟨_, rfl⟩⟩
    rw [added, hgiven, hany, Bool.or_self, if_neg Bool.false_ne_true]
  | true =>
    obtain ⟨b, hb, hname⟩ := List.any_eq_true.mp hany
    refine ⟨b.withChildren (valueNode? e.2).toList, List.mem_append_left _ (List.mem_filterMap.mpr ⟨b, hb, ?_⟩), ?_⟩
    · rw [revalued_of_named he hkeys hname, hgiven, if_neg Bool.false_ne_true]
    · rw [kind_withChildren]
      exact hname

end

/-- Attributes without an entry are the same as before, in the same order. -/
theorem filter_unnamed (as : List Node) (values : Dict (Value Node)) :
    (as.filterMap (revalued values) ++ values.filterMap (added as)).filter (isUnnamed values) =
      as.filter (isUnnamed values) := by
  have hnew : (values.filterMap (added as)).filter (isUnnamed values) = [] := by
    refine List.filter_eq_nil_iff.mpr fun a ha => ?_
    obtain ⟨e, he, hadded⟩ := List.mem_filterMap.mp ha
    rw [added] at hadded
    split at hadded
    · cases hadded
    · cases hadded
      have hname : (Node.attr e.1 (valueNode? e.2)).kind.isAttr e.1 = true := isAttr_iff.mpr ⟨_, rfl⟩
      rw [Bool.not_eq_true, isUnnamed, List.all_eq_false]
      exact ⟨e, he, by rw [hname]; decide⟩
  rw [List.filter_append, hnew, List.append_nil]
  clear hnew
  induction as with
  | nil => rfl
  | cons a as ih =>
    rw [List.filterMap_cons]
    cases hunnamed : isUnnamed values a with
    | true =>
      have hnone : ∀ e ∈ values, a.kind.isAttr e.1 = false := fun e he => by
        simpa using List.all_eq_true.mp hunnamed e he
      rw [revalued_of_unnamed hnone, List.filter_cons_of_pos hunnamed, List.filter_cons_of_pos hunnamed, ih]
    | false =>
      rw [List.filter_cons_of_neg (by rw [hunnamed]; exact Bool.false_ne_true), ← ih]
      cases hnew : revalued values a with
      | none => rfl
      | some b =>
        have hb : isUnnamed values b = false := by rw [isUnnamed, kind_of_revalued hnew, ← isUnnamed, hunnamed]
        exact List.filter_cons_of_neg (by rw [hb]; exact Bool.false_ne_true)

/-! ## The element -/

section

variable {tree : Node} {id : String} {w : Visit} (hw : tree.findId id = .ok (some w))
include hw

/-- An attribute with a valid name and a value that passes the check is set if that is possible in the list. -/
theorem updateAttribute_of_checked {name : String} {v old : Value Node} {as : List Node}
    (hname : isAttrName name = true) (hv : valueProblem tree w.path name v = .ok none)
    (hset : setAttribute w.node.attributes name v = .ok (as, old)) : ∃ message,
      (updateAttribute tree id (.str name) v).result = .ok ⟨none, message, [("old_value", old)]⟩ ∧
        (updateAttribute tree id (.str name) v).tree = tree.modify (·.withAttributes as) w.path := by
  rw [updateAttribute, hw]
  dsimp only
  rw [hname, hv]
  dsimp only
  rw [if_neg (by decide), hset]
  exact ⟨_, rfl, rfl⟩

section

variable {values : Dict (Value Node)} (hchecked : attributesProblem tree w.path values = .ok none)
include hchecked

theorem updateAttributes_of_setsAll {as : List Node} {olds : Dict (Value Node)}
    (hset : SetsAll w.node.attributes values as olds) (hkeys : (values.map (·.1)).Nodup) : ∃ message,
      (updateAttributes tree id values).result = .ok ⟨none, message, [("old_values", .dict olds)]⟩ ∧
        (updateAttributes tree id values).tree = tree.modify (·.withAttributes as) w.path := by
  rw [updateAttributes, hw]
  dsimp only
  rw [hchecked]
  dsimp only
  have hset' : setAttributes w.node.attributes [] values = (as, .ok ([] ++ olds)) :=
    setAttributes_of_setsAll hset (by simpa using hkeys)
  rw [hset', List.nil_append]
  exact ⟨_, rfl, rfl⟩

end

end

/-- The updates of single attributes, one after the other, all of them successful. -/
inductive Singly (id : String) : Node → Dict (Value Node) → Node → Dict (Value Node) → Prop
  | nil (tree : Node) : Singly id tree [] tree []
  | cons {tree tree' : Node} {name message : String} {v old : Value Node} {values olds : Dict (Value Node)}
      (first : (updateAttribute tree id (.str name) v).result = .ok ⟨none, message, [("old_value", old)]⟩)
      (rest : Singly id (updateAttribute tree id (.str name) v).tree values tree' olds) :
      Singly id tree ((name, v) :: values) tree' ((name, old) :: olds)

/-- The element is found again after each update that does not change its identity. -/
theorem singly_of_setsAll {tree n : Node} {id : String} {parent : Path} {index : Nat}
    (hw : tree.findId id = .ok (some ⟨parent, index, n⟩)) (hget : tree.get? (parent ++ [Step.child index]) = some n)
    {values olds : Dict (Value Node)} {as : List Node} (hset : SetsAll n.attributes values as olds)
    (hnames : ∀ e ∈ values, e.1 ≠ identityName)
    (hchecked : attributesProblem tree (parent ++ [Step.child index]) values = .ok none) :
    Singly id tree values (tree.set (parent ++ [Step.child index]) (n.withAttributes as)) olds := by
  induction values generalizing tree n olds with
  | nil =>
    cases hset
    rw [withAttributes_attributes, set_self hget]
    exact .nil tree
  | cons e values ih =>
    cases hset with
    | @cons _ as₁ _ name v old _ olds first rest =>
      obtain ⟨hne, hnames⟩ := List.forall_mem_cons.mp hnames
      obtain ⟨⟨hname, hv⟩, hlater⟩ := List.forall_mem_cons.mp (attributesProblem_eq_ok.mp hchecked)
      obtain ⟨message, hresult, htree⟩ := updateAttribute_of_checked hw hname hv first
      replace htree : (updateAttribute tree id (.str name) v).tree =
          tree.set (parent ++ [Step.child index]) (n.withAttributes as₁) := htree.trans (modify_eq_set _ hget)
      have helement : (n.withAttributes as₁).kind.isElement = true := by
        rw [kind_withAttributes]
        exact (findId_some hw).element
      have hw' : (tree.set (parent ++ [Step.child index]) (n.withAttributes as₁)).findId id =
          .ok (some ⟨parent, index, n.withAttributes as₁⟩) := findId_set_of_identity hw hget helement
        (elementIdentity_withAttributes ((sets_of_ok first).find?_other hne))
      have hchecked' : attributesProblem (tree.set (parent ++ [Step.child index]) (n.withAttributes as₁))
          (parent ++ [Step.child index]) values = .ok none := attributesProblem_eq_ok.mpr fun e he =>
        ⟨(hlater e he).1, (valueProblem_congr (hnames e he) ..).trans (hlater e he).2⟩
      have hrest := ih hw' (get?_set_child hget _) (by rwa [attributes_withAttributes]) hnames hchecked'
      rw [withAttributes_withAttributes, set_set] at hrest
      refine .cons hresult ?_
      rw [htree]
      exact hrest

/-- Entries whose values come back as they were given, under valid names that are not the one of the identity. -/
def AreScalars (values : Dict (Value Node)) : Prop :=
  ∀ e ∈ values, isAttrName e.1 = true ∧ e.1 ≠ identityName ∧ Build.IsSimple e.2

theorem AreScalars.noProblem {values : Dict (Value Node)} (h : AreScalars values) (tree : Node) (place : Path)
    (problem : String) : attributesProblem tree place values ≠ .ok (some problem) := by
  induction values with
  | nil => exact fun h => nomatch h
  | cons e values ih =>
    obtain ⟨name, v⟩ := e
    obtain ⟨⟨hname, hne, hv⟩, hrest⟩ := List.forall_mem_cons.mp h
    intro hproblem
    rw [attributesProblem, hname] at hproblem
    obtain ⟨first, hfirst, hproblem⟩ := bind_eq_ok hproblem
    cases first with
    | none => exact ih hrest hproblem
    | some p => exact valueProblem_of_simple hne hv hfirst

theorem isPlain_of_simple {v : Value Node} (h : Build.IsSimple v) : isPlainValue v = true := by
  cases v with
  | node => exact h.elim
  | _ => rfl

/-- If the call gives a result, all values pass the check, and all attributes are set. -/
theorem setsAll_of_result {tree : Node} {id : String} {w : Visit} {values : Dict (Value Node)}
    (hw : tree.findId id = .ok (some w)) (hvalues : AreScalars values)
    (hresult : ∀ f, (updateAttributes tree id values).result ≠ .error f) :
    attributesProblem tree w.path values = .ok none ∧ ∃ as olds, SetsAll w.node.attributes values as olds := by
  rw [updateAttributes, hw] at hresult
  dsimp only at hresult
  cases hproblem : attributesProblem tree w.path values with
  | error f =>
    rw [hproblem] at hresult
    exact absurd rfl (hresult f)
  | ok problem =>
    cases problem with
    | some problem => exact absurd hproblem (hvalues.noProblem tree w.path problem)
    | none =>
      rw [hproblem] at hresult
      rcases setAttributes_cases w.node.attributes values with hall | ⟨before, name, v, after, as, olds, f, rfl, hall, hf⟩
      · exact ⟨rfl, hall⟩
      · rw [setAttributes_of_fault hall hf] at hresult
        exact absurd rfl (hresult f)

/-- To set several attributes at once is to set them one after the other, with the same old values. In the element, and
nowhere else in the tree, the attributes that are named change or go, new ones come last, in the order of the entries,
and the others stay as they are. Then each named attribute has the value that was given, or is absent. -/
theorem attributes_set_singly {tree : Node} {id : String} {w : Visit} {values : Dict (Value Node)}
    (htree : tree.KeepsAttributes) (hw : tree.findId id = .ok (some w)) (hrepeat : w.node.RepeatFree)
    (hkeys : (values.map (·.1)).Nodup) (hvalues : AreScalars values)
    (hresult : ∀ f, (updateAttributes tree id values).result ≠ .error f) : ∃ as olds message,
      (updateAttributes tree id values).result = .ok ⟨none, message, [("old_values", .dict olds)]⟩ ∧
      Singly id tree values (updateAttributes tree id values).tree olds ∧
      tree.get? w.path = some w.node ∧
      (updateAttributes tree id values).tree = tree.set w.path (w.node.withAttributes as) ∧
      as = w.node.attributes.filterMap (revalued values) ++ values.filterMap (added w.node.attributes) ∧
      as.filter (isUnnamed values) = w.node.attributes.filter (isUnnamed values) ∧
      ∀ e ∈ values, (Build.isAbsent e.2 = true → ∀ a ∈ as, a.kind.isAttr e.1 = false) ∧
        (Build.isAbsent e.2 = false → ∃ a, as.filter (·.kind.isAttr e.1) = [a] ∧
          a.attributeValue.map Value.ofDatum = .ok e.2) := by
  have hfound := findId_some hw
  have hget := htree.get?_visit hfound.mem
  have hnames : (names w.node.attributes).Nodup := by
    rw [← attributeNames_eq]
    exact hrepeat hfound.element
  have hplain : ∀ e ∈ values, isPlainValue e.2 = true := fun e he => isPlain_of_simple (hvalues e he).2.2
  obtain ⟨hchecked, as, olds, hset⟩ := setsAll_of_result hw hvalues hresult
  obtain ⟨message, hdone, hafter⟩ := updateAttributes_of_setsAll hw hchecked hset hkeys
  rw [modify_eq_set _ hget] at hafter
  have heq := hset.eq hnames hkeys hplain
  have hnames' : (names as).Nodup := by
    have hallowed : Allowed (fun _ => True) w.node.attributes (setAttributes w.node.attributes [] values).1 :=
      allowed_setAttributes hnames hplain fun _ _ => trivial
    rw [setAttributes_of_setsAll hset (by simpa using hkeys)] at hallowed
    exact hallowed.names
  refine ⟨as, olds, message, hdone, ?_, hget, hafter, heq, ?_, fun e he => ⟨fun habsent a ha => ?_, fun hgiven => ?_⟩⟩
  · rw [hafter]
    exact singly_of_setsAll hw hget hset (fun e he => (hvalues e he).2.1) hchecked
  · rw [heq]
    exact filter_unnamed w.node.attributes values
  · rw [← Bool.not_eq_true]
    intro hname
    obtain ⟨hgiven, -⟩ := value_of_named he hkeys (heq ▸ ha) hname
    rw [habsent] at hgiven
    cases hgiven
  · obtain ⟨a, ha, hname⟩ : ∃ a ∈ w.node.attributes.filterMap (revalued values) ++
        values.filterMap (added w.node.attributes), a.kind.isAttr e.1 = true := exists_named he hkeys hgiven
    obtain ⟨-, hvalue⟩ := value_of_named he hkeys ha hname
    obtain ⟨new, hnew⟩ := given_of_valueProblem ((attributesProblem_eq_ok.mp hchecked) e he).2 hgiven
    rw [valueNode?, hnew] at hvalue
    rw [← heq] at ha
    exact ⟨a, filter_named hnames' ha hname, reads_of_simple (hvalues e he).2.2 hgiven hnew hvalue⟩

/-- A field with attributes of several kinds. -/
def field : String := "<input data-editable=\"f\" type='text' \x7b...rest\x7d hidden tabIndex=\x7b1\x7d/>"

/-- A value for one of them, one left out, and two new ones. -/
def fieldValues : Dict (Value Node) :=
  [("title", .str "a \"b\""), ("type", .str "date"), ("hidden", .bool false), ("required", .bool true)]

theorem areScalars_fieldValues : AreScalars fieldValues := by
  simp only [AreScalars, fieldValues, List.forall_mem_cons]
  exact ⟨⟨by decide, by decide, trivial⟩, ⟨by decide, by decide, trivial⟩, ⟨by decide, by decide, trivial⟩,
    ⟨by decide, by decide, trivial⟩, List.forall_mem_nil _⟩

theorem field_set_singly : ∃ (tree : Node) (w : Visit) (as : List Node) (olds : Dict (Value Node)) (message : String),
    Source.parse field = .ok tree ∧ tree.findId "f" = .ok (some w) ∧
    (updateAttributes tree "f" fieldValues).result = .ok ⟨none, message, [("old_values", .dict olds)]⟩ ∧
    Singly "f" tree fieldValues (updateAttributes tree "f" fieldValues).tree olds ∧
    as.filter (isUnnamed fieldValues) = w.node.attributes.filter (isUnnamed fieldValues) ∧
    (updateAttributes tree "f" fieldValues).tree.write =
      "<input data-editable=\"f\" type=\"date\" \x7b...rest\x7d tabIndex=\x7b1\x7d title='a \"b\"' required/>" := by
  obtain ⟨tree, w, hparse, hw, hrun⟩ : ∃ tree w, Source.parse field = .ok tree ∧ tree.findId "f" = .ok (some w) ∧
      decide (w.node.RepeatFree ∧ (updateAttributes tree "f" fieldValues).result.toBool = true ∧
        (updateAttributes tree "f" fieldValues).tree.write =
          "<input data-editable=\"f\" type=\"date\" \x7b...rest\x7d tabIndex=\x7b1\x7d title='a \"b\"' required/>") =
        true := exists_found (by decide +kernel)
  obtain ⟨hrepeat, hresult, hwrite⟩ := of_decide_eq_true hrun
  obtain ⟨as, olds, message, hdone, hsingly, -, -, -, hunnamed, -⟩ :=
    attributes_set_singly (Source.keepsAttributes_parse hparse) hw hrepeat (by decide) areScalars_fieldValues
      fun f hf => by
        rw [hf] at hresult
        cases hresult
  exact ⟨tree, w, as, olds, message, hparse, hw, hdone, hsingly, hunnamed, hwrite⟩

/-! ## Old values that cannot be worked out -/

theorem references_error {raw : String} {f : Fault} (h : Literal.references raw = .error f) : f = .badNumber := by
  unfold Literal.references at h
  split at h <;> cases h
  rfl

/-- The value of a literal fails at a reference or a number. -/
theorem literalValue_error {k : Kind} {f : Fault} (h : k.literalValue = .error f) : f = .badNumber := by
  unfold Kind.literalValue at h
  split at h
  case h_2 raw quote =>
    cases hraw : Literal.references raw with
    | ok s =>
      rw [hraw] at h
      cases h
    | error g =>
      rw [hraw] at h
      cases h
      exact references_error hraw
  case h_4 text =>
    unfold Kind.numberValue at h
    split at h <;> cases h
    rfl
  all_goals cases h

theorem stringValue_error {k : Kind} {f : Fault} (h : k.stringValue = .error f) : f = .badNumber := by
  unfold Kind.stringValue at h
  split at h
  case h_2 raw quote =>
    cases hraw : Literal.references raw with
    | ok s =>
      rw [hraw] at h
      cases h
    | error g =>
      rw [hraw] at h
      cases h
      exact references_error hraw
  all_goals cases h

theorem writeChecked_of_flawless {n : Node} (h : n.Flawless) : n.writeChecked = .ok n.write := by
  rw [writeChecked, h.1, hasForeign_of_nodes n (foreign_of_mem_under n h), Bool.or_self, if_neg Bool.false_ne_true]

/-- An attribute without a flaw has a value, unless a reference or a number in it cannot be decoded. -/
theorem attributeValue_error {a : Node} (ha : a.Flawless) {f : Fault} (h : a.attributeValue = .error f) :
    f = .badNumber := by
  have hinner {n v : Node} (hn : n.Flawless) (hv : n.value? = some v) : v.Flawless := by
    obtain ⟨rest, hrest⟩ := value?_some hv
    exact hn.child (hrest ▸ List.mem_cons_self)
  rw [attributeValue] at h
  split at h
  · cases h
  · next v hv =>
    dsimp only at h
    cases hstring : v.kind.stringValue with
    | error g =>
      rw [hstring] at h
      cases h
      exact stringValue_error hstring
    | ok s =>
      rw [hstring] at h
      dsimp only [bind, Except.bind] at h
      split at h
      · cases h
      · cases h
      · next e he =>
        have hflawless : e.Flawless := by
          split at he
          · exact hinner (hinner ha hv) he
          · cases he
            exact hinner ha hv
        split at h
        · exact literalValue_error h
        · rw [writeChecked_of_flawless hflawless] at h
          cases h

/-- The setting of attributes after the check ends at an old value that cannot be worked out. -/
theorem old_of_fault {as as' : List Node} {before olds : Dict (Value Node)} {name : String} {v : Value Node} {f : Fault}
    (hset : SetsAll as before as' olds) (hname : name ∉ before.map (·.1))
    (hv : Build.isAbsent v = false → ∃ new, Build.attributeValue v = .ok new)
    (hfault : setAttribute as' name v = .error f) :
    ∃ a, as.find? (·.kind.isAttr name) = some a ∧ a.attributeValue = .error f := by
  cases hi : attrIndex? as' name with
  | none =>
    rw [setAttribute_of_missing (attrIndex?_eq_none.mp hi)] at hfault
    split at hfault
    · cases hfault
    · next hgiven =>
      obtain ⟨new, hnew⟩ := hv (Bool.eq_false_iff.mpr hgiven)
      rw [hnew] at hfault
      cases hfault
  | some i =>
    obtain ⟨left, a, right, hsplit, -, ha, hleft⟩ := split_of_findIdx? hi
    have hfind : as'.find? (·.kind.isAttr name) = some a :=
      List.find?_eq_some_iff_append.mpr ⟨ha, left, right, hsplit, fun x hx => by rw [hleft x hx]; rfl⟩
    rw [hset.find?_other hname] at hfind
    refine ⟨a, hfind, ?_⟩
    rw [setAttribute_of_named hsplit ha hleft] at hfault
    cases hold : a.attributeValue with
    | error g =>
      rw [hold] at hfault
      cases hfault
      rfl
    | ok old =>
      rw [hold] at hfault
      replace hfault : (if Build.isAbsent v then _ else _) = Except.error f := hfault
      split at hfault
      · cases hfault
      · next hgiven =>
        obtain ⟨new, hnew⟩ := hv (Bool.eq_false_iff.mpr hgiven)
        rw [hnew] at hfault
        cases hfault

/-- Before anything is set the element is found and all values pass the check. -/
theorem unchanged_or_checked (tree : Node) (id : String) (values : Dict (Value Node)) :
    (updateAttributes tree id values).tree = tree ∨
      ∃ w, tree.findId id = .ok (some w) ∧ attributesProblem tree w.path values = .ok none := by
  unfold updateAttributes
  dsimp only
  split
  · exact .inl rfl
  · exact .inl rfl
  · next w hw =>
    split
    · exact .inl rfl
    · exact .inl rfl
    · next hchecked => exact .inr ⟨w, hw, hchecked⟩

/-- In a document that was read, several attributes are set at once, without success. Then the tree is as before, unless
an exception left the call at an old value: that of an attribute with a reference or a number that cannot be decoded,
which is not the first to be set. Those before it are set then, and nothing else has changed. -/
theorem attributes_set_in_part {text : String} {tree : Node} {id : String} {values : Dict (Value Node)}
    (hparse : Source.parse text = .ok tree) (hkeys : (values.map (·.1)).Nodup)
    (hfails : ¬(updateAttributes tree id values).Succeeds) :
    (updateAttributes tree id values).tree = tree ∨ ∃ w before name v after a, tree.findId id = .ok (some w) ∧
      values = before ++ (name, v) :: after ∧ before ≠ [] ∧ w.node.attr? name = some a ∧
      a.attributeValue = .error .badNumber ∧ (updateAttributes tree id values).result = .error .badNumber ∧
      (updateAttributes tree id before).Gives (updateAttributes tree id values).tree := by
  rcases unchanged_or_checked tree id values with hsame | ⟨w, hw, hchecked⟩
  · exact .inl hsame
  rcases setAttributes_cases w.node.attributes values with
    ⟨as, olds, hset⟩ | ⟨before, name, v, after, as, olds, f, rfl, hset, hfault⟩
  · obtain ⟨message, hdone, -⟩ := updateAttributes_of_setsAll hw hchecked hset hkeys
    exact absurd ⟨_, hdone, rfl⟩ hfails
  have hfound := findId_some hw
  have hget := (Source.keepsAttributes_parse hparse).get?_visit hfound.mem
  have hends : (updateAttributes tree id (before ++ (name, v) :: after)).result = .error f ∧
      (updateAttributes tree id (before ++ (name, v) :: after)).tree = tree.modify (·.withAttributes as) w.path := by
    rw [updateAttributes, hw]
    dsimp only
    rw [hchecked]
    dsimp only
    rw [setAttributes_of_fault hset hfault]
    exact ⟨rfl, rfl⟩
  have hall := attributesProblem_eq_ok.mp hchecked
  rw [List.map_append, List.nodup_append] at hkeys
  obtain ⟨hbefore, -, hdistinct⟩ := hkeys
  have hname : name ∉ before.map (·.1) := fun hmem => hdistinct name hmem name List.mem_cons_self rfl
  obtain ⟨a, hfind, hold⟩ := old_of_fault hset hname
    (given_of_valueProblem (hall (name, v) (List.mem_append_right _ List.mem_cons_self)).2) hfault
  have hflawless : w.node.Flawless := (Source.flawless_parse hparse).get hget
  obtain rfl := attributeValue_error (hflawless.attr (List.mem_of_find?_eq_some hfind)) hold
  by_cases hnil : before = []
  · subst hnil
    cases hset
    left
    rw [hends.2, modify_eq_set _ hget, withAttributes_attributes, set_self hget]
  · refine .inr ⟨w, before, name, v, after, a, hw, rfl, hnil, hfind, hold, hends.1, ?_⟩
    have hchecked' : attributesProblem tree w.path before = .ok none :=
      attributesProblem_eq_ok.mpr fun e he => hall e (List.mem_append_left _ he)
    obtain ⟨message, hdone, htree⟩ := updateAttributes_of_setsAll hw hchecked' hset hbefore
    exact ⟨⟨_, hdone, rfl⟩, by rw [htree, hends.2]⟩

/-- An element with a number that has a digit too large for its base. -/
def badDigit : String := "<a data-editable=\"x\" b=\"1\" c=\x7b0b2\x7d/>"

/-- A value for the number, and another one before it. -/
def digitValues : Dict (Value Node) := [("b", .str "2"), ("c", .str "3")]

theorem digits_set_in_part : ∃ tree w a, Source.parse badDigit = .ok tree ∧ tree.findId "x" = .ok (some w) ∧
    w.node.attr? "c" = some a ∧ a.attributeValue = .error .badNumber ∧
    (updateAttributes tree "x" digitValues).result = .error .badNumber ∧
    (updateAttributes tree "x" [("b", .str "2")]).Gives (updateAttributes tree "x" digitValues).tree ∧
    tree.write = "<a data-editable=\"x\" b=\"1\" c=\x7b0b2\x7d/>" ∧
    (updateAttributes tree "x" digitValues).tree.write = "<a data-editable=\"x\" b=\"2\" c=\x7b0b2\x7d/>" := by
  obtain ⟨tree, w, hparse, hw, hrun⟩ : ∃ tree w, Source.parse badDigit = .ok tree ∧ tree.findId "x" = .ok (some w) ∧
      decide (¬(updateAttributes tree "x" digitValues).Succeeds ∧
        tree.write = "<a data-editable=\"x\" b=\"1\" c=\x7b0b2\x7d/>" ∧
        (updateAttributes tree "x" digitValues).tree.write = "<a data-editable=\"x\" b=\"2\" c=\x7b0b2\x7d/>") =
        true := exists_found (by decide +kernel)
  obtain ⟨hfails, hbefore, hafter⟩ := of_decide_eq_true hrun
  rcases attributes_set_in_part hparse (by decide) hfails with
    hsame | ⟨w', before, name, v, after, a, hw', hsplit, hne, hattr, hold, hresult, hgives⟩
  · rw [hsame, hbefore] at hafter
    exact absurd hafter (by decide)
  obtain rfl : w' = w := Option.some.inj (Except.ok.inj (hw'.symm.trans hw))
  obtain ⟨rfl, rfl⟩ : before = [("b", .str "2")] ∧ name = "c" := by
    match before, hne, hsplit with
    | [e], _, hsplit => simp_all [digitValues]
    | e :: e' :: before, _, hsplit => simp [digitValues] at hsplit
  exact ⟨tree, w', a, hparse, hw, hattr, hold, hresult, hgives, hbefore, hafter⟩

end Edit
end JsxEdit
