import JsxEdit.Proofs.Restyle

/-
What a dictionary of styles makes of an object literal.

The changes are made one after the other, each at the first property with its name. As no name comes twice in the
dictionary, what becomes of all properties can be said in one walk over them: the first property of a name takes the entry
for it, later ones of that name stay as they are, and entries that no property has taken are added at the end.
-/
set_option autoImplicit false

namespace JsxEdit

namespace Dict

variable {α : Type}

theorem get?_cons_self (key : String) (value : α) (d : Dict α) : get? ((key, value) :: d) key = some value := by
  simp [get?]

theorem get?_cons_of_ne {key other : String} (h : other ≠ key) (value : α) (d : Dict α) :
    get? ((key, value) :: d) other = d.get? other := by
  simp [get?, Ne.symm h]

theorem mem_entry_of_get? {d : Dict α} {key : String} {value : α} (h : d.get? key = some value) : (key, value) ∈ d := by
  obtain ⟨e, he, rfl⟩ := Option.map_eq_some_iff.mp h
  rw [← beq_iff_eq.mp (List.find?_some (p := fun e : String × α => e.1 == key) he)]
  exact List.mem_of_find?_eq_some he

theorem get?_of_not_mem {d : Dict α} {key : String} (h : key ∉ d.map (·.1)) : d.get? key = none := by
  rw [get?, Option.map_eq_none_iff, List.find?_eq_none]
  rintro e he heq
  exact h (beq_iff_eq.mp heq ▸ List.mem_map_of_mem he)

theorem get?_of_mem {d : Dict α} (hd : (d.map (·.1)).Nodup) {e : String × α} (he : e ∈ d) : d.get? e.1 = some e.2 := by
  induction d with
  | nil => cases he
  | cons f d ih =>
    rw [List.map_cons, List.nodup_cons] at hd
    rcases List.mem_cons.mp he with rfl | hmem
    · exact get?_cons_self e.1 e.2 d
    · have hne : e.1 ≠ f.1 := fun heq => hd.1 (heq ▸ List.mem_map_of_mem hmem)
      exact (get?_cons_of_ne hne f.2 d).trans (ih hd.2 hmem)

/-- Entries of other keys do not matter to a key. -/
theorem get?_filter {d : Dict α} {key : String} {keep : String × α → Bool} (h : ∀ e ∈ d, e.1 = key → keep e = true) :
    get? (d.filter keep) key = d.get? key := by
  induction d with
  | nil => rfl
  | cons e d ih =>
    obtain ⟨hkeep, hrest⟩ := List.forall_mem_cons.mp h
    by_cases hkey : e.1 = key
    · subst hkey
      rw [List.filter_cons_of_pos (hkeep rfl)]
      exact (get?_cons_self e.1 e.2 _).trans (get?_cons_self e.1 e.2 d).symm
    · rw [show get? (e :: d) key = get? d key from get?_cons_of_ne (Ne.symm hkey) e.2 d, List.filter_cons]
      split
      · exact (get?_cons_of_ne (Ne.symm hkey) e.2 _).trans (ih hrest)
      · exact ih hrest

end Dict

namespace Node

@[simp] theorem restated_restated (n : Node) (k k' : Kind) (cs cs' : List Node) :
    (((n.withKind k).withChildren cs).withKind k').withChildren cs' = (n.withKind k').withChildren cs' := by
  cases n; rfl

end Node

namespace Edit
open Node

/-! ## The changes -/

theorem styleValue_of_isStyle {v : Value Node} (h : IsStyle v) (hgiven : isRemoval v = false) :
    ∃ e, Build.styleValue v = .ok e := by
  cases v with
  | str s => exact ⟨_, rfl⟩
  | int n =>
    obtain ⟨text, htext⟩ := h
    exact ⟨.new (.number text) [], by rw [Build.styleValue, Build.number, htext]; rfl⟩
  | null => cases hgiven
  | bool | float | list | dict | node => exact h.elim

theorem exists_styleChanges {d : Dict (Value Node)} (h : ∀ e ∈ d, IsStyle e.2) :
    ∃ changes, styleChanges d = .ok changes := by
  induction d with
  | nil => exact ⟨[], rfl⟩
  | cons e d ih =>
    obtain ⟨hstyle, hstyles⟩ := List.forall_mem_cons.mp h
    obtain ⟨changes, hchanges⟩ := ih hstyles
    cases hremoval : isRemoval e.2 with
    | true => exact ⟨.remove e.1 :: changes, by rw [styleChanges, hremoval, if_pos rfl, hchanges]; rfl⟩
    | false =>
      obtain ⟨value, hvalue⟩ := styleValue_of_isStyle hstyle hremoval
      refine ⟨.assign e.1 value :: changes, ?_⟩
      rw [styleChanges, hremoval, if_neg Bool.false_ne_true, hvalue, hchanges]
      rfl

/-! ## One property -/

/-- What becomes of a property: it stays, goes, or gets the value that the dictionary has for its name. -/
def restyled (d : Dict (Value Node)) (p : Node) : Option Node :=
  match p.propertyName?.bind d.get? with
  | none => some p
  | some v => if isRemoval v then none else (Build.styleValue v).toOption.map fun e => p.withChildren [e]

section

variable {d : Dict (Value Node)} {name : String} {v : Value Node} {p : Node}

theorem restyled_of_none (hp : p.propertyName? = some name) (h : d.get? name = none) : restyled d p = some p := by
  rw [restyled, hp, Option.bind_some, h]

theorem restyled_of_removal (hp : p.propertyName? = some name) (h : d.get? name = some v) (hv : isRemoval v = true) :
    restyled d p = none := by
  rw [restyled, hp, Option.bind_some, h]
  exact if_pos hv

theorem restyled_of_given (hp : p.propertyName? = some name) (h : d.get? name = some v) (hv : isRemoval v = false) {e : Node}
    (he : Build.styleValue v = .ok e) : restyled d p = some (p.withChildren [e]) := by
  rw [restyled, hp, Option.bind_some, h]
  dsimp only
  rw [hv, he]
  rfl

theorem restyled_cons_of_ne (hp : p.propertyName? ≠ some name) : restyled ((name, v) :: d) p = restyled d p := by
  rw [restyled, restyled]
  cases hname : p.propertyName? with
  | none => rfl
  | some other =>
    have hne : other ≠ name := fun heq => hp (heq ▸ hname)
    rw [Option.bind_some, Option.bind_some, Dict.get?_cons_of_ne hne]

/-- A property has taken its entry once and for all. -/
theorem restyled_of_fresh (hp : p.propertyName? = some name) (h : name ∉ d.map (·.1)) : restyled d p = some p :=
  restyled_of_none hp (Dict.get?_of_not_mem h)

/-! ## All properties -/

/-- The entries that are left once a property has taken the one for its name. -/
def withoutName (p : Node) (d : Dict (Value Node)) : Dict (Value Node) := d.filter (some ·.1 != p.propertyName?)

theorem withoutName_of_fresh (hp : p.propertyName? = some name) (h : name ∉ d.map (·.1)) : withoutName p d = d := by
  refine List.filter_eq_self.mpr fun e he => ?_
  have hne : e.1 ≠ name := fun heq => h (heq ▸ List.mem_map_of_mem he)
  simpa [hp] using hne

theorem withoutName_cons_self (hp : p.propertyName? = some name) : withoutName p ((name, v) :: d) = withoutName p d :=
  List.filter_cons_of_neg (by simp [hp])

theorem withoutName_cons_of_ne (hp : p.propertyName? ≠ some name) :
    withoutName p ((name, v) :: d) = (name, v) :: withoutName p d :=
  List.filter_cons_of_pos (by simpa using Ne.symm hp)

theorem not_mem_withoutName (h : name ∉ d.map (·.1)) (p : Node) : name ∉ (withoutName p d).map (·.1) :=
  fun hmem => h ((List.filter_sublist.map _).subset hmem)

/-- The properties after each entry of a dictionary was taken by the first property with its name. -/
def restyleFirsts : Dict (Value Node) → List Node → List Node
  | _, [] => []
  | d, p :: ps => (restyled d p).toList ++ restyleFirsts (withoutName p d) ps

theorem propertyName?_of_named_nil {ps : List Node} (h : named name ps = []) : ∀ q ∈ ps, q.propertyName? ≠ some name := by
  intro q hq heq
  have hmem : q ∈ named name ps := List.mem_filter.mpr ⟨hq, by simp [heq]⟩
  rw [h] at hmem
  cases hmem

/-- An entry that no property has the name of does nothing to them. -/
theorem restyleFirsts_cons_of_missing {ps : List Node} (h : named name ps = []) :
    restyleFirsts ((name, v) :: d) ps = restyleFirsts d ps := by
  replace h := propertyName?_of_named_nil h
  induction ps generalizing d with
  | nil => rfl
  | cons p ps ih =>
    obtain ⟨hp, hps⟩ := List.forall_mem_cons.mp h
    rw [restyleFirsts, restyleFirsts, restyled_cons_of_ne hp, withoutName_cons_of_ne hp, ih hps]

/-- An entry is taken by the first property with its name. -/
theorem restyleFirsts_cons_of_held {before after : List Node} (hbefore : named name before = [])
    (hp : p.propertyName? = some name) (hfresh : name ∉ d.map (·.1)) {taken : Option Node}
    (htaken : restyled ((name, v) :: d) p = taken) (hname : ∀ q ∈ taken, q.propertyName? = some name) :
    restyleFirsts ((name, v) :: d) (before ++ p :: after) = restyleFirsts d (before ++ (taken.toList ++ after)) := by
  replace hbefore := propertyName?_of_named_nil hbefore
  induction before generalizing d with
  | nil =>
    rw [List.nil_append, List.nil_append, restyleFirsts, htaken, withoutName_cons_self hp, withoutName_of_fresh hp hfresh]
    cases taken with
    | none => rfl
    | some q =>
      have hq := hname q rfl
      rw [Option.toList_some, List.singleton_append, List.singleton_append, restyleFirsts, restyled_of_fresh hq hfresh,
        withoutName_of_fresh hq hfresh]
      rfl
  | cons b before ih =>
    obtain ⟨hb, hrest⟩ := List.forall_mem_cons.mp hbefore
    have htaken' : restyled ((name, v) :: withoutName b d) p = taken := by
      rw [← htaken, restyled, restyled, hp, Option.bind_some, Option.bind_some, Dict.get?_cons_self, Dict.get?_cons_self]
    rw [List.cons_append, List.cons_append, restyleFirsts, restyleFirsts, restyled_cons_of_ne hb,
      withoutName_cons_of_ne hb, ih (not_mem_withoutName hfresh b) htaken' hrest]

/-- A property stays as it is if there is no entry with its name. -/
theorem restyleFirsts_concat (hp : p.propertyName? = some name) (hfresh : name ∉ d.map (·.1)) (ps : List Node) :
    restyleFirsts d (ps ++ [p]) = restyleFirsts d ps ++ [p] := by
  induction ps generalizing d with
  | nil =>
    show (restyled d p).toList ++ [] = [p]
    rw [restyled_of_fresh hp hfresh]
    rfl
  | cons q ps ih =>
    rw [List.cons_append, restyleFirsts, restyleFirsts, ih (not_mem_withoutName hfresh q), List.append_assoc]

/-- With distinct names every property is the first with its name. -/
theorem restyleFirsts_eq_filterMap {ps : List Node} (h : (ps.map (·.propertyName?)).Nodup) :
    restyleFirsts d ps = ps.filterMap (restyled d) := by
  induction ps generalizing d with
  | nil => rfl
  | cons p ps ih =>
    rw [List.map_cons, List.nodup_cons] at h
    have hsame : ps.filterMap (restyled (withoutName p d)) = ps.filterMap (restyled d) := by
      refine List.filterMap_congr fun q hq => ?_
      have hne : q.propertyName? ≠ p.propertyName? := fun heq => h.1 (heq ▸ List.mem_map_of_mem hq)
      rw [restyled, restyled]
      cases hname : q.propertyName? with
      | none => rfl
      | some name =>
        rw [Option.bind_some, Option.bind_some, withoutName, Dict.get?_filter]
        rintro e - rfl
        simpa [hname] using hne
    rw [restyleFirsts, ih h.2, hsame, List.filterMap_cons]
    cases restyled d p <;> rfl

/-- The entries of a dictionary of styles to set that no property has the name of. -/
def unheld (ps : List Node) (d : Dict (Value Node)) : Dict (Value Node) :=
  d.filter fun e => !isRemoval e.2 && (named e.1 ps).isEmpty

theorem unheld_congr {ps qs : List Node} (h : ∀ e ∈ d, named e.1 ps = named e.1 qs) :
    unheld ps d = unheld qs d :=
  List.filter_congr fun e he => by rw [h e he]

/-- A change does not matter to the entries of other names. -/
theorem unheld_changeStyle {c : StyleChange} (h : Asks (name, v) c) (hfresh : name ∉ d.map (·.1)) (o : Node) :
    unheld (changeStyle o c).children d = unheld o.children d := by
  refine unheld_congr fun e he => (named_changeStyle o c).2 e.1 ?_
  rw [h.name]
  rintro rfl
  exact hfresh (List.mem_map_of_mem he)

/-- A new property for an entry. -/
def IsNew (e : String × Value Node) (p : Node) : Prop :=
  ∃ space value, Build.styleValue e.2 = .ok value ∧ p = Build.property e.1 space value

/-- What the change for an entry does to properties. -/
theorem children_of_asks {c : StyleChange} (h : Asks (name, v) c) (o : Node) :
    (∃ before p after, o.children = before ++ p :: after ∧ p.propertyName? = some name ∧ named name before = [] ∧
      ((isRemoval v = true ∧ (changeStyle o c).children = before ++ after) ∨
        ∃ value, isRemoval v = false ∧ Build.styleValue v = .ok value ∧
          (changeStyle o c).children = before ++ p.withChildren [value] :: after)) ∨
    named name o.children = [] ∧ ((isRemoval v = true ∧ (changeStyle o c).children = o.children) ∨
      ∃ space value, isRemoval v = false ∧ Build.styleValue v = .ok value ∧
        (changeStyle o c).children = o.children ++ [Build.property name space value]) := by
  rcases children_changeStyle o c with ⟨before, p, after, hps, hp, hbefore, hc⟩ | ⟨hnone, hc⟩
  · left
    rw [h.name] at hp hbefore
    refine ⟨before, p, after, hps, hp, hbefore, ?_⟩
    cases h with
    | remove removal =>
      rcases hc with ⟨_, -, hchildren⟩ | ⟨_, _, hassign, -⟩
      · exact .inl ⟨removal, hchildren⟩
      · cases hassign
    | assign given value =>
      rcases hc with ⟨_, hremove, -⟩ | ⟨_, _, hassign, hchildren⟩
      · cases hremove
      · cases hassign
        exact .inr ⟨_, given, value, hchildren⟩
  · right
    rw [h.name] at hnone
    refine ⟨hnone, ?_⟩
    cases h with
    | remove removal =>
      rcases hc with ⟨_, -, hchildren⟩ | ⟨_, _, hassign, -⟩
      · exact .inl ⟨removal, hchildren⟩
      · cases hassign
    | assign given value =>
      rcases hc with ⟨_, hremove, -⟩ | ⟨_, _, hassign, hchildren⟩
      · cases hremove
      · cases hassign
        exact .inr ⟨_, _, given, value, hchildren⟩

/-- The properties after the changes for a dictionary: the first of each name takes its entry, and new ones follow. -/
theorem children_changes {changes : List StyleChange} (h : List.Forall₂ Asks d changes) (hd : (d.map (·.1)).Nodup)
    (o : Node) : ∃ news, (changes.foldl changeStyle o).children = restyleFirsts d o.children ++ news ∧
      List.Forall₂ IsNew (unheld o.children d) news := by
  induction h generalizing o with
  | nil =>
    have hstay : ∀ ps, restyleFirsts [] ps = ps := by
      intro ps
      induction ps with
      | nil => rfl
      | cons p ps ih =>
        have hrestyled : restyled [] p = some p := by
          rw [restyled]
          cases p.propertyName? <;> rfl
        rw [restyleFirsts, hrestyled, show withoutName p [] = [] from rfl, ih]
        rfl
    exact ⟨[], by rw [hstay, List.append_nil]; rfl, .nil⟩
  | @cons e c rest others hasks _ ih =>
    obtain ⟨name, v⟩ := e
    rw [List.map_cons, List.nodup_cons] at hd
    obtain ⟨news, hnews, hnew⟩ := ih hd.2 (changeStyle o c)
    rw [unheld_changeStyle hasks hd.1] at hnew
    rw [List.foldl_cons, hnews]
    rcases children_of_asks hasks o with ⟨before, p, after, hps, hp, hbefore, hc⟩ | ⟨hnone, hc⟩
    · -- The name is held: its first property goes or gets another value, and nothing is new.
      have hheld : unheld o.children ((name, v) :: rest) = unheld o.children rest := by
        refine List.filter_cons_of_neg ?_
        rw [hps, named_append, hbefore, named_cons_self hp]
        simp
      refine ⟨news, ?_, hheld ▸ hnew⟩
      rcases hc with ⟨removal, hchildren⟩ | ⟨value, given, hvalue, hchildren⟩
      · rw [hps, hchildren, restyleFirsts_cons_of_held hbefore hp hd.1
          (restyled_of_removal hp (Dict.get?_cons_self ..) removal) fun _ hq => nomatch hq]
        rfl
      · rw [hps, hchildren, restyleFirsts_cons_of_held hbefore hp hd.1
          (restyled_of_given hp (Dict.get?_cons_self ..) given hvalue) fun q hq => by
            rw [← Option.mem_some.mp hq, propertyName?_withChildren, hp]]
        rfl
    · -- The name is not held: a property for it is new, and stays as it is from then on.
      rw [restyleFirsts_cons_of_missing hnone]
      rcases hc with ⟨removal, hchildren⟩ | ⟨space, value, given, hvalue, hchildren⟩
      · refine ⟨news, by rw [hchildren], ?_⟩
        rwa [unheld, List.filter_cons_of_neg (by simp [removal])]
      · refine ⟨Build.property name space value :: news, ?_, ?_⟩
        · rw [hchildren, restyleFirsts_concat (propertyName?_property name space value) hd.1, List.append_assoc,
            List.singleton_append]
        · rw [unheld, List.filter_cons_of_pos (by simp [given, hnone])]
          exact .cons ⟨space, value, hvalue, rfl⟩ hnew

/-- Where no property is new, the object literal has the end that it had. -/
theorem kind_changes_of_held {changes : List StyleChange} (h : List.Forall₂ Asks d changes) (hd : (d.map (·.1)).Nodup)
    {o : Node} (hheld : unheld o.children d = []) : (changes.foldl changeStyle o).kind = o.kind := by
  induction h generalizing o with
  | nil => rfl
  | @cons e c rest others hasks _ ih =>
    obtain ⟨name, v⟩ := e
    rw [List.map_cons, List.nodup_cons] at hd
    rw [unheld, List.filter_eq_nil_iff, List.forall_mem_cons] at hheld
    obtain ⟨hfirst, hrest⟩ := hheld
    have hsame : (changeStyle o c).kind = o.kind := by
      cases hasks with
      | remove removal => rw [changeStyle, kind_withChildren]
      | assign given value =>
        cases hi : o.children.findIdx? (·.propertyName? == some name) with
        | some i =>
          rw [changeStyle]
          dsimp only
          rw [hi, kind_withChildren]
        | none =>
          rw [given, named_of_index_none hi] at hfirst
          exact absurd rfl hfirst
    rw [List.foldl_cons, ih hd.2 ?_, hsame]
    rw [unheld_changeStyle hasks hd.1]
    exact List.filter_eq_nil_iff.mpr hrest

end

/-- Changes leave an object literal one, with the same place in the source. -/
theorem kind_changes {o : Node} {trailing : String} (h : o.kind = .object trailing) (changes : List StyleChange) :
    ∃ trailing', changes.foldl changeStyle o =
      (o.withKind (.object trailing')).withChildren (changes.foldl changeStyle o).children := by
  have hone (o : Node) (trailing : String) (h : o.kind = .object trailing) (c : StyleChange) :
      ∃ trailing', changeStyle o c = (o.withKind (.object trailing')).withChildren (changeStyle o c).children := by
    have hsame (cs : List Node) : o.withChildren cs = (o.withKind (.object trailing)).withChildren cs := by
      rw [← h]
      cases o
      rfl
    cases c with
    | remove name => exact ⟨trailing, by simp only [changeStyle, children_withChildren]; exact hsame _⟩
    | assign name value =>
      rw [changeStyle]
      dsimp only
      split
      · exact ⟨trailing, by rw [children_withChildren]; exact hsame _⟩
      · split
        · split
          · exact ⟨" ", by cases o; rfl⟩
          · exact ⟨trailing, by rw [children_withChildren]; exact hsame _⟩
        · exact ⟨trailing, by rw [children_withChildren]; exact hsame _⟩
  induction changes generalizing o trailing with
  | nil => exact ⟨trailing, by rw [List.foldl_nil, ← h]; cases o; rfl⟩
  | cons c changes ih =>
    obtain ⟨t, ht⟩ := hone o trailing h c
    have hk : (changeStyle o c).kind = .object t := by rw [ht, kind_withChildren, kind_withKind]
    obtain ⟨t', ht'⟩ := ih hk
    refine ⟨t', ?_⟩
    rw [List.foldl_cons, ht', ht]
    simp

end Edit
end JsxEdit
