import JsxEdit.Proofs.Attribute
import JsxEdit.Proofs.Removal

/-
Sound documents: those in which no two elements have the same identity, and no element has two attributes of the same
name.

Both properties are counts over the elements of the tree. A change that only takes out and moves keeps every count
down. New nodes have to pass the check for conflicts, which looks at all of the tree except what leaves it.
-/
set_option autoImplicit false

namespace JsxEdit.Node

/-- The identity of an element. Other nodes have none, nor has an element whose identity attribute cannot be read. -/
def identity? (n : Node) : Option String :=
  match n.elementIdentity with
  | .ok id => id
  | .error _ => none

/-- No two elements below the tree have the same identity. -/
def UniqueIdentities (tree : Node) : Prop := (tree.descendants.filterMap identity?).Nodup

/-- The names of the attributes of an element. -/
def attributeNames (n : Node) : List String :=
  n.attributes.filterMap fun a =>
    match a.kind with
    | .attr name _ => some name
    | _ => none

/-- A node that is no element with two attributes of the same name. -/
def RepeatFree (n : Node) : Prop := n.kind.isElement = true → n.attributeNames.Nodup

/-- No element has two attributes of the same name, neither the node itself nor one below it. -/
def AllRepeatFree (n : Node) : Prop := ∀ m ∈ n :: n.descendants, m.RepeatFree

/-- A document with unique identities, in which no element has two attributes of the same name. -/
structure Sound (tree : Node) : Prop where
  document : ∃ source, tree.kind = .document source
  identities : tree.UniqueIdentities
  attributes : ∀ n ∈ tree.descendants, n.RepeatFree

instance (tree : Node) : Decidable tree.UniqueIdentities :=
  inferInstanceAs (Decidable (tree.descendants.filterMap identity?).Nodup)

instance (n : Node) : Decidable n.RepeatFree := inferInstanceAs (Decidable (_ = true → n.attributeNames.Nodup))

instance (n : Node) : Decidable n.AllRepeatFree :=
  inferInstanceAs (Decidable (∀ m ∈ n :: n.descendants, m.RepeatFree))

/-! ## The properties as counts -/

/-- Counts the elements with an identity. -/
def carries (id : String) (es : List Entry) : Nat :=
  match es.lookup identityName with
  | some (.ok (some found)) => if found = id then 1 else 0
  | _ => 0

/-- Counts the elements with two attributes of the same name. -/
def repeats (es : List Entry) : Nat := if (es.map (·.1)).Nodup then 0 else 1

theorem firstText_eq (a : Node) : firstText a.children = a.value?.elim (.ok none) (·.kind.stringValue) := by
  rw [firstText, value?]
  cases a.children with
  | nil => rfl
  | cons c cs =>
    rw [List.head?_cons, Option.filter_some]
    cases hk : c.kind with
    | foreign d => cases d <;> simp [hk, Kind.isNothing, Kind.stringValue]
    | _ => simp [hk, Kind.isNothing]

theorem identity_eq (n : Node) :
    n.identity = ((entriesOf n.attributes).lookup identityName).getD (.ok none) := by
  rw [identity, attr?]
  induction n.attributes with
  | nil => rfl
  | cons a as ih =>
    rw [List.find?_cons, entries_cons]
    cases ha : a.kind.isAttr identityName with
    | true =>
      rw [entryOf?_of_isAttr ha, firstText_eq]
      dsimp only [Option.toList_some, List.singleton_append]
      rw [List.lookup_cons_self, Option.bind_some, Option.getD_some]
      cases a.value? <;> rfl
    | false =>
      dsimp only
      rw [ih]
      cases he : a.entryOf? with
      | none => rfl
      | some e =>
        have hne : (identityName == e.1) = false := by
          refine beq_eq_false_iff_ne.mpr ?_
          rintro hn
          have := isAttr_of_entryOf he
          rw [← hn, ha] at this
          cases this
        obtain ⟨name, t⟩ := e
        dsimp only [Option.toList_some, List.singleton_append]
        rw [List.lookup_cons, hne]

theorem own_carries (id : String) (n : Node) : own (carries id) n = if n.identity? = some id then 1 else 0 := by
  rw [own, identity?, elementIdentity, identity_eq]
  cases n.kind.isElement with
  | false => rfl
  | true =>
    rw [if_pos rfl, if_pos rfl, carries]
    cases (entriesOf n.attributes).lookup identityName with
    | none => rfl
    | some t =>
      cases t with
      | error f => rfl
      | ok found =>
        cases found with
        | none => rfl
        | some s =>
          rw [Option.getD_some]
          simp

/-- How often an identity occurs is a count over the elements. -/
theorem count_identities (id : String) (ns : List Node) :
    (ns.filterMap identity?).count id = tally (carries id) ns := by
  induction ns with
  | nil => rfl
  | cons n ns ih =>
    rw [List.filterMap_cons, tally, ← ih, own_carries]
    cases hn : n.identity? with
    | none => simp
    | some s =>
      dsimp only
      rw [List.count_cons]
      by_cases hs : s = id
      · subst hs
        simp [Nat.add_comm]
      · simp [hs]

theorem carries_le_one (id : String) (es : List Entry) : carries id es ≤ 1 := by
  rw [carries]
  split
  · split <;> decide
  · decide

theorem mem_of_carries {id : String} {es : List Entry} (h : carries id es ≠ 0) : identityEntry id ∈ es := by
  rw [carries] at h
  split at h
  · next found hl =>
    split at h
    · next hid =>
      subst hid
      obtain ⟨left, right, rfl, -⟩ := List.lookup_eq_some_iff.mp hl
      simp [identityEntry]
    · exact absurd rfl h
  · exact absurd rfl h

theorem carries_of_mem {id : String} {es : List Entry} (hn : (es.map (·.1)).Nodup) (h : identityEntry id ∈ es) :
    carries id es = 1 := by
  have hl : es.lookup identityName = some (.ok (some id)) := by
    obtain ⟨left, right, rfl⟩ := List.append_of_mem h
    refine List.lookup_eq_some_iff.mpr ⟨left, right, rfl, fun e he => ?_⟩
    rw [List.map_append, List.map_cons, List.nodup_append] at hn
    have hne := hn.2.2 e.1 (List.mem_map_of_mem he) identityName List.mem_cons_self
    exact bne_iff_ne.mpr (Ne.symm hne)
  rw [carries, hl]
  exact if_pos rfl

theorem attributeNames_eq (n : Node) : n.attributeNames = names n.attributes := by
  rw [attributeNames, names, entriesOf, List.map_filterMap]
  congr 1
  funext a
  rw [entryOf?]
  cases a.kind <;> rfl

theorem own_repeats {n : Node} : own repeats n = 0 ↔ n.RepeatFree := by
  rw [own, RepeatFree, attributeNames_eq]
  cases n.kind.isElement with
  | false => simp
  | true =>
    rw [if_pos rfl, repeats]
    simp [names]

theorem tally_eq_zero {ns : List Node} : tally repeats ns = 0 ↔ ∀ n ∈ ns, n.RepeatFree := by
  induction ns with
  | nil => simp [tally]
  | cons n ns ih => rw [tally, Nat.add_eq_zero_iff, ih, own_repeats, List.forall_mem_cons]

theorem total_repeats {n : Node} : total repeats [n] = 0 ↔ n.AllRepeatFree := by
  rw [total, tally_eq_zero, within_singleton, ← descendants_eq_under]
  rfl

/-- An identity that no element has counts nothing. -/
theorem tally_carries_zero {ns : List Node} {id : String} :
    tally (carries id) ns = 0 ↔ ∀ n ∈ ns, n.identity? ≠ some id := by
  rw [← count_identities, List.count_eq_zero]
  constructor
  · intro h n hn hid
    exact h (List.mem_filterMap.mpr ⟨n, hn, hid⟩)
  · intro h hm
    obtain ⟨n, hn, hid⟩ := List.mem_filterMap.mp hm
    exact h n hn hid

theorem total_carries_zero {ns : List Node} {id : String} :
    total (carries id) ns = 0 ↔ ∀ n ∈ within ns, n.identity? ≠ some id := tally_carries_zero

theorem not_element_of_document {n : Node} (h : ∃ source, n.kind = .document source) : n.kind.isElement = false := by
  obtain ⟨source, hk⟩ := h
  rw [hk]
  rfl

theorem not_markup_of_document {n : Node} (h : ∃ source, n.kind = .document source) : n.kind.isMarkup = false := by
  obtain ⟨source, hk⟩ := h
  rw [hk]
  rfl

/-- Both properties in terms of counts. -/
theorem sound_iff {tree : Node} :
    tree.Sound ↔ (∃ source, tree.kind = .document source) ∧ (∀ id, total (carries id) [tree] ≤ 1) ∧
      total repeats [tree] = 0 := by
  constructor
  · intro h
    have he := not_element_of_document h.document
    refine ⟨h.document, fun id => ?_, ?_⟩
    · rw [← total_under _ he, ← count_identities, ← descendants_eq_under]
      exact List.nodup_iff_count_le_one.mp h.identities id
    · rw [← total_under _ he, ← descendants_eq_under]
      exact tally_eq_zero.mpr h.attributes
  · rintro ⟨hd, hid, hrep⟩
    have he := not_element_of_document hd
    refine ⟨hd, List.nodup_iff_count_le_one.mpr fun id => ?_, ?_⟩
    · rw [count_identities, descendants_eq_under, total_under _ he]
      exact hid id
    · rw [← total_under _ he, ← descendants_eq_under] at hrep
      exact tally_eq_zero.mp hrep

end JsxEdit.Node

namespace JsxEdit.Edit
open Node

/-! ## What the check for conflicts promises -/

theorem clashes_nil {seen ids : List String} (h : clashes seen ids = []) :
    ids.Nodup ∧ ∀ id ∈ ids, id ∉ seen := by
  induction ids generalizing seen with
  | nil => simp
  | cons id ids ih =>
    rw [clashes] at h
    split at h
    · cases h
    · next hc =>
      obtain ⟨hn, hnot⟩ := ih h
      have hid : id ∉ seen := by simpa using hc
      refine ⟨List.nodup_cons.mpr ⟨fun hm => ?_, hn⟩, ?_⟩
      · exact hnot id hm List.mem_cons_self
      · rintro x hx
        rcases List.mem_cons.mp hx with rfl | hx
        · exact hid
        · exact fun hs => hnot x hx (List.mem_cons_of_mem _ hs)

theorem collect_eq {α : Type} {p : Visit → Except Fault (Option α)} {vs : List Visit} {out : List α}
    (h : collect p vs = .ok out) : (∀ v ∈ vs, ∃ r, p v = .ok r) ∧
      out = vs.filterMap fun v => (p v).toOption.join := by
  induction vs generalizing out with
  | nil =>
    cases h
    simp
  | cons v vs ih =>
    rw [collect] at h
    cases hf : v.node.isForeign with
    | true =>
      rw [hf] at h
      cases h
    | false =>
      cases hv : p v with
      | error f =>
        rw [hf, hv] at h
        cases h
      | ok r =>
        cases hrest : collect p vs with
        | error f =>
          rw [hf, hv, hrest] at h
          cases h
        | ok rest =>
          rw [hf, hv, hrest] at h
          cases h
          obtain ⟨hall, rfl⟩ := ih hrest
          refine ⟨?_, ?_⟩
          · rintro w hw
            rcases List.mem_cons.mp hw with rfl | hw
            · exact ⟨r, hv⟩
            · exact hall w hw
          · rw [List.filterMap_cons, hv]
            cases r <;> rfl

theorem identity?_eq (n : Node) : n.identity? = n.elementIdentity.toOption.join := by
  rw [identity?]
  cases n.elementIdentity <;> rfl

theorem identitiesOf_eq {n : Node} {ids : List String} (h : identitiesOf n = .ok ids) :
    ids = (within [n]).filterMap identity? := by
  rw [identitiesOf] at h
  cases hf : n.isForeign with
  | true =>
    rw [hf] at h
    cases h
  | false =>
    cases hn : n.elementIdentity with
    | error f =>
      rw [hf, hn] at h
      cases h
    | ok own =>
      cases hc : collect (fun v => v.node.elementIdentity) n.visits with
      | error f =>
        rw [hf, hn, hc] at h
        cases h
      | ok rest =>
        rw [hf, hn, hc] at h
        cases h
        obtain ⟨-, rfl⟩ := collect_eq hc
        have hunder : (n.visits.filterMap fun v => v.node.elementIdentity.toOption.join) =
            n.under.filterMap identity? := by
          rw [← descendants_eq_under, descendants, List.filterMap_map]
          congr 1
          funext v
          exact (identity?_eq v.node).symm
        rw [hunder, within_singleton, List.filterMap_cons, identity?_eq, hn]
        cases own <;> rfl

theorem identitiesOfAll_eq {ns : List Node} {ids : List String} (h : identitiesOfAll ns = .ok ids) :
    ids = (within ns).filterMap identity? := by
  induction ns generalizing ids with
  | nil =>
    cases h
    rfl
  | cons n ns ih =>
    rw [identitiesOfAll] at h
    cases hn : identitiesOf n with
    | error f =>
      rw [hn] at h
      cases h
    | ok first =>
      cases hr : identitiesOfAll ns with
      | error f =>
        rw [hn, hr] at h
        cases h
      | ok rest =>
        rw [hn, hr] at h
        cases h
        rw [← List.singleton_append, within_append, List.filterMap_append, ← identitiesOf_eq hn, ← ih hr]

theorem outside_mem {tree : Node} {places : List Path} {seen : List String}
    (h : identitiesOutside tree places = .ok seen) {v : Visit} (hv : v ∈ tree.visits) {id : String}
    (hid : v.node.identity? = some id) (hout : isWithin places v.path = false) : id ∈ seen := by
  obtain ⟨hall, rfl⟩ := collect_eq h
  refine List.mem_filterMap.mpr ⟨v, hv, ?_⟩
  rw [identity?_eq] at hid
  cases hn : v.node.elementIdentity with
  | error f =>
    rw [hn] at hid
    cases hid
  | ok r =>
    rw [hn] at hid
    obtain rfl : r = some id := hid
    dsimp only [bind, Except.bind]
    rw [hout]
    rfl

/-- New nodes without conflicts have each identity once at most, and every element of the tree that has one of them is
among those that leave the tree. -/
theorem identityConflicts_nil {tree : Node} {nodes : List Node} {places : List Path}
    (h : identityConflicts tree nodes places = .ok []) (id : String) :
    total (carries id) nodes ≤ 1 ∧
      (total (carries id) nodes ≠ 0 →
        ∀ v ∈ tree.visits, v.node.identity? = some id → isWithin places v.path = true) := by
  rw [identityConflicts] at h
  cases hf : foreignAt tree places with
  | true =>
    rw [hf] at h
    cases h
  | false =>
    cases hs : identitiesOutside tree places with
    | error f =>
      rw [hf, hs] at h
      cases h
    | ok seen =>
      cases hn : identitiesOfAll nodes with
      | error f =>
        rw [hf, hs, hn] at h
        cases h
      | ok new =>
        rw [hf, hs, hn] at h
        have hsorted : ((clashes seen new).eraseDups.mergeSort fun a b => !(b < a)) = [] := Except.ok.inj h
        have hnil : clashes seen new = [] := by
          have hdups : (clashes seen new).eraseDups = [] :=
            List.perm_nil.mp (hsorted ▸ (List.mergeSort_perm _ _).symm)
          cases hc : clashes seen new with
          | nil => rfl
          | cons x xs =>
            rw [hc, List.eraseDups_cons] at hdups
            cases hdups
        obtain ⟨hnodup, hnot⟩ := clashes_nil hnil
        obtain rfl := identitiesOfAll_eq hn
        have hcount : total (carries id) nodes = ((within nodes).filterMap identity?).count id :=
          (count_identities id _).symm
        refine ⟨by rw [hcount]; exact List.nodup_iff_count_le_one.mp hnodup id, fun hne v hv hid => ?_⟩
        have hmem : id ∈ (within nodes).filterMap identity? := by
          rw [hcount] at hne
          exact List.count_pos_iff.mp (Nat.pos_of_ne_zero hne)
        cases hw : isWithin places v.path with
        | true => rfl
        | false => exact absurd (outside_mem hs hv hid hw) (hnot id hmem)

/-! ## How a sound tree stays sound -/

/-- The specification of a request leads to no node in which an element has two attributes of the same name. -/
def Request.IsRepeatFree (r : Request) : Prop :=
  ∀ n log, Template.resolve r.registry r.spec r.options = .ok (n, log) → n.AllRepeatFree

/-- An identity that no element has, or only the one at the place. -/
def IsFree (tree : Node) (place : Path) (id : String) : Prop :=
  tree.findId id = .ok none ∨ ∃ w, tree.findId id = .ok (some w) ∧ w.path = place

section

variable {tree : Node} (h : tree.Sound)
include h

theorem sound_root : tree.kind.isMarkup = false := not_markup_of_document h.document

/-- New nodes have to be free of repetitions, and must not have an identity that is in the tree. -/
theorem sound_grows {tree' : Node} {new : List Node} (hg : Grows tree tree' new)
    (hnew : ∀ id, total (carries id) new ≤ 1 ∧ (total (carries id) new ≠ 0 → total (carries id) [tree] = 0))
    (hrep : total repeats new = 0) : tree'.Sound := by
  obtain ⟨hd, hid, hr⟩ := sound_iff.mp h
  refine sound_iff.mpr ⟨by rw [hg.kind]; exact hd, fun id => ?_, ?_⟩
  · have := hg.count (carries id)
    have := hid id
    obtain ⟨hle, hzero⟩ := hnew id
    by_cases hne : total (carries id) new = 0
    · omega
    · have := hzero hne
      omega
  · have := hg.count repeats
    omega

theorem sound_shrinks {tree' : Node} (hg : Grows tree tree' []) : tree'.Sound :=
  sound_grows h hg (fun _ => ⟨Nat.zero_le _, fun hne => absurd rfl hne⟩) rfl

/-- An identity that is free, with nothing leaving the tree, counts nothing in it. -/
theorem total_of_no_conflict {nodes : List Node} (hc : identityConflicts tree nodes [] = .ok []) (id : String)
    (hne : total (carries id) nodes ≠ 0) : total (carries id) [tree] = 0 := by
  rw [total_carries_zero, within_singleton]
  rintro n hn hid
  rcases List.mem_cons.mp hn with rfl | hn
  · rw [identity?_eq, elementIdentity, not_element_of_document h.document] at hid
    cases hid
  · rw [← descendants_eq_under] at hn
    obtain ⟨v, hv, rfl⟩ := List.mem_map.mp hn
    have := (identityConflicts_nil hc id).2 hne v hv hid
    cases this

omit h in
theorem total_fresh (g : List Entry → Nat) (n : Node) : total g [fresh tree n] ≤ total g [n] := by
  rw [fresh]
  split
  · exact total_copy g n
  · exact Nat.le_refl _

omit h in
theorem total_marked (g : List Entry → Nat) (mark : Option Nat) (n : Node) :
    total g [marked mark n] = total g [n] := by
  rw [marked]
  split
  · rfl
  · exact total_withMark g mark n

/-- A tree with the new node of a request in it is sound. -/
theorem sound_newNode {r : Request} {n : Node} {log : List Record} {tree' : Node} (hr : r.IsRepeatFree)
    (hn : newNode tree r = .ok (n, log)) (hg : Grows tree tree' [n]) : tree'.Sound := by
  unfold newNode at hn
  split at hn
  · cases hn
  · cases hn
  · next node log' hres =>
    split at hn
    · cases hn
    · next hc =>
      rw [Except.ok.injEq, Prod.mk.injEq] at hn
      obtain ⟨rfl, -⟩ := hn
      have hle : ∀ g, total g [marked r.mark (fresh tree node)] ≤ total g [node] := by
        intro g
        rw [total_marked]
        exact total_fresh g node
      refine sound_grows h hg (fun id => ⟨?_, fun hne => ?_⟩) ?_
      · exact Nat.le_trans (hle _) (identityConflicts_nil hc id).1
      · have := hle (carries id)
        exact total_of_no_conflict h hc id (by omega)
      · have := hle repeats
        have := total_repeats.mpr (hr node log' hres)
        omega
    · cases hn

theorem names_nodup {id : String} {v : Visit} (hv : Found tree id v) : (names v.node.attributes).Nodup := by
  have hm : v.node ∈ tree.descendants := List.mem_map_of_mem hv.mem
  rw [← attributeNames_eq]
  exact h.attributes v.node hm hv.element

omit h in
theorem own_of_found {id : String} {v : Visit} (hv : Found tree id v) : own (carries id) v.node = 1 := by
  rw [own_carries, identity?_eq, elementIdentity, hv.element, if_pos rfl, hv.identity]
  exact if_pos rfl

omit h in
theorem total_of_findId_none {id : String} (hroot : tree.kind.isElement = false) (hf : tree.findId id = .ok none) :
    total (carries id) [tree] = 0 := by
  rw [total_carries_zero, within_singleton]
  rintro n hn hid
  rw [identity?] at hid
  rcases List.mem_cons.mp hn with rfl | hn
  · rw [elementIdentity, hroot] at hid
    cases hid
  · split at hid
    · next found he =>
      subst hid
      exact findId_none hf n hn he
    · cases hid

/-- What the attributes of an element may become. -/
theorem sound_attributes {id : String} {v : Visit} {f : Node → List Node} (hv : Found tree id v)
    (hall : Allowed (IsFree tree v.path) v.node.attributes (f v.node)) :
    (tree.modify (fun n => n.withAttributes (f n)) v.path).Sound := by
  cases hm : tree.get? v.path with
  | none =>
    rw [modify_of_get?_none _ hm]
    exact h
  | some m =>
    obtain rfl := hv.eq_node hm
    obtain ⟨hd, hid, hr⟩ := sound_iff.mp h
    have hnames := names_nodup h hv
    have hk : (v.node.withAttributes (f v.node)).kind.isMarkup = true := by
      rw [kind_withAttributes]
      exact hv.markup
    have hown : ∀ g, own g (v.node.withAttributes (f v.node)) = g (entriesOf (f v.node)) := by
      intro g
      rw [own, kind_withAttributes, hv.element, attributes_withAttributes]
      rfl
    have hcount : ∀ g, total g [tree.modify (fun n => n.withAttributes (f n)) v.path] + own g v.node ≤
        total g [tree] + g (entriesOf (f v.node)) := by
      intro g
      have hmod := total_modify g (f := fun n => n.withAttributes (f n)) hv.markup hk hm
      have hle := hall.count g
      rw [total_singleton g (v.node.withAttributes (f v.node)), total_singleton g v.node, hown g,
        attributes_withAttributes, children_withAttributes] at hmod
      omega
    refine sound_iff.mpr ⟨?_, fun s => ?_, ?_⟩
    · rw [kind_modify _ (by simp [Visit.path])]
      exact hd
    · have hc := hcount (carries s)
      have hone := carries_le_one s (entriesOf (f v.node))
      have htree := hid s
      by_cases hne : carries s (entriesOf (f v.node)) = 0
      · omega
      · rcases hall.identity s (mem_of_carries hne) with hold | hfree | ⟨w, hw, hpath⟩
        · -- the identity is the one the element had
          have : own (carries s) v.node = 1 := by
            rw [own, hv.element, if_pos rfl]
            exact carries_of_mem hnames hold
          omega
        · have := total_of_findId_none (not_element_of_document hd) hfree
          omega
        · -- only the element itself has the identity
          have hw := findId_some hw
          have hsame : v.node = w.node := hw.eq_node (by rw [hpath]; exact hm)
          have := own_of_found hw
          rw [← hsame] at this
          omega
    · have hc := hcount repeats
      have : repeats (entriesOf (f v.node)) = 0 := if_pos hall.names
      omega

omit h in
/-- Where nothing conflicts except below an element, all that has one of the new identities is below it. -/
theorem total_replaced {v : Visit} {nodes : List Node} {id s : String} (hv : Found tree s v)
    (hroot : tree.kind.isElement = false) (hm : tree.get? v.path = some v.node)
    (hle : total (carries id) [tree] ≤ 1) (hc : identityConflicts tree nodes (childPlaces v) = .ok [])
    (hne : total (carries id) nodes ≠ 0) : total (carries id) [tree] ≤ total (carries id) v.node.children := by
  by_cases hz : total (carries id) [tree] = 0
  · omega
  · have hpos : ¬total (carries id) v.node.children = 0 := by
      intro hzero
      rw [total_carries_zero] at hzero
      apply hz
      rw [total_carries_zero, within_singleton]
      rintro n hn hid
      rcases List.mem_cons.mp hn with rfl | hn
      · rw [identity?_eq, elementIdentity, hroot] at hid
        cases hid
      · rw [← descendants_eq_under] at hn
        obtain ⟨u, hu, rfl⟩ := List.mem_map.mp hn
        have hw := (identityConflicts_nil hc id).2 hne u hu hid
        obtain ⟨place, hplace, hpre⟩ := List.any_eq_true.mp hw
        obtain ⟨i, -, rfl⟩ := List.mem_map.mp hplace
        obtain ⟨r, hr⟩ := List.isPrefixOf_iff_prefix.mp hpre
        have hpath : u.path = [] ++ (v.path ++ .child i :: r) := by
          rw [← hr]
          simp
        exact hzero u.node (mem_within_of_visitsAt hm hu hpath) hid
    omega

theorem sound_replaced {id : String} {v : Visit} {nodes : List Node} (hv : Found tree id v)
    (hc : identityConflicts tree nodes (childPlaces v) = .ok []) (hrep : total repeats nodes = 0) :
    (tree.modify (fun n => if nodes.isEmpty then n.withChildren [] else n.opened.withChildren nodes) v.path).Sound := by
  cases hm : tree.get? v.path with
  | none =>
    rw [modify_of_get?_none _ hm]
    exact h
  | some m =>
    obtain rfl := hv.eq_node hm
    obtain ⟨hd, hid, hr⟩ := sound_iff.mp h
    have hk : (if nodes.isEmpty then v.node.withChildren []
        else v.node.opened.withChildren nodes).kind.isMarkup = true := by
      split
      · rw [kind_withChildren]
        exact hv.markup
      · rw [kind_withChildren, isMarkup_opened]
        exact hv.markup
    have hnew : ∀ g, total g [if nodes.isEmpty then v.node.withChildren [] else v.node.opened.withChildren nodes] +
        total g v.node.children = total g [v.node] + total g nodes := by
      intro g
      split
      · next he =>
        obtain rfl : nodes = [] := by simpa using he
        exact total_withChildren g [] v.node
      · have := total_withChildren g nodes v.node.opened
        rwa [total_opened, children_opened] at this
    have hcount : ∀ g, total g [tree.modify (fun n => if nodes.isEmpty then n.withChildren []
        else n.opened.withChildren nodes) v.path] + total g v.node.children = total g [tree] + total g nodes := by
      intro g
      have := total_modify g (f := fun n => if nodes.isEmpty then n.withChildren [] else n.opened.withChildren nodes)
        hv.markup hk hm
      have := hnew g
      omega
    refine sound_iff.mpr ⟨?_, fun s => ?_, ?_⟩
    · rw [kind_modify _ (by simp [Visit.path])]
      exact hd
    · have hs := hcount (carries s)
      have hone := (identityConflicts_nil hc s).1
      have htree := hid s
      by_cases hne : total (carries s) nodes = 0
      · omega
      · have := total_replaced hv (not_element_of_document hd) hm htree hc hne
        omega
    · have := hcount repeats
      omega

end

end JsxEdit.Edit
