import JsxEdit.Proofs.Discipline
import JsxEdit.Proofs.Flaw

/-
Which element is found by its identity.

A search goes through the nodes in document order. It fails at a value that is no node, and at an identity that cannot
be worked out. Where there is neither it comes to an end, and if one element alone has the identity, that is found. The
check for conflicts looks at all nodes, so after it there is nothing a search can fail at.
-/
set_option autoImplicit false

namespace JsxEdit
namespace Node

/-! ## Nodes that do not stop a search -/

/-- A node, and no other value, whose identity can be worked out. -/
structure Legible (n : Node) : Prop where
  node : n.isForeign = false
  identity : ∃ id, n.elementIdentity = .ok id

theorem legible_iff {n : Node} : n.Legible ↔ n.isForeign = false ∧ n.elementIdentity.toOption.isSome = true := by
  constructor
  · rintro ⟨hnode, id, hid⟩
    exact ⟨hnode, by rw [hid]; rfl⟩
  · rintro ⟨hnode, hid⟩
    cases hfound : n.elementIdentity with
    | error f =>
      rw [hfound] at hid
      cases hid
    | ok id => exact ⟨hnode, id, hfound⟩

instance (n : Node) : Decidable n.Legible := decidable_of_iff' _ legible_iff

theorem elementIdentity_congr {a b : Node} (hk : a.kind.isElement = b.kind.isElement)
    (ha : entriesOf a.attributes = entriesOf b.attributes) : a.elementIdentity = b.elementIdentity := by
  rw [elementIdentity, elementIdentity, identity_eq, identity_eq, hk, ha]

theorem identity?_congr {a b : Node} (hk : a.kind.isElement = b.kind.isElement)
    (ha : entriesOf a.attributes = entriesOf b.attributes) : a.identity? = b.identity? := by
  rw [Edit.identity?_eq, Edit.identity?_eq, elementIdentity_congr hk ha]

theorem Legible.congr {a b : Node} (h : a.Legible) (hf : b.isForeign = a.isForeign)
    (hk : b.kind.isElement = a.kind.isElement) (ha : entriesOf b.attributes = entriesOf a.attributes) : b.Legible :=
  ⟨hf.trans h.node, by rw [elementIdentity_congr hk ha]; exact h.identity⟩

theorem isForeign_copied (b : Bool) (k : Kind) : (k.copied b).isForeign = k.isForeign := by cases k <;> rfl

theorem isForeign_reindentKind (s : String) (k : Kind) : (Indent.reindentKind s k).isForeign = k.isForeign := by
  unfold Indent.reindentKind
  split
  · split <;> rfl
  · rfl

mutual

theorem legible_copy : (n : Node) → (∀ m ∈ n :: n.under, m.Legible) → ∀ m ∈ n.copy :: n.copy.under, m.Legible
  | .mk k i as cs, h => by
    obtain ⟨hown, has, hcs⟩ := forall_tree.mp h
    rw [copy]
    refine forall_tree.mpr ⟨?_, legible_copyAll as has, ?_⟩
    · exact hown.congr (isForeign_copied _ k) (isElement_copied _ k) (entries_copyAll as)
    · rw [children_mk]
      split
      · exact fun _ hm => nomatch hm
      · exact legible_copyAll cs hcs

theorem legible_copyAll : (ns : List Node) → (∀ m ∈ within ns, m.Legible) → ∀ m ∈ within (copyAll ns), m.Legible
  | [], h => h
  | n :: ns, h => by
    rw [within_cons, List.forall_mem_append] at h
    rw [copyAll, within_cons, List.forall_mem_append]
    exact ⟨legible_copy n h.1, legible_copyAll ns h.2⟩

end

mutual

theorem legible_reindent (s : String) : (n : Node) → (∀ m ∈ n :: n.under, m.Legible) →
    ∀ m ∈ Indent.reindent s n :: (Indent.reindent s n).under, m.Legible
  | .mk k i as cs, h => by
    obtain ⟨hown, has, hcs⟩ := forall_tree.mp h
    rw [Indent.reindent]
    exact forall_tree.mpr ⟨hown.congr rfl rfl (entries_reindentAll s as), legible_reindentAll s as has,
      legible_reindentAll s cs hcs⟩

theorem legible_reindentAll (s : String) : (ns : List Node) → (∀ m ∈ within ns, m.Legible) →
    ∀ m ∈ within (Indent.reindentAll s ns), m.Legible
  | [], h => h
  | .mk k i as cs :: ns, h => by
    rw [within_cons, List.forall_mem_append] at h
    rw [Indent.reindentAll, within_cons, List.forall_mem_append]
    obtain ⟨hown, has, hcs⟩ := forall_tree.mp (legible_reindent s (.mk k i as cs) h.1)
    refine ⟨forall_tree.mpr ⟨?_, has, hcs⟩, legible_reindentAll s ns h.2⟩
    exact hown.congr (isForeign_reindentKind s k) (isElement_reindentKind s k) rfl

end

section

variable {f : Node → Node} {m : Node} (hm : m.kind.isMarkup = true) (hf : (f m).kind.isMarkup = true)
include hm hf

/-- A change of markup below an element leaves its entries. -/
theorem entries_attributes_modify {p : Path} {n : Node} (hp : p ≠ []) (h : n.get? p = some m) :
    entriesOf (n.modify f p).attributes = entriesOf n.attributes := by
  cases p with
  | nil => exact absurd rfl hp
  | cons step p =>
    cases step with
    | child i => rw [modify_child, attributes_withChildren]
    | attributes =>
      rw [get?_attributes] at h
      split at h
      · next helement =>
        rw [modify_attributes, if_pos helement, attributes_withAttributes]
        cases p with
        | nil =>
          cases h
          cases hm
        | cons step p =>
          cases step with
          | child i =>
            obtain ⟨a, ha, h⟩ := Option.bind_eq_some_iff.mp h
            exact entries_modify hm hf ha h
          | attributes => cases h
      · cases h

theorem identity?_modify {p : Path} {n : Node} (hp : p ≠ []) (h : n.get? p = some m) :
    (n.modify f p).identity? = n.identity? :=
  identity?_congr (by rw [kind_modify f hp]) (entries_attributes_modify hm hf hp h)

theorem legible_modify (hall : (∀ x ∈ m :: m.under, x.Legible) → ∀ x ∈ f m :: (f m).under, x.Legible) {p : Path}
    {n : Node} (hp : p ≠ []) (h : n.get? p = some m) (hn : ∀ x ∈ n.under, x.Legible) :
    ∀ x ∈ (n.modify f p).under, x.Legible := by
  induction p generalizing n with
  | nil => exact absurd rfl hp
  | cons step p ih =>
    rw [under_eq, List.forall_mem_append] at hn
    cases step with
    | child i =>
      obtain ⟨c, hc, h⟩ := Option.bind_eq_some_iff.mp h
      rw [modify_child, under_eq, attributes_withChildren, children_withChildren, List.forall_mem_append]
      refine ⟨hn.1, forall_within.mpr (Discipline.listModify (forall_within.mp hn.2) hc fun hown => ?_)⟩
      cases p with
      | nil =>
        cases h
        exact hall hown
      | cons step p =>
        obtain ⟨hc', hunder⟩ := List.forall_mem_cons.mp hown
        have hne := List.cons_ne_nil step p
        refine List.forall_mem_cons.mpr ⟨?_, ih hne h hunder⟩
        have hkind := kind_modify f hne c
        exact hc'.congr (by rw [isForeign, hkind]; rfl) (by rw [hkind]) (entries_attributes_modify hm hf hne h)
    | attributes =>
      rw [get?_attributes] at h
      split at h
      · next helement =>
        rw [modify_attributes, if_pos helement, under_eq, attributes_withAttributes, children_withAttributes,
          List.forall_mem_append]
        refine ⟨?_, hn.2⟩
        have hne : p ≠ [] := by
          rintro rfl
          cases h
          cases hm
        have hlist : ∀ x ∈ n.attributeList.under, x.Legible := by
          rw [under_eq]
          exact hn.1
        have hchanged := ih hne h hlist
        rw [under_eq, List.forall_mem_append] at hchanged
        exact hchanged.2
      · cases h

end

/-! ## Visits -/

/-- A walk through a list visits its nodes, and what is below them. -/
theorem mem_visitsIn_of_getElem? (path : Path) {c : Node} {ns : List Node} {i : Nat} (index : Nat)
    (h : ns[i]? = some c) : (⟨path, index + i, c⟩ : Visit) ∈ visitsIn path index ns ∧
      ∀ v ∈ c.visitsAt (path ++ [Step.child (index + i)]), v ∈ visitsIn path index ns := by
  induction ns generalizing index i with
  | nil => cases h
  | cons n ns ih =>
    simp only [visitsIn, List.mem_append, List.mem_cons]
    cases i with
    | zero =>
      cases h
      exact ⟨.inl (.inl rfl), fun v hv => .inl (.inr hv)⟩
    | succ i =>
      have := ih (index + 1) h
      rw [Nat.add_assoc, Nat.add_comm 1 i] at this
      exact ⟨.inr this.1, fun v hv => .inr (this.2 v hv)⟩

theorem mem_visitsAt_of_get? {p : Path} {n m c : Node} {i : Nat} (path : Path) (h : n.get? p = some m)
    (hc : m.children[i]? = some c) : (⟨path ++ p, i, c⟩ : Visit) ∈ n.visitsAt path := by
  induction p generalizing n path with
  | nil =>
    cases h
    have := (mem_visitsIn_of_getElem? path 0 hc).1
    rw [Nat.zero_add] at this
    exact mem_visitsAt.mpr (.inr (by rwa [List.append_nil]))
  | cons step p ih =>
    cases step with
    | child j =>
      obtain ⟨k, hk, h⟩ := Option.bind_eq_some_iff.mp h
      have hv := ih (path ++ [Step.child j]) h
      rw [List.append_assoc, List.singleton_append] at hv
      exact mem_visitsAt.mpr (.inr ((mem_visitsIn_of_getElem? path 0 hk).2 _ (by rwa [Nat.zero_add])))
    | attributes =>
      rw [get?_attributes] at h
      split at h
      · have hv := ih (path ++ [Step.attributes]) h
        rw [List.append_assoc, List.singleton_append] at hv
        rcases mem_visitsAt.mp hv with hv | hv
        · cases hv
        · exact mem_visitsAt.mpr (.inl hv)
      · cases h

/-- A child of the node at a place is visited there. -/
theorem mem_visits {tree m c : Node} {p : Path} {i : Nat} (h : tree.get? p = some m) (hc : m.children[i]? = some c) :
    (⟨p, i, c⟩ : Visit) ∈ tree.visits := mem_visitsAt_of_get? [] h hc

theorem node_mem_under {tree : Node} {v : Visit} (hv : v ∈ tree.visits) : v.node ∈ tree.under := by
  rw [← descendants_eq_under]
  exact List.mem_map_of_mem hv

theorem ne_nil_of_get? {p : Path} {n m : Node} (hn : n.kind.isMarkup = false) (hm : m.kind.isMarkup = true)
    (h : n.get? p = some m) : p ≠ [] := by
  rintro rfl
  cases h
  exact Bool.false_ne_true (hn.symm.trans hm)

/-- Markup at a place of a tree that is no markup itself is below it. -/
theorem mem_under_of_get? {p : Path} {n m : Node} (hn : n.kind.isMarkup = false) (h : n.get? p = some m)
    (hm : m.kind.isMarkup = true) : m ∈ n.under := by
  have hmem := mem_within_of_get? h hm
  rw [within_singleton] at hmem
  rcases List.mem_cons.mp hmem with rfl | hmem
  · exact absurd (hn.symm.trans hm) Bool.false_ne_true
  · exact hmem

/-- An identity that occurs once leads to one visit. -/
theorem visit_unique {tree : Node} {id : String} (hone : tally (carries id) tree.under ≤ 1) {v w : Visit}
    (hv : v ∈ tree.visits) (hw : w ∈ tree.visits) (hvid : v.node.identity? = some id)
    (hwid : w.node.identity? = some id) : v = w := by
  have hcount : (tree.visits.filter fun u => u.node.identity? == some id).length ≤ 1 := by
    rw [← count_identities, ← descendants_eq_under, descendants, List.filterMap_map, List.count_filterMap,
      List.countP_eq_length_filter] at hone
    exact hone
  have hmem : ∀ u ∈ tree.visits, u.node.identity? = some id →
      u ∈ tree.visits.filter fun u => u.node.identity? == some id := fun u hu huid =>
    List.mem_filter.mpr ⟨hu, by rw [huid, beq_self_eq_true]⟩
  have hv := hmem v hv hvid
  have hw := hmem w hw hwid
  generalize (tree.visits.filter fun u => u.node.identity? == some id) = found at *
  rcases found with - | ⟨u, - | ⟨u', found⟩⟩
  · cases hv
  · rw [List.mem_singleton.mp hv, List.mem_singleton.mp hw]
  · simp at hcount

/-! ## Searches -/

/-- A search that can look at every node comes to an end. -/
theorem firstVisit_total {p : Visit → Except Fault Bool} {vs : List Visit}
    (h : ∀ v ∈ vs, v.node.isForeign = false ∧ ∃ b, p v = .ok b) : ∃ r, firstVisit p vs = .ok r := by
  induction vs with
  | nil => exact ⟨none, rfl⟩
  | cons v vs ih =>
    obtain ⟨⟨hnode, b, hb⟩, hvs⟩ := List.forall_mem_cons.mp h
    obtain ⟨r, hr⟩ := ih hvs
    cases b with
    | true => exact ⟨some v, by rw [firstVisit, hb]; rfl⟩
    | false => exact ⟨r, by rw [firstVisit, hb, hnode]; exact hr⟩

theorem findId_total {tree : Node} (h : ∀ m ∈ tree.under, m.Legible) (id : String) : ∃ r, tree.findId id = .ok r := by
  refine firstVisit_total fun v hv => ?_
  obtain ⟨hnode, found, hfound⟩ := h v.node (node_mem_under hv)
  refine ⟨hnode, ?_⟩
  rw [elementIdentity] at hfound
  dsimp only
  split
  · next helement =>
    rw [if_pos helement] at hfound
    exact ⟨_, by rw [hfound]; rfl⟩
  · exact ⟨false, rfl⟩

end Node

namespace Edit
open Node

theorem Found.identity?_eq {tree : Node} {id : String} {v : Visit} (h : Found tree id v) :
    v.node.identity? = some id := by
  rw [Edit.identity?_eq, elementIdentity, if_pos h.element, h.identity]
  rfl

/-- The only element with the identity is found. -/
theorem findId_unique {tree : Node} (h : ∀ m ∈ tree.under, m.Legible) {id : String}
    (hone : tally (carries id) tree.under ≤ 1) {v : Visit} (hv : v ∈ tree.visits) (hid : v.node.identity? = some id) :
    tree.findId id = .ok (some v) := by
  obtain ⟨r, hr⟩ := findId_total h id
  rw [hr]
  cases r with
  | none =>
    obtain ⟨-, found, hfound⟩ := h v.node (node_mem_under hv)
    rw [Edit.identity?_eq, hfound] at hid
    have hfound' : found = some id := hid
    rw [hfound'] at hfound
    exact absurd hfound (findId_none hr v.node (node_mem_under hv))
  | some w =>
    have hw := findId_some hr
    rw [visit_unique hone hv hw.mem hid hw.identity?_eq]

/-- No element is found by an identity that none has. -/
theorem not_found_of_absent {tree : Node} {id : String} (h : ∀ m ∈ tree.under, m.identity? ≠ some id) (v : Visit) :
    tree.findId id ≠ .ok (some v) := by
  intro hv
  have hv := findId_some hv
  exact h v.node (node_mem_under hv.mem) hv.identity?_eq

theorem findId_absent {tree : Node} (h : ∀ m ∈ tree.under, m.Legible) {id : String}
    (habsent : ∀ m ∈ tree.under, m.identity? ≠ some id) : tree.findId id = .ok none := by
  obtain ⟨r, hr⟩ := findId_total h id
  cases r with
  | none => exact hr
  | some v => exact absurd hr (not_found_of_absent habsent v)

/-! ## What the check for conflicts looks at -/

theorem nodes_of_collect {α : Type} {p : Visit → Except Fault (Option α)} {vs : List Visit} {out : List α}
    (h : collect p vs = .ok out) : ∀ v ∈ vs, v.node.isForeign = false := by
  induction vs generalizing out with
  | nil => exact fun v hv => nomatch hv
  | cons v vs ih =>
    rw [collect] at h
    cases hnode : v.node.isForeign with
    | true =>
      rw [hnode] at h
      cases h
    | false =>
      rw [hnode] at h
      obtain ⟨here, -, h⟩ := bind_eq_ok h
      obtain ⟨rest, hrest, -⟩ := bind_eq_ok h
      exact List.forall_mem_cons.mpr ⟨hnode, ih hrest⟩

theorem legible_of_collect {α : Type} {p : Visit → Except Fault (Option α)} {n : Node} {out : List α}
    (h : collect p n.visits = .ok out) (hp : ∀ v r, p v = .ok r → ∃ id, v.node.elementIdentity = .ok id) :
    ∀ m ∈ n.under, m.Legible := by
  intro m hm
  rw [← descendants_eq_under] at hm
  obtain ⟨v, hv, rfl⟩ := List.mem_map.mp hm
  obtain ⟨r, hr⟩ := (collect_eq h).1 v hv
  exact ⟨nodes_of_collect h v hv, hp v r hr⟩

theorem legible_of_identitiesOutside {tree : Node} {places : List Path} {ids : List String}
    (h : identitiesOutside tree places = .ok ids) : ∀ m ∈ tree.under, m.Legible :=
  legible_of_collect h fun _ _ hr => (bind_eq_ok hr).imp fun _ hid => hid.1

theorem legible_of_identitiesOf {n : Node} {ids : List String} (h : identitiesOf n = .ok ids) :
    ∀ m ∈ n :: n.under, m.Legible := by
  rw [identitiesOf] at h
  split at h
  · cases h
  · next hnode =>
    obtain ⟨own, hown, h⟩ := bind_eq_ok h
    obtain ⟨rest, hrest, -⟩ := bind_eq_ok h
    rw [Bool.not_eq_true] at hnode
    exact List.forall_mem_cons.mpr ⟨⟨hnode, own, hown⟩, legible_of_collect hrest fun _ r hr => ⟨r, hr⟩⟩

/-- The check fails unless it can look at all nodes of the tree and at the new ones. -/
theorem legible_of_identityConflicts {tree n : Node} {places : List Path} {ids : List String}
    (h : identityConflicts tree [n] places = .ok ids) :
    (∀ m ∈ tree.under, m.Legible) ∧ ∀ m ∈ n :: n.under, m.Legible := by
  rw [identityConflicts] at h
  split at h
  · cases h
  · obtain ⟨seen, hseen, h⟩ := bind_eq_ok h
    obtain ⟨new, hnew, -⟩ := bind_eq_ok h
    rw [identitiesOfAll] at hnew
    obtain ⟨first, hfirst, -⟩ := bind_eq_ok hnew
    exact ⟨legible_of_identitiesOutside hseen, legible_of_identitiesOf hfirst⟩

end Edit
end JsxEdit
