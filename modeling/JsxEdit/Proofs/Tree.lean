import JsxEdit.Node.Walk

/-
Trees and the places in them.

`under` lists the nodes below a node by recursion on the tree alone. The visits of a walk are the same nodes, each
with a place that leads to it. Changing the node at a place changes nothing at places beside it.
-/
set_option autoImplicit false

namespace JsxEdit.Node

/-! ## Parts of a changed node -/

@[simp] theorem kind_withKind (k : Kind) (n : Node) : (n.withKind k).kind = k := by cases n; rfl
@[simp] theorem attributes_withKind (k : Kind) (n : Node) : (n.withKind k).attributes = n.attributes := by
  cases n; rfl
@[simp] theorem children_withKind (k : Kind) (n : Node) : (n.withKind k).children = n.children := by cases n; rfl
@[simp] theorem kind_withChildren (cs : List Node) (n : Node) : (n.withChildren cs).kind = n.kind := by cases n; rfl
@[simp] theorem attributes_withChildren (cs : List Node) (n : Node) :
    (n.withChildren cs).attributes = n.attributes := by cases n; rfl
@[simp] theorem children_withChildren (cs : List Node) (n : Node) : (n.withChildren cs).children = cs := by
  cases n; rfl
@[simp] theorem kind_withAttributes (as : List Node) (n : Node) : (n.withAttributes as).kind = n.kind := by
  cases n; rfl
@[simp] theorem attributes_withAttributes (as : List Node) (n : Node) :
    (n.withAttributes as).attributes = as := by cases n; rfl
@[simp] theorem children_withAttributes (as : List Node) (n : Node) :
    (n.withAttributes as).children = n.children := by cases n; rfl
@[simp] theorem kind_withMark (mark : Option Nat) (n : Node) : (n.withMark mark).kind = n.kind := by cases n; rfl
@[simp] theorem attributes_withMark (mark : Option Nat) (n : Node) :
    (n.withMark mark).attributes = n.attributes := by cases n; rfl
@[simp] theorem children_withMark (mark : Option Nat) (n : Node) :
    (n.withMark mark).children = n.children := by cases n; rfl
@[simp] theorem withChildren_children (n : Node) : n.withChildren n.children = n := by cases n; rfl
theorem withKind_kind (n : Node) : n.withKind n.kind = n := by cases n; rfl
@[simp] theorem withAttributes_attributes (n : Node) : n.withAttributes n.attributes = n := by cases n; rfl
@[simp] theorem kind_new (k : Kind) (cs : List Node) : (new k cs).kind = k := rfl
@[simp] theorem attributes_new (k : Kind) (cs : List Node) : (new k cs).attributes = [] := rfl
@[simp] theorem children_new (k : Kind) (cs : List Node) : (new k cs).children = cs := rfl
@[simp] theorem kind_attributeList (n : Node) : n.attributeList.kind = .attributes := rfl
@[simp] theorem children_attributeList (n : Node) : n.attributeList.children = n.attributes := rfl

/-! ## The nodes below a node -/

mutual

/-- The nodes below the node, in document order. -/
def under : Node → List Node
  | .mk _ _ as cs => within as ++ within cs

/-- The nodes of a list, each followed by those below it. -/
def within : List Node → List Node
  | [] => []
  | n :: ns => n :: under n ++ within ns

end

@[simp] theorem within_nil : within [] = [] := rfl

theorem under_eq (n : Node) : n.under = within n.attributes ++ within n.children := by
  cases n
  rfl

theorem within_cons (n : Node) (ns : List Node) : within (n :: ns) = n :: n.under ++ within ns := rfl

theorem within_singleton (n : Node) : within [n] = n :: n.under := by
  rw [within_cons, within_nil, List.append_nil]

theorem within_append (ns ms : List Node) : within (ns ++ ms) = within ns ++ within ms := by
  induction ns with
  | nil => rfl
  | cons n ns ih => rw [List.cons_append, within_cons, within_cons, ih, List.append_assoc]

theorem mem_within {m n : Node} {ns : List Node} (hn : n ∈ ns) (hm : m ∈ within [n]) : m ∈ within ns := by
  obtain ⟨before, after, rfl⟩ := List.append_of_mem hn
  rw [within_append, ← List.singleton_append, within_append]
  exact List.mem_append_right _ (List.mem_append_left _ hm)

mutual

/-- The walk visits the nodes below, whatever path it starts at. -/
theorem visitsAt_nodes (path : Path) : (n : Node) → (n.visitsAt path).map (·.node) = n.under
  | .mk _ _ as cs => by
    rw [visitsAt, under, List.map_append, visitsIn_nodes _ _ as, visitsIn_nodes _ _ cs]

theorem visitsIn_nodes (path : Path) (index : Nat) :
    (ns : List Node) → (visitsIn path index ns).map (·.node) = within ns
  | [] => rfl
  | n :: ns => by
    rw [visitsIn, within_cons, List.map_append, List.map_cons, visitsAt_nodes _ n, visitsIn_nodes _ _ ns]

end

theorem descendants_eq_under (n : Node) : n.descendants = n.under := visitsAt_nodes [] n

/-! ## Places -/

theorem get?_attributes (p : Path) (n : Node) :
    n.get? (.attributes :: p) = if n.kind.isElement then n.attributeList.get? p else none := rfl

theorem modify_attributes (f : Node → Node) (p : Path) (n : Node) :
    n.modify f (.attributes :: p) =
      if n.kind.isElement then n.withAttributes (n.attributeList.modify f p).children else n := rfl

theorem get?_append (p q : Path) (n : Node) : n.get? (p ++ q) = (n.get? p).bind (get? q) := by
  induction p generalizing n with
  | nil => rfl
  | cons step p ih =>
    cases step with
    | child i =>
      rw [List.cons_append, get?_child, get?_child]
      cases n.children[i]? with
      | none => rfl
      | some c => exact ih c
    | attributes =>
      rw [List.cons_append, get?_attributes, get?_attributes]
      split
      · exact ih _
      · rfl

/-- Markup at a place is the tree or below it. -/
theorem mem_within_of_get? {path : Path} {n x : Node} (h : n.get? path = some x) (hx : x.kind.isMarkup = true) :
    x ∈ within [n] := by
  induction path generalizing n with
  | nil =>
    cases h
    rw [within_singleton]
    exact List.mem_cons_self
  | cons step path ih =>
    rw [within_singleton, under_eq]
    refine List.mem_cons_of_mem _ (List.mem_append.mpr ?_)
    cases step with
    | child i =>
      rw [get?_child] at h
      obtain ⟨c, hc, h⟩ := Option.bind_eq_some_iff.mp h
      exact .inr (mem_within (List.mem_of_getElem? hc) (ih h))
    | attributes =>
      rw [get?_attributes] at h
      split at h
      · have hmem := ih h
        rw [within_singleton, under_eq, attributeList, attributes_new, children_new, List.mem_cons] at hmem
        rcases hmem with rfl | hmem
        · cases hx
        · exact .inl hmem
      · cases h

/-- Only the change of the node itself can change its kind. -/
theorem kind_modify (f : Node → Node) {p : Path} (hp : p ≠ []) (n : Node) : (n.modify f p).kind = n.kind := by
  cases p with
  | nil => exact absurd rfl hp
  | cons step p =>
    cases step with
    | child i => rw [modify_child, kind_withChildren]
    | attributes =>
      rw [modify_attributes]
      split
      · rw [kind_withAttributes]
      · rfl

/-- A place that leads nowhere changes nothing. -/
theorem modify_of_get?_none (f : Node → Node) {p : Path} {n : Node} (h : n.get? p = none) : n.modify f p = n := by
  induction p generalizing n with
  | nil => cases h
  | cons step p ih =>
    cases step with
    | child i =>
      rw [get?_child] at h
      rw [modify_child]
      cases hc : n.children[i]? with
      | none => rw [List.modify_eq_self (List.getElem?_eq_none_iff.mp hc), withChildren_children]
      | some c =>
        rw [hc, Option.bind_some] at h
        have : n.children.modify i (modify f p) = n.children := by
          apply List.ext_getElem?
          intro j
          rw [List.getElem?_modify]
          by_cases hj : i = j
          · subst hj
            simp [hc, ih h]
          · simp [hj]
        rw [this, withChildren_children]
    | attributes =>
      rw [get?_attributes] at h
      rw [modify_attributes]
      split
      · next he =>
        rw [if_pos he] at h
        rw [ih h, children_attributeList, withAttributes_attributes]
      · rfl

/-- A changed attribute list is again a list of attributes and nothing else. -/
theorem modify_attributeList (f : Node → Node) {p : Path} (hp : p ≠ []) (n : Node) :
    n.attributeList.modify f p = new .attributes (n.attributeList.modify f p).children := by
  cases p with
  | nil => exact absurd rfl hp
  | cons step p =>
    cases step with
    | child i => rfl
    | attributes => rfl

/-- A change at one place is no change at a place beside it. -/
theorem get?_modify_of_disjoint (f : Node → Node) {p q : Path} (h : ¬p <+: q) (h' : ¬q <+: p) (n : Node) :
    (n.modify f p).get? q = n.get? q := by
  induction p generalizing q n with
  | nil => exact absurd List.nil_prefix h
  | cons step p ih =>
    cases q with
    | nil => exact absurd List.nil_prefix h'
    | cons step' q =>
      rw [List.cons_prefix_cons] at h h'
      cases step with
      | child i =>
        rw [modify_child]
        cases step' with
        | child j =>
          rw [get?_child, get?_child, children_withChildren, List.getElem?_modify]
          by_cases hij : i = j
          · subst hij
            cases n.children[i]? with
            | none => rfl
            | some c =>
              have hpq := ih (fun hp => h ⟨rfl, hp⟩) (fun hq => h' ⟨rfl, hq⟩) c
              simpa using hpq
          · simp [hij]
        | attributes =>
          rw [get?_attributes, get?_attributes, kind_withChildren, attributeList, attributes_withChildren]
          rfl
      | attributes =>
        rw [modify_attributes]
        split
        · next he =>
          cases step' with
          | child j => rw [get?_child, get?_child, children_withAttributes]
          | attributes =>
            have hp : p ≠ [] := by
              rintro rfl
              exact h ⟨rfl, List.nil_prefix⟩
            rw [get?_attributes, get?_attributes, kind_withAttributes, if_pos he, if_pos he, attributeList,
              attributes_withAttributes, ← modify_attributeList f hp n]
            exact ih (fun hp => h ⟨rfl, hp⟩) (fun hq => h' ⟨rfl, hq⟩) _
        · rfl

/-- A change at one place changes no kind at the places above it. -/
theorem kind_get?_modify_append (f : Node → Node) {q : Path} (p : Path) (hq : q ≠ []) (n : Node) :
    ((n.modify f (p ++ q)).get? p).map (·.kind) = (n.get? p).map (·.kind) := by
  induction p generalizing n with
  | nil => exact congrArg some (kind_modify f hq n)
  | cons step p ih =>
    cases step with
    | child i =>
      rw [List.cons_append, modify_child, get?_child, get?_child, children_withChildren, List.getElem?_modify_eq]
      cases n.children[i]? with
      | none => rfl
      | some c => exact ih c
    | attributes =>
      rw [List.cons_append, modify_attributes]
      split
      · next he =>
        have hne : p ++ q ≠ [] := by simp [hq]
        rw [get?_attributes, get?_attributes, kind_withAttributes, if_pos he, if_pos he, attributeList,
          attributes_withAttributes, ← modify_attributeList f hne n]
        exact ih _
      · rfl

theorem get?_modifyChildren (f : List Node → List Node) (p : Path) (n : Node) :
    (n.modifyChildren f p).get? p = (n.get? p).map fun m => m.withChildren (f m.children) := by
  rw [modifyChildren]
  induction p generalizing n with
  | nil => rfl
  | cons step p ih =>
    cases step with
    | child i =>
      rw [modify_child, get?_child, get?_child, children_withChildren, List.getElem?_modify_eq]
      cases n.children[i]? with
      | none => rfl
      | some c => exact ih c
    | attributes =>
      rw [modify_attributes]
      split
      · next he =>
        rw [get?_attributes, get?_attributes, kind_withAttributes, if_pos he, if_pos he, ← ih, attributeList,
          attributes_withAttributes]
        cases p with
        | nil => rfl
        | cons step p => rw [modify_attributeList _ (List.cons_ne_nil step p) n]; rfl
      · next he => rw [get?_attributes, if_neg he]; rfl

/-! ## Where visits lead

A visit names the list it is in and an index. The list is found unless it is an attribute list of a node that is no
element, and if it is found, the visited node stands in it at the index.
-/

mutual

theorem visitsAt_found (path : Path) : (n : Node) → ∀ v ∈ n.visitsAt path,
    ∃ q, v.parent = path ++ q ∧ ∀ m, n.get? q = some m → m.children[v.index]? = some v.node
  | .mk k i as cs => by
    intro v hv
    rw [visitsAt, List.mem_append] at hv
    rcases hv with hv | hv
    · rcases visitsIn_found _ _ as v hv with ⟨hp, j, hi, hc⟩ | ⟨j, c, q, hc, hp, hf⟩
      · refine ⟨[.attributes], hp, fun m hm => ?_⟩
        rw [get?_attributes] at hm
        split at hm
        · cases hm
          rw [hi, Nat.zero_add]
          exact hc
        · cases hm
      · refine ⟨.attributes :: .child j :: q, by simpa using hp, fun m hm => ?_⟩
        rw [get?_attributes] at hm
        split at hm
        · rw [get?_child, children_attributeList, attributes_mk, hc, Option.bind_some] at hm
          exact hf m hm
        · cases hm
    · rcases visitsIn_found _ _ cs v hv with ⟨hp, j, hi, hc⟩ | ⟨j, c, q, hc, hp, hf⟩
      · refine ⟨[], by simpa using hp, fun m hm => ?_⟩
        cases hm
        rw [hi, Nat.zero_add]
        exact hc
      · refine ⟨.child j :: q, by simpa using hp, fun m hm => ?_⟩
        rw [get?_child, children_mk, hc, Option.bind_some] at hm
        exact hf m hm

theorem visitsIn_found (path : Path) (index : Nat) : (ns : List Node) → ∀ v ∈ visitsIn path index ns,
    (v.parent = path ∧ ∃ j, v.index = index + j ∧ ns[j]? = some v.node) ∨
    ∃ j c q, ns[j]? = some c ∧ v.parent = path ++ .child (index + j) :: q ∧
      ∀ m, c.get? q = some m → m.children[v.index]? = some v.node
  | [] => by
    intro v hv
    exact absurd hv List.not_mem_nil
  | n :: ns => by
    intro v hv
    rw [visitsIn, List.mem_append, List.mem_cons] at hv
    rcases hv with (rfl | hv) | hv
    · exact .inl ⟨rfl, 0, rfl, rfl⟩
    · obtain ⟨q, hp, hf⟩ := visitsAt_found _ n v hv
      exact .inr ⟨0, n, q, rfl, by simpa using hp, hf⟩
    · rcases visitsIn_found _ _ ns v hv with ⟨hp, j, hi, hc⟩ | ⟨j, c, q, hc, hp, hf⟩
      · exact .inl ⟨hp, j + 1, by rw [hi, Nat.add_assoc, Nat.add_comm 1 j], hc⟩
      · exact .inr ⟨j + 1, c, q, hc, by rw [hp, Nat.add_assoc, Nat.add_comm 1 j], hf⟩

end

/-- The visited node stands at its index in the list, if the list is found. -/
theorem getElem?_of_visit {n m : Node} {v : Visit} (h : v ∈ n.visits) (hm : n.get? v.parent = some m) :
    m.children[v.index]? = some v.node := by
  obtain ⟨q, hp, hf⟩ := visitsAt_found [] n v h
  rw [List.nil_append] at hp
  exact hf m (by rw [← hp]; exact hm)

theorem get?_path {n m : Node} {v : Visit} (hm : n.get? v.parent = some m) :
    n.get? v.path = m.children[v.index]? := by
  rw [Visit.path, get?_append, hm, Option.bind_some, get?_child]
  cases m.children[v.index]? <;> rfl

/-- The place of a visit leads to the visited node or nowhere. -/
theorem get?_visit {n : Node} {v : Visit} (h : v ∈ n.visits) :
    n.get? v.path = some v.node ∨ n.get? v.path = none := by
  cases hm : n.get? v.parent with
  | none =>
    refine .inr ?_
    rw [Visit.path, get?_append, hm]
    rfl
  | some m =>
    refine .inl ?_
    rw [get?_path hm]
    exact getElem?_of_visit h hm

/-! ## What is visited below a place -/

theorem mem_visitsIn {path : Path} {index : Nat} {ns : List Node} {v : Visit} (h : v ∈ visitsIn path index ns) :
    ∃ j c, ns[j]? = some c ∧
      (v = ⟨path, index + j, c⟩ ∨ v ∈ c.visitsAt (path ++ [Step.child (index + j)])) := by
  induction ns generalizing index with
  | nil => exact absurd h List.not_mem_nil
  | cons n ns ih =>
    rw [visitsIn, List.mem_append, List.mem_cons] at h
    rcases h with (rfl | h) | h
    · exact ⟨0, n, rfl, .inl rfl⟩
    · exact ⟨0, n, rfl, .inr h⟩
    · obtain ⟨j, c, hc, hv⟩ := ih h
      rw [Nat.add_assoc, Nat.add_comm 1 j] at hv
      exact ⟨j + 1, c, hc, hv⟩

theorem mem_visitsAt {path : Path} {n : Node} {v : Visit} :
    v ∈ n.visitsAt path ↔ v ∈ visitsIn (path ++ [Step.attributes]) 0 n.attributes ∨ v ∈ visitsIn path 0 n.children := by
  cases n
  rw [visitsAt, List.mem_append]
  rfl

theorem prefix_of_visitsAt {path : Path} {n : Node} {v : Visit} (h : v ∈ n.visitsAt path) : path <+: v.path := by
  obtain ⟨q, hq, -⟩ := visitsAt_found path n v h
  rw [Visit.path, hq, List.append_assoc]
  exact List.prefix_append _ _

/-- The first step from where a walk starts says in which list a visited node is. -/
theorem path_of_visitsIn {path : Path} {ns : List Node} {v : Visit} (h : v ∈ visitsIn path 0 ns) :
    ∃ j c q, ns[j]? = some c ∧ v.path = path ++ .child j :: q ∧
      (q = [] ∧ v.node = c ∨ v ∈ c.visitsAt (path ++ [Step.child j])) := by
  obtain ⟨j, c, hc, rfl | hv⟩ := mem_visitsIn h
  · exact ⟨j, c, [], hc, by simp [Visit.path], .inl ⟨rfl, rfl⟩⟩
  · obtain ⟨q, hq⟩ := prefix_of_visitsAt hv
    rw [Nat.zero_add] at hv hq
    exact ⟨j, c, q, hc, by rw [← hq, List.append_assoc]; rfl, .inr hv⟩

/-- What is visited below a child of the node at a place is a child of that node or below one. -/
theorem mem_within_of_visitsAt {n m : Node} {p r path : Path} {i : Nat} {v : Visit} (h : n.get? p = some m)
    (hv : v ∈ n.visitsAt path) (hpath : v.path = path ++ (p ++ .child i :: r)) : v.node ∈ within m.children := by
  induction p generalizing n path with
  | nil =>
    cases h
    rcases mem_visitsAt.mp hv with hv | hv
    · obtain ⟨j, c, q, -, hq, -⟩ := path_of_visitsIn hv
      rw [hq, List.append_assoc, List.append_cancel_left_eq] at hpath
      cases hpath
    · rw [← visitsIn_nodes path 0]
      exact List.mem_map_of_mem hv
  | cons step p ih =>
    rcases mem_visitsAt.mp hv with hv | hv
    · obtain ⟨j, c, q, hc, hq, hcase⟩ := path_of_visitsIn hv
      rw [hpath, List.append_assoc, List.append_cancel_left_eq] at hq
      obtain ⟨rfl, -⟩ := List.cons.inj hq
      rw [get?_attributes] at h
      split at h
      · have hv' : v ∈ n.attributeList.visitsAt (path ++ [Step.attributes]) := mem_visitsAt.mpr (.inr hv)
        exact ih h hv' (by rw [hpath]; simp)
      · cases h
    · obtain ⟨j, c, q, hc, hq, hcase⟩ := path_of_visitsIn hv
      rw [hpath, List.append_cancel_left_eq, List.cons_append] at hq
      obtain ⟨rfl, hq⟩ := List.cons.inj hq
      rw [get?_child, hc, Option.bind_some] at h
      rcases hcase with ⟨rfl, -⟩ | hv
      · simp at hq
      · exact ih h hv (by rw [hpath]; simp)

end JsxEdit.Node
