import JsxEdit.Proofs.DocumentOrder
import JsxEdit.Proofs.Insertion

/-
A walk with a stack goes through a tree in the order of its recursion.

What a walk still has to visit is a stack of lists, the topmost first. Each pending node stands for itself and its own
walk, so the stack stands for one list of visits, and a step gives the first of these and leaves the rest. Every step
makes the work that is left smaller, and the number of steps a walk is given is enough for a whole tree. What a search
finds first is then first in that order.
-/
set_option autoImplicit false

namespace JsxEdit
namespace Node

/-! ## The recursive order -/

mutual

/-- The nodes below the node at `path`, each followed by its own walk unless it is to be skipped. -/
def openVisitsAt (skip : Visit → Bool) (path : Path) : Node → List Visit
  | .mk _ _ as cs => openVisitsIn skip (path ++ [.attributes]) 0 as ++ openVisitsIn skip path 0 cs

/-- The nodes of a list from `index` on, each followed by its own walk unless it is to be skipped. -/
def openVisitsIn (skip : Visit → Bool) (path : Path) (index : Nat) : List Node → List Visit
  | [] => []
  | n :: ns =>
    ⟨path, index, n⟩ :: (if skip ⟨path, index, n⟩ then [] else n.openVisitsAt skip (path ++ [.child index])) ++
      openVisitsIn skip path (index + 1) ns

end

/-- A walk of the node by recursion, without what is below a visited node that is to be skipped. -/
def openVisits (skip : Visit → Bool) (n : Node) : List Visit := n.openVisitsAt skip []

/-- What a pending visit stands for. -/
def expansion (skip : Visit → Bool) (v : Visit) : List Visit :=
  v :: if skip v then [] else v.node.openVisitsAt skip v.path

theorem openVisitsIn_eq (skip : Visit → Bool) (path : Path) (index : Nat) (ns : List Node) :
    openVisitsIn skip path index ns =
      (ns.mapIdx fun i n => (⟨path, index + i, n⟩ : Visit)).flatMap (expansion skip) := by
  induction ns generalizing index with
  | nil => rfl
  | cons n ns ih =>
    have hshift : (fun i m => (⟨path, index + (i + 1), m⟩ : Visit)) = fun i m => ⟨path, index + 1 + i, m⟩ := by
      funext i m
      rw [Nat.add_assoc, Nat.add_comm 1 i]
    rw [openVisitsIn, ih, List.mapIdx_cons, List.flatMap_cons, Nat.add_zero, hshift]
    rfl

theorem openVisitsAt_eq (skip : Visit → Bool) (path : Path) (n : Node) :
    n.openVisitsAt skip path = (n.levelVisits path).flatMap (expansion skip) := by
  cases n with
  | mk k i as cs =>
    rw [openVisitsAt, openVisitsIn_eq, openVisitsIn_eq, levelVisits, List.flatMap_append]
    simp only [Nat.zero_add]
    rfl

mutual

theorem openVisitsAt_of_open {skip : Visit → Bool} (h : ∀ v, skip v = false) (path : Path) :
    (n : Node) → n.openVisitsAt skip path = n.visitsAt path
  | .mk _ _ as cs => by
    rw [openVisitsAt, visitsAt, openVisitsIn_of_open h _ _ as, openVisitsIn_of_open h _ _ cs]

theorem openVisitsIn_of_open {skip : Visit → Bool} (h : ∀ v, skip v = false) (path : Path) (index : Nat) :
    (ns : List Node) → openVisitsIn skip path index ns = visitsIn path index ns
  | [] => rfl
  | n :: ns => by
    rw [openVisitsIn, visitsIn, h, if_neg Bool.false_ne_true, openVisitsAt_of_open h _ n,
      openVisitsIn_of_open h path (index + 1) ns]

end

mutual

/-- Skipping leaves visits out and changes neither the others nor their order. -/
theorem openVisitsAt_sublist (skip : Visit → Bool) (path : Path) :
    (n : Node) → (n.openVisitsAt skip path).Sublist (n.visitsAt path)
  | .mk _ _ as cs => by
    rw [openVisitsAt, visitsAt]
    exact (openVisitsIn_sublist skip _ _ as).append (openVisitsIn_sublist skip _ _ cs)

theorem openVisitsIn_sublist (skip : Visit → Bool) (path : Path) (index : Nat) :
    (ns : List Node) → (openVisitsIn skip path index ns).Sublist (visitsIn path index ns)
  | [] => List.Sublist.refl []
  | n :: ns => by
    rw [openVisitsIn, visitsIn]
    refine (List.Sublist.cons_cons _ ?_).append (openVisitsIn_sublist skip path (index + 1) ns)
    split
    · exact List.nil_sublist _
    · exact openVisitsAt_sublist skip _ n

end

/-! ## The stack -/

/-- How many steps a walk takes until a list is done: each node in it with all that is below, and then its end. -/
def listSteps : List Visit → Nat
  | [] => 1
  | v :: vs => 2 * v.node.size + listSteps vs

/-- How many steps a walk takes until all lists of its stack are done. -/
def stackSteps : List (List Visit) → Nat
  | [] => 0
  | vs :: stack => listSteps vs + stackSteps stack

theorem listSteps_pos (vs : List Visit) : 0 < listSteps vs := by
  induction vs with
  | nil => exact Nat.one_pos
  | cons v vs ih => exact Nat.add_pos_right _ ih

theorem size_pos (n : Node) : 0 < n.size := by
  cases n
  exact Nat.succ_pos _

/-- Two lists, one after the other, have one end. -/
theorem listSteps_append (vs ws : List Visit) : listSteps (vs ++ ws) + 1 = listSteps vs + listSteps ws := by
  induction vs with
  | nil => exact Nat.add_comm _ 1
  | cons v vs ih => rw [List.cons_append, listSteps, listSteps, Nat.add_assoc, ih, Nat.add_assoc]

theorem listSteps_mapIdx (path : Path) (place : Nat → Nat) (ns : List Node) :
    listSteps (ns.mapIdx fun i n => ⟨path, place i, n⟩) = 2 * sizeAll ns + 1 := by
  induction ns generalizing place with
  | nil => rfl
  | cons n ns ih =>
    rw [List.mapIdx_cons, listSteps, ih fun i => place (i + 1), sizeAll, Nat.mul_add, Nat.add_assoc]

/-- The lists directly below a node take one step less than the node. -/
theorem listSteps_levelVisits (path : Path) (n : Node) : listSteps (n.levelVisits path) + 1 = 2 * n.size := by
  cases n with
  | mk k i as cs =>
    rw [levelVisits, listSteps_append, listVisits, listVisits, listSteps_mapIdx, listSteps_mapIdx, size, attributes_mk,
      children_mk]
    omega

/-- A walk with enough steps visits what its stack stands for. -/
theorem walkFrom_eq (skip : Visit → Bool) (fuel : Nat) (stack : List (List Visit)) (h : stackSteps stack ≤ fuel) :
    walkFrom skip fuel stack = stack.flatMap fun vs => vs.flatMap (expansion skip) := by
  induction fuel, stack using walkFrom.induct skip with
  | case1 stack =>
    cases stack with
    | nil => rfl
    | cons vs stack =>
      have := listSteps_pos vs
      rw [stackSteps] at h
      omega
  | case2 fuel => simp [walkFrom]
  | case3 fuel stack ih =>
    rw [stackSteps, listSteps, Nat.add_comm, Nat.add_le_add_iff_right] at h
    rw [walkFrom, ih h]
    rfl
  | case4 fuel v rest stack hskip ih =>
    have hrest : stackSteps (rest :: stack) ≤ fuel := by
      have := size_pos v.node
      rw [stackSteps, listSteps] at h
      rw [stackSteps]
      omega
    rw [walkFrom, if_pos hskip, ih hrest, List.flatMap_cons, List.flatMap_cons, List.flatMap_cons, expansion,
      if_pos hskip]
    rfl
  | case5 fuel v rest stack hskip ih =>
    have hbelow : stackSteps (v.node.levelVisits v.path :: rest :: stack) ≤ fuel := by
      have := listSteps_levelVisits v.path v.node
      rw [stackSteps, listSteps] at h
      rw [stackSteps, stackSteps]
      omega
    rw [walkFrom, if_neg hskip, ih hbelow, List.flatMap_cons, List.flatMap_cons, List.flatMap_cons, List.flatMap_cons,
      expansion, if_neg hskip, ← openVisitsAt_eq, List.cons_append, List.cons_append, List.append_assoc]

theorem walk_eq_openVisits (skip : Visit → Bool) (n : Node) : n.walk skip = n.openVisits skip := by
  have hsteps : stackSteps [n.levelVisits []] ≤ 2 * n.size := by
    rw [stackSteps, stackSteps, ← listSteps_levelVisits [] n]
    exact Nat.le_add_right _ 1
  rw [walk, walkFrom_eq skip _ _ hsteps, List.flatMap_singleton, openVisits, openVisitsAt_eq]

/-- A walk that skips nothing. -/
def fullWalk (n : Node) : List Visit := n.walk fun _ => false

theorem fullWalk_eq_visits (n : Node) : n.fullWalk = n.visits := by
  rw [fullWalk, walk_eq_openVisits, openVisits, visits, openVisitsAt_of_open fun _ => rfl]

/-! ## Places of visits -/

/-- The list at the place of the visit exists in the tree, and the visited node stands in it at the index. -/
def HasAt (tree : Node) (v : Visit) : Prop :=
  ∃ m, tree.get? v.parent = some m ∧ m.children[v.index]? = some v.node

theorem hasAt_iff {tree : Node} {v : Visit} : tree.HasAt v ↔ tree.get? v.path = some v.node := by
  rw [Visit.path, get?_append, Option.bind_eq_some_iff]
  refine exists_congr fun m => and_congr_right fun _ => ?_
  rw [get?_child, Option.bind_eq_some_iff]
  constructor
  · intro h
    exact ⟨v.node, h, rfl⟩
  · rintro ⟨c, h, hc⟩
    cases hc
    exact h

theorem mem_visits_iff {tree : Node} (htree : tree.KeepsAttributes) {v : Visit} : v ∈ tree.visits ↔ tree.HasAt v := by
  constructor
  · intro hv
    exact hasAt_iff.mpr (htree.get?_visit hv)
  · rintro ⟨m, hm, hc⟩
    exact mem_visits hm hc

theorem nodup_visits (tree : Node) : (tree.visits.map Visit.path).Nodup := by
  rw [List.Nodup, List.pairwise_map]
  refine (visitsAt_ordered [] tree).imp ?_
  rintro v w h heq
  exact Path.Precedes.irrefl _ (heq ▸ h)

/-! ## What a search gives -/

/-- An element with the identity, or one without any if there is none to look for. -/
def HasIdentity (id : Option String) (n : Node) : Prop := n.kind.isElement = true ∧ n.identity = .ok id

/-- If the node is an element, its identity can be worked out and is another. -/
def IsOther (id : Option String) (n : Node) : Prop :=
  n.kind.isElement = true → ∃ found, n.identity = .ok found ∧ found ≠ id

/-- The visit is in the list, and the nodes before it are no elements or have other identities. -/
def ComesTo (id : Option String) (vs : List Visit) (v : Visit) : Prop :=
  ∃ before after, vs = before ++ v :: after ∧ ∀ u ∈ before, u.node.IsOther id

/-- What a search by an identity asks a node. -/
def asked (id : Option String) (n : Node) : Except Fault Bool := do
  if n.kind.isElement then return (← n.identity) == id else return false

theorem asked_eq (id : Option String) (n : Node) :
    n.asked id = if n.kind.isElement then n.identity.map (· == id) else .ok false := by
  rw [asked]
  cases n.identity <;> rfl

section

variable {n : Node} {id : Option String}

theorem asked_eq_true : n.asked id = .ok true ↔ n.HasIdentity id := by
  rw [asked_eq, HasIdentity]
  cases n.kind.isElement with
  | false => simp
  | true => cases n.identity <;> simp [Except.map]

theorem asked_eq_false : n.asked id = .ok false ↔ n.IsOther id := by
  rw [asked_eq, IsOther]
  cases n.kind.isElement with
  | false => simp
  | true => cases n.identity <;> simp [Except.map]

theorem asked_eq_error {f : Fault} : n.asked id = .error f ↔ n.kind.isElement = true ∧ n.identity = .error f := by
  rw [asked_eq]
  cases n.kind.isElement with
  | false => simp
  | true => cases n.identity <;> simp [Except.map]

end

section

variable {p : Visit → Except Fault Bool} {vs : List Visit} (hnodes : ∀ v ∈ vs, v.node.isForeign = false)
include hnodes

theorem firstVisit_eq_none : firstVisit p vs = .ok none ↔ ∀ v ∈ vs, p v = .ok false := by
  induction vs with
  | nil => exact iff_of_true rfl (List.forall_mem_nil _)
  | cons v vs ih =>
    obtain ⟨hv, hnodes⟩ := List.forall_mem_cons.mp hnodes
    rw [firstVisit, hv, List.forall_mem_cons, ← ih hnodes]
    cases p v with
    | error f =>
      constructor
      · intro h
        cases h
      · rintro ⟨h, -⟩
        cases h
    | ok b =>
      cases b with
      | true =>
        constructor
        · intro h
          cases h
        · rintro ⟨h, -⟩
          cases h
      | false => exact (and_iff_right rfl).symm

theorem firstVisit_eq_error {f : Fault} : firstVisit p vs = .error f ↔
    ∃ v before after, vs = before ++ v :: after ∧ p v = .error f ∧ ∀ u ∈ before, p u = .ok false := by
  induction vs with
  | nil =>
    constructor
    · intro h
      cases h
    · rintro ⟨v, before, after, h, -⟩
      simp at h
  | cons w vs ih =>
    obtain ⟨hw, hnodes⟩ := List.forall_mem_cons.mp hnodes
    rw [firstVisit, hw]
    constructor
    · intro h
      cases hp : p w with
      | error g =>
        rw [hp] at h
        cases h
        exact ⟨w, [], vs, rfl, hp, List.forall_mem_nil _⟩
      | ok b =>
        rw [hp] at h
        cases b with
        | true => cases h
        | false =>
          obtain ⟨v, before, after, rfl, hv, hbefore⟩ := (ih hnodes).mp h
          exact ⟨v, w :: before, after, rfl, hv, List.forall_mem_cons.mpr ⟨hp, hbefore⟩⟩
    · rintro ⟨v, before, after, hsplit, hv, hbefore⟩
      cases before with
      | nil =>
        obtain ⟨rfl, -⟩ := List.cons.inj hsplit
        rw [hv]
        rfl
      | cons u before =>
        obtain ⟨rfl, rfl⟩ := List.cons.inj hsplit
        obtain ⟨hu, hbefore⟩ := List.forall_mem_cons.mp hbefore
        rw [hu]
        exact (ih hnodes).mpr ⟨v, before, after, rfl, hv, hbefore⟩

end

section

variable {tree : Node} (hnodes : ∀ n ∈ tree.under, n.isForeign = false) (id : Option String)
include hnodes

theorem visits_nodes : ∀ v ∈ tree.visits, v.node.isForeign = false :=
  fun v hv => hnodes v.node (node_mem_under hv)

theorem findIdentity_eq_some {v : Visit} :
    tree.findIdentity id = .ok (some v) ↔ ComesTo id tree.visits v ∧ v.node.HasIdentity id := by
  refine firstVisit_eq_some.trans ?_
  constructor
  · rintro ⟨before, after, hsplit, hv, hbefore⟩
    exact ⟨⟨before, after, hsplit, fun u hu => asked_eq_false.mp (hbefore u hu).1⟩, asked_eq_true.mp hv⟩
  · rintro ⟨⟨before, after, hsplit, hbefore⟩, hv⟩
    refine ⟨before, after, hsplit, asked_eq_true.mpr hv, fun u hu => ⟨asked_eq_false.mpr (hbefore u hu), ?_⟩⟩
    exact visits_nodes hnodes u (hsplit ▸ List.mem_append_left _ hu)

theorem findIdentity_eq_none : tree.findIdentity id = .ok none ↔ ∀ v ∈ tree.visits, v.node.IsOther id :=
  (firstVisit_eq_none (visits_nodes hnodes)).trans (forall₂_congr fun _ _ => asked_eq_false)

theorem findIdentity_eq_error {f : Fault} : tree.findIdentity id = .error f ↔
    ∃ v, ComesTo id tree.visits v ∧ v.node.kind.isElement = true ∧ v.node.identity = .error f := by
  refine (firstVisit_eq_error (visits_nodes hnodes)).trans ?_
  constructor
  · rintro ⟨v, before, after, hsplit, hv, hbefore⟩
    exact ⟨v, ⟨before, after, hsplit, fun u hu => asked_eq_false.mp (hbefore u hu)⟩, asked_eq_error.mp hv⟩
  · rintro ⟨v, ⟨before, after, hsplit, hbefore⟩, hv⟩
    exact ⟨v, before, after, hsplit, asked_eq_error.mpr hv, fun u hu => asked_eq_false.mpr (hbefore u hu)⟩

end

/-! ## The walk -/

/-- A walk is the recursion through the tree, whatever is skipped, and each visit leads to the visited node. If nothing is
skipped, every place in the tree is visited once. A search by an identity gives the first element in that order that has
it, nothing if every element has another, and fails at an element whose identity cannot be worked out. -/
theorem walk_follows_recursion {tree : Node} (htree : tree.KeepsAttributes)
    (hnodes : ∀ n ∈ tree.under, n.isForeign = false) :
    (∀ skip, tree.walk skip = tree.openVisits skip ∧ ∀ v ∈ tree.walk skip, tree.HasAt v) ∧
      ((tree.fullWalk.map Visit.path).Nodup ∧ ∀ v, v ∈ tree.fullWalk ↔ tree.HasAt v) ∧
      ∀ id,
        (∀ v, tree.findIdentity id = .ok (some v) ↔ ComesTo id tree.fullWalk v ∧ v.node.HasIdentity id) ∧
        (tree.findIdentity id = .ok none ↔ ∀ v ∈ tree.fullWalk, v.node.IsOther id) ∧
        ∀ f, tree.findIdentity id = .error f ↔
          ∃ v, ComesTo id tree.fullWalk v ∧ v.node.kind.isElement = true ∧ v.node.identity = .error f := by
  rw [fullWalk_eq_visits]
  refine ⟨fun skip => ⟨walk_eq_openVisits skip tree, fun v hv => ?_⟩,
    ⟨nodup_visits tree, fun v => mem_visits_iff htree⟩, fun id => ⟨fun v => findIdentity_eq_some hnodes id,
      findIdentity_eq_none hnodes id, fun f => findIdentity_eq_error hnodes id⟩⟩
  rw [walk_eq_openVisits] at hv
  exact (mem_visits_iff htree).mp ((openVisitsAt_sublist skip [] tree).subset hv)

theorem walk_nested : Edit.Command.nested.fullWalk.map Visit.path =
      [[.child 0], [.child 0, .attributes, .child 0], [.child 0, .attributes, .child 0, .child 0],
        [.child 0, .child 0], [.child 0, .child 0, .attributes, .child 0],
        [.child 0, .child 0, .attributes, .child 0, .child 0], [.child 0, .child 0, .child 0],
        [.child 0, .child 0, .child 0, .attributes, .child 0],
        [.child 0, .child 0, .child 0, .attributes, .child 0, .child 0]] ∧
    Edit.Command.nested.findIdentity (some "list") =
      .ok (some ⟨[.child 0], 0, Edit.Command.identified "ul" "list" [Edit.Command.identified "li" "item" []]⟩) := by
  have htree : Edit.Command.nested.KeepsAttributes := by
    unfold KeepsAttributes
    decide
  obtain ⟨hwalk, -, hfind⟩ := walk_follows_recursion htree (by decide)
  refine ⟨by rw [fullWalk, (hwalk _).1]; rfl, ((hfind (some "list")).1 _).mpr ⟨?_, rfl, rfl⟩⟩
  have hbefore : (Edit.Command.nested.fullWalk.take 3).map (·.node.asked (some "list")) =
      List.replicate 3 (.ok false) := rfl
  refine ⟨Edit.Command.nested.fullWalk.take 3, Edit.Command.nested.fullWalk.drop 4, rfl, fun u hu => ?_⟩
  refine asked_eq_false.mp (List.eq_of_mem_replicate (n := 3) ?_)
  rw [← hbefore]
  exact List.mem_map_of_mem hu

/-- An element behind one whose identity is a reference that is too long. -/
def behindUnreadable : Node := new (.document none) [unreadable, Edit.Command.identified "b" "x" []]

/-- The walk comes by an element with the identity, and the search for it fails. -/
theorem search_fails_behind_unreadable :
    (∃ v ∈ behindUnreadable.fullWalk, v.node.HasIdentity (some "x")) ∧
      behindUnreadable.findIdentity (some "x") = .error .badNumber := by
  refine ⟨⟨⟨[], 1, Edit.Command.identified "b" "x" []⟩, ?_, rfl, rfl⟩, ?_⟩
  · rw [fullWalk_eq_visits]
    exact mem_visits (p := []) rfl rfl
  · refine (findIdentity_eq_error (by decide) _).mpr ⟨⟨[], 0, unreadable⟩, ⟨[], _, rfl, List.forall_mem_nil _⟩, rfl, ?_⟩
    exact elementIdentity_unreadable

end Node
end JsxEdit
