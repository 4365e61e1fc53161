import JsxEdit.Proofs.DocumentOrder
import JsxEdit.Proofs.Exchange
import JsxEdit.Proofs.Insertion
import JsxEdit.Proofs.Purge
import JsxEdit.Proofs.Removal

/-
An element moved to the end of another.

The element leaves its list together with white space before it, and the other element takes it in. In between the
places in the tree are other ones: the other element has to be found in the tree that the first one has left. It is lost
if it was below the white space that left with the first one.
-/
set_option autoImplicit false

namespace JsxEdit
namespace Node

/-- A tree of nodes in which only elements have attributes and there is nothing below white space. -/
structure Proper (tree : Node) : Prop where
  attributes : tree.KeepsAttributes
  nodes : ∀ m ∈ tree.under, m.isForeign = false
  blank : ∀ m ∈ tree.under, m.isWhitespace = true → m.children = []

/-! ## Nodes only -/

theorem anyForeign_eq_false {ns : List Node} :
    anyForeign ns = false ↔ ∀ n ∈ ns, n.isForeign = false ∧ n.hasForeign = false := by
  induction ns with
  | nil => exact iff_of_true rfl (List.forall_mem_nil _)
  | cons n ns ih => rw [anyForeign, Bool.or_eq_false_iff, Bool.or_eq_false_iff, ih, List.forall_mem_cons]

/-- Where there are only nodes, there are only nodes before a place. -/
theorem foreignBefore_of_nodes (p : Path) {n : Node} (h : n.hasForeign = false) : foreignBefore p n = false := by
  induction p generalizing n with
  | nil => rfl
  | cons step p ih =>
    cases step with
    | attributes => rfl
    | child i =>
      cases n with
      | mk k info as cs =>
        rw [hasForeign, Bool.or_eq_false_iff] at h
        have hcs := anyForeign_eq_false.mp h.2
        have htake : anyForeign (cs.take i) = false :=
          anyForeign_eq_false.mpr fun c hc => hcs c (List.mem_of_mem_take hc)
        rw [foreignBefore, attributes_mk, children_mk, h.1, htake]
        cases hc : cs[i]? with
        | none => rfl
        | some c => exact ih (hcs c (List.mem_of_getElem? hc)).2

theorem reach_of_nodes {tree : Node} (h : tree.hasForeign = false) (place : Option Path) :
    Indent.reach tree place = .ok () := by
  unfold Indent.reach
  cases place with
  | none =>
    dsimp only
    rw [h]
    rfl
  | some p =>
    dsimp only
    rw [foreignBefore_of_nodes p h, h, ite_self]
    rfl

theorem reachChild_of_nodes {tree : Node} (h : tree.hasForeign = false) (place : Option Path) (parent : Node) :
    Indent.reachChild tree place parent = .ok () := by
  rw [Indent.reachChild]
  split
  · exact reach_of_nodes h _
  · exact reach_of_nodes h _

/-- White space with nothing below it holds no place but its own. -/
theorem eq_of_get?_blank {g n : Node} {p : Path} (hg : g.isWhitespace = true) (hc : g.children = [])
    (h : g.get? p = some n) : g = n := by
  cases p with
  | nil => exact Option.some.inj h
  | cons step p =>
    cases step with
    | child i =>
      rw [get?_child, hc] at h
      cases h
    | attributes =>
      have helement : g.kind.isElement = false := by
        rw [isWhitespace] at hg
        cases hk : g.kind with
        | element =>
          rw [hk] at hg
          cases hg
        | _ => rfl
      rw [get?_attributes, helement] at h
      cases h

end Node

namespace Edit
open Node

/-! ## The tree without the element -/

/-- The list of children at the place gives up a node, with white space before it. Nothing else in the tree is changed.
-/
def Releases (tree tree' : Node) (place : Path) (n : Node) : Prop :=
  ∃ m left gap right, tree.get? place = some m ∧ m.kind.isMarkup = true ∧ m.children = left ++ gap ++ n :: right ∧
    (∀ w ∈ gap, w.isWhitespace = true) ∧ tree' = tree.set place (m.withChildren (left ++ right))

theorem detach_split (left : List Node) (x : Node) (right : List Node) : ∃ front gap, left = front ++ gap ∧
    (∀ w ∈ gap, w.isWhitespace = true) ∧ detach (left ++ x :: right) left.length = front ++ right ∧
    detachRange (left ++ x :: right) left.length = (front.length, gap.length + 1) := by
  have hsolid : (∀ y ∈ left.getLast?, y.isWhitespace = false) →
      whitespaceBefore (left ++ x :: right) left.length = false := by
    intro hlast
    rcases List.eq_nil_or_concat left with rfl | ⟨front, y, rfl⟩
    · rfl
    · simp [whitespaceBefore, hlast y (by simp)]
  by_cases hlast : ∀ y ∈ left.getLast?, y.isWhitespace = false
  · refine ⟨left, [], (List.append_nil left).symm, List.forall_mem_nil _, detach_solid hlast right x, ?_⟩
    rw [detachRange, hsolid hlast]
    rfl
  · obtain ⟨y, hy, hblank⟩ := by simpa using hlast
    obtain ⟨front, rfl⟩ := List.getLast?_eq_some_iff.mp hy
    refine ⟨front, [y], rfl, fun w hw => by rw [List.mem_singleton.mp hw]; exact hblank, ?_, ?_⟩
    · have := detach_blank front right hblank x
      simpa using this
    · have hbefore : whitespaceBefore (front ++ [y] ++ x :: right) (front ++ [y]).length = true := by
        simp [whitespaceBefore, hblank]
      rw [detachRange, hbefore]
      simp

/-- An element in markup of a proper tree, with the white space before it and its other siblings, and the tree after it
was taken out. -/
structure Leaving (tree middle : Node) (id : String) (v : Visit) (m : Node) (front gap right : List Node) : Prop where
  found : tree.findId id = .ok (some v)
  parent : tree.get? v.parent = some m
  markup : m.kind.isMarkup = true
  siblings : m.children = front ++ gap ++ v.node :: right
  index : v.index = (front ++ gap).length
  blank : ∀ w ∈ gap, w.isWhitespace = true
  range : detachRange m.children v.index = (front.length, gap.length + 1)
  middle_eq : middle = tree.modifyChildren (fun _ => front ++ right) v.parent
  detached : tree.modifyChildren (detach · v.index) v.parent = middle

theorem leaving_of_findId {tree : Node} {id : String} {v : Visit} (h : tree.findId id = .ok (some v))
    (hp : isMarkupPlace tree v.parent = true) :
    ∃ middle m front gap right, Leaving tree middle id v m front gap right := by
  obtain ⟨m, left, right, hm, hk, hs, hlen⟩ := (findId_some h).siblings_split hp
  obtain ⟨front, gap, rfl, hblank, hdetach, hrange⟩ := detach_split left v.node right
  rw [← hs, hlen] at hdetach hrange
  refine ⟨_, m, front, gap, right, h, hm, hk, hs, hlen.symm, hblank, hrange, rfl, ?_⟩
  rw [modifyChildren_const hm, hdetach]

namespace Leaving

variable {tree middle : Node} {id : String} {v : Visit} {m : Node} {front gap right : List Node}
  (h : Leaving tree middle id v m front gap right)
include h

theorem releases : Releases tree middle v.parent v.node := by
  refine ⟨m, front, gap, right, h.parent, h.markup, h.siblings, h.blank, ?_⟩
  rw [h.middle_eq, modifyChildren, modify_eq_set _ h.parent]

/-- In a tree of nodes there are only nodes after an element was taken out. -/
theorem nodes (htree : ∀ n ∈ tree.under, n.isForeign = false) : ∀ n ∈ middle.under, n.isForeign = false := by
  intro n hn
  rw [← descendants_eq_under, descendants, h.middle_eq] at hn
  obtain ⟨u, hu, rfl⟩ := List.mem_map.mp hn
  rcases mem_visits_modifyChildren h.parent h.markup _ hu with hu | ⟨t, ht, -, -, halike⟩
  · have hmem : u.node ∈ within (front ++ right) := by
      rw [← visitsIn_nodes v.parent 0]
      exact List.mem_map_of_mem hu
    have hchild : u.node ∈ within m.children := by
      rw [h.siblings, within_append, within_append, within_cons]
      rw [within_append] at hmem
      rcases List.mem_append.mp hmem with hmem | hmem
      · exact List.mem_append_left _ (List.mem_append_left _ hmem)
      · exact List.mem_append_right _ (List.mem_append_right _ hmem)
    obtain ⟨t, ht, hnode, -⟩ := exists_visit_within h.parent (List.append_nil m.children).symm hchild
    rw [← hnode]
    exact htree _ (node_mem_under ht)
  · rw [← halike.node]
    exact htree _ (node_mem_under ht)

/-- The place of an element that is not inside the one that is taken out is still there. -/
theorem place_left (htree : tree.Proper) {w : Visit} (hw : w ∈ tree.visits) (hk : w.node.kind.isMarkup = true)
    (hne : ¬v.path <+: w.path) :
    ∃ place, Path.afterRemoval v.parent front.length (gap.length + 1) w.path = some place := by
  have hget := htree.attributes.get?_visit hw
  rw [Path.afterRemoval]
  split
  · next hpre =>
    obtain ⟨rest, hrest⟩ := List.isPrefixOf_iff_prefix.mp hpre
    rw [← hrest, List.drop_left]
    rw [← hrest, get?_append, h.parent, Option.bind_some] at hget
    split
    · next i rest =>
      split
      · exact ⟨_, rfl⟩
      · next hfirst =>
        split
        · next hlast =>
          exfalso
          rw [get?_child, h.siblings] at hget
          by_cases hi : i = (front ++ gap).length
          · -- the element itself, which the place does not lead into
            refine hne ⟨rest, ?_⟩
            rw [Visit.path, h.index, ← hi, List.append_assoc, ← hrest]
            rfl
          · -- the white space before the element, with nothing below it
            rw [List.length_append] at hi
            rw [List.append_assoc, List.getElem?_append_right (by omega), List.getElem?_append_left (by omega)] at hget
            obtain ⟨g, hg, hget⟩ := Option.bind_eq_some_iff.mp hget
            have hmem := List.mem_of_getElem? hg
            have hunder : g ∈ tree.under := by
              have hchild : m.children[front.length + (i - front.length)]? = some g := by
                rw [h.siblings, List.append_assoc, List.getElem?_append_right (by omega),
                  List.getElem?_append_left (by omega), Nat.add_sub_cancel_left, hg]
              exact node_mem_under (mem_visits h.parent hchild)
            obtain rfl := eq_of_get?_blank (h.blank g hmem) (htree.blank g hunder (h.blank g hmem)) hget
            exact Bool.false_ne_true ((solid_of_isMarkup hk).symm.trans (h.blank _ hmem))
        · exact ⟨_, rfl⟩
    · exact ⟨_, rfl⟩
  · exact ⟨_, rfl⟩

section

variable (htree : tree.Proper) {id' : String} {w : Visit} (hw : tree.findId id' = .ok (some w))
  (hne : ¬v.path <+: w.path)
include htree hw hne

/-- After the element was taken out, its destination is still in the tree. -/
theorem destination_left : ∃ place n, Path.afterRemoval v.parent front.length (gap.length + 1) w.path = some place ∧
    middle.get? place = some n ∧ n.kind = w.node.kind ∧ n.identity? = some id' := by
  have hw := findId_some hw
  obtain ⟨place, hplace⟩ := h.place_left htree hw.mem hw.markup hne
  have hget := htree.attributes.get?_visit hw.mem
  have hchildren : childrenAt tree v.parent = m.children := by rw [childrenAt, h.parent]; rfl
  have hrange : Path.afterRemoval v.parent (detachRange m.children v.index).1 (detachRange m.children v.index).2
      w.path = some place := by rw [h.range]; exact hplace
  have hkind := hrange
  rw [← hchildren] at hkind
  replace hkind := kind_afterRemoval hkind
  have hidentity := identity?_afterRemoval h.parent h.markup hrange
  rw [h.detached, hget] at hkind hidentity
  obtain ⟨n, hn, hk⟩ := Option.map_eq_some_iff.mp hkind
  rw [hn] at hidentity
  exact ⟨place, n, hplace, hn, hk, hidentity.trans hw.identity?_eq⟩

/-- The element is put at the end of its destination. -/
theorem transfer_receives (width : Int) : ∃ tree' place n left right, transfer width tree v w = (tree', .ok ()) ∧
    middle.get? place = some n ∧ n.identity? = some id' ∧ Receives middle tree' place true left right v.node ∧
      solids right = [] := by
  obtain ⟨place, n, hplace, hn, hk, hid⟩ := h.destination_left htree hw hne
  have hmarkup : n.kind.isMarkup = true := by rw [hk]; exact (findId_some hw).markup
  obtain ⟨-, left, right, hright, -, hreceives⟩ := appendChild_receives (findId_some h.found).markup hn hmarkup width
  refine ⟨_, place, n, left, right, ?_, hn, hid, hreceives, hright⟩
  have hsiblings : Edit.siblings tree v = m.children := by rw [Edit.siblings, h.parent]; rfl
  rw [transfer, hsiblings, h.range]
  dsimp only
  rw [h.detached, hplace, Option.bind_some, hn, Option.map_some]
  dsimp only
  rw [reachChild_of_nodes (hasForeign_of_nodes middle (h.nodes htree.nodes))]

theorem moveInto_gives (width : Int) : ∃ tree' place n left right, (moveInto tree id id' width).Gives tree' ∧
    middle.get? place = some n ∧ n.identity? = some id' ∧ Receives middle tree' place true left right v.node ∧
      solids right = [] := by
  obtain ⟨tree', place, n, left, right, htransfer, hrest⟩ := h.transfer_receives htree hw hne width
  refine ⟨tree', place, n, left, right, ?_, hrest⟩
  have hplace : isMarkupPlace tree v.parent = true := by rw [isMarkupPlace, h.parent]; exact h.markup
  have hother : (v.path == w.path) = false := beq_eq_false_iff_ne.mpr fun heq => hne (heq ▸ List.prefix_refl _)
  have hnodes : v.node.hasForeign = false := by
    refine hasForeign_of_nodes v.node fun x hx => ?_
    have hself := (findId_some h.found).get?_of_isMarkupPlace hplace
    obtain ⟨u, hu, rfl, -⟩ := exists_visit_at hself (by rw [within_singleton]; exact List.mem_cons_of_mem _ hx)
    exact htree.nodes _ (node_mem_under hu)
  have hbelow : isBelow v w = .ok false := isBelow_eq_false.mpr
    ⟨Bool.eq_false_iff.mpr fun hbefore => hne (isBefore_iff.mp hbefore).1, hnodes⟩
  rw [moveInto, h.found]
  dsimp only
  rw [hw]
  dsimp only
  rw [hother, if_neg Bool.false_ne_true, hbelow]
  dsimp only
  rw [hplace, htransfer]
  exact ⟨Reply.succeeds_succeeded .., rfl⟩

end

end Leaving

/-- A move that succeeded has found an element inside markup, and another that is not inside the first. -/
theorem of_moveInto_succeeds {tree : Node} {id id' : String} {width : Int} (h : (moveInto tree id id' width).Succeeds) :
    ∃ v w, tree.findId id = .ok (some v) ∧ tree.findId id' = .ok (some w) ∧ ¬v.path <+: w.path ∧
      isMarkupPlace tree v.parent = true := by
  unfold moveInto at h
  split at h
  · exact absurd h (Reply.not_succeeds_fault _ _)
  · exact absurd h (Reply.not_succeeds_failed _ _ _ _)
  · next v hv =>
    split at h
    · exact absurd h (Reply.not_succeeds_fault _ _)
    · exact absurd h (Reply.not_succeeds_failed _ _ _ _)
    · next w hw =>
      split at h
      · exact absurd h (Reply.not_succeeds_fault _ _)
      · exact absurd h (Reply.not_succeeds_invalid _ _ _)
      · next hbelow =>
        split at hbelow
        · cases hbelow
        · next hother =>
          split at h
          · exact absurd h (Reply.not_succeeds_invalid _ _ _)
          · next hplace =>
            exact ⟨v, w, hv, hw, not_prefix_of_isBelow (by simpa using hother) hbelow, by simpa using hplace⟩

theorem proper_lines : lines.Proper where
  attributes := by unfold KeepsAttributes; decide
  nodes := by decide
  blank := by decide

/-- An item behind white space that holds an element. -/
def hollow : Node :=
  .new (.document none) [.element "div" [] [.new (.text " ") [Command.identified "b" "d" []],
    Command.identified "i" "s" []]]

end Edit
end JsxEdit
