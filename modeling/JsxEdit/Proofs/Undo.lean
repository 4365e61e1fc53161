import JsxEdit.Proofs.DocumentOrder
import JsxEdit.Proofs.Reorder
import JsxEdit.Proofs.Splice

/-
Moves among siblings taken back.

A list in which one node was moved from rank to rank is the old one again once the node is moved back. But the second
move looks for the element anew, and what it was moved past now comes before it: the way back is open if the search can
look at all of that, and does not find what it looks for in it.
-/
set_option autoImplicit false

namespace JsxEdit.Edit
open Node

/-! ## Lists with one node moved and moved back -/

/-- The list with the node of one rank among those that are no white space moved to another rank. -/
def rearranged (ns : List Node) (i j : Nat) : List Node := fillSignificant ns (moveItem (solids ns) i j)

/-- The nodes that the node of one rank goes past on its way down to another rank, with the white space between. -/
def passed (ns : List Node) (i j : Nat) : List Node :=
  (ns.take ((significant ns).getD j 0 + 1)).drop ((significant ns).getD i 0 + 1)

/-- Of two lists that fill the places one after the other, the second counts. -/
theorem fillSignificant_fillSignificant {ns as bs : List Node} (has : as.length = (solids ns).length)
    (hsolid : ∀ n ∈ as, n.isWhitespace = false) (hbs : bs.length = (solids ns).length) :
    fillSignificant (fillSignificant ns as) bs = fillSignificant ns bs := by
  induction ns generalizing as bs with
  | nil => rfl
  | cons n ns ih =>
    cases hn : n.isWhitespace with
    | true =>
      rw [solids_cons_blank hn] at has hbs
      rw [fillSignificant_cons_blank hn, fillSignificant_cons_blank hn, fillSignificant_cons_blank hn,
        ih has hsolid hbs]
    | false =>
      rw [solids_cons_solid hn, List.length_cons] at has hbs
      obtain ⟨a, as, rfl⟩ := List.exists_cons_of_length_eq_add_one has
      obtain ⟨b, bs, rfl⟩ := List.exists_cons_of_length_eq_add_one hbs
      obtain ⟨ha, hsolid⟩ := List.forall_mem_cons.mp hsolid
      rw [fillSignificant_cons_solid hn, fillSignificant_cons_solid ha, fillSignificant_cons_solid hn,
        ih (Nat.succ.inj has) hsolid (Nat.succ.inj hbs)]

section

variable {ns : List Node} {x : Node} {i j : Nat} (hx : (solids ns)[i]? = some x) (hj : j < (solids ns).length)
include hx hj

theorem solids_rearranged : solids (rearranged ns i j) = ((solids ns).eraseIdx i).insertIdx j x :=
  (reordered_fillSignificant hx hj).moved

theorem getElem?_solids_rearranged : (solids (rearranged ns i j))[j]? = some x := by
  have hi := (List.getElem?_eq_some_iff.mp hx).1
  rw [solids_rearranged hx hj, List.getElem?_insertIdx_self, if_pos]
  rw [List.length_eraseIdx_of_lt hi]
  omega

theorem length_solids_rearranged : (solids (rearranged ns i j)).length = (solids ns).length := by
  have hi := (List.getElem?_eq_some_iff.mp hx).1
  rw [solids_rearranged hx hj, List.length_insertIdx_of_le_length, List.length_eraseIdx_of_lt hi]
  · omega
  · rw [List.length_eraseIdx_of_lt hi]
    omega

/-- A node that is moved from rank to rank and back leaves the list as it was. -/
theorem rearranged_back : rearranged (rearranged ns i j) j i = ns := by
  have hperm := moveItem_perm i hj
  have hsolid : ∀ n ∈ moveItem (solids ns) i j, n.isWhitespace = false :=
    fun n hn => solid_of_mem_solids (hperm.mem_iff.mp hn)
  obtain ⟨hi, hxi⟩ := List.getElem?_eq_some_iff.mp hx
  have hitems : moveItem (solids (rearranged ns i j)) j i = solids ns := by
    rw [moveItem_eq (getElem?_solids_rearranged hx hj), solids_rearranged hx hj, List.eraseIdx_insertIdx_self, ← hxi,
      List.insertIdx_eraseIdx_getElem]
  rw [rearranged, hitems, rearranged, fillSignificant_fillSignificant hperm.length_eq hsolid rfl,
    fillSignificant_solids]

end

/-- A node of some rank has as many nodes before it that are no white space. -/
theorem split_at_rank {ns : List Node} {x : Node} {i : Nat} (hx : (solids ns)[i]? = some x) :
    ∃ left right, ns = left ++ x :: right ∧ (solids left).length = i := by
  induction ns generalizing i with
  | nil => cases hx
  | cons n ns ih =>
    cases hn : n.isWhitespace with
    | true =>
      rw [solids_cons_blank hn] at hx
      obtain ⟨left, right, rfl, hlen⟩ := ih hx
      exact ⟨n :: left, right, rfl, by rw [solids_cons_blank hn, hlen]⟩
    | false =>
      rw [solids_cons_solid hn] at hx
      cases i with
      | zero =>
        cases hx
        exact ⟨[], ns, rfl, rfl⟩
      | succ i =>
        obtain ⟨left, right, rfl, hlen⟩ := ih hx
        exact ⟨n :: left, right, rfl, by rw [solids_cons_solid hn, List.length_cons, hlen]⟩

/-- White space stays, and what fills the other places comes in. -/
theorem mem_fillSignificant_iff {ns as : List Node} (h : as.length = (solids ns).length) {n : Node} :
    n ∈ fillSignificant ns as ↔ n ∈ ns ∧ n.isWhitespace = true ∨ n ∈ as := by
  induction ns generalizing as with
  | nil =>
    obtain rfl : as = [] := List.length_eq_zero_iff.mp h
    simp [fillSignificant]
  | cons m ns ih =>
    cases hm : m.isWhitespace with
    | true =>
      rw [solids_cons_blank hm] at h
      rw [fillSignificant_cons_blank hm, List.mem_cons, List.mem_cons, ih h]
      constructor
      · rintro (rfl | h | h)
        · exact .inl ⟨.inl rfl, hm⟩
        · exact .inl ⟨.inr h.1, h.2⟩
        · exact .inr h
      · rintro (⟨rfl | hn, hblank⟩ | h)
        · exact .inl rfl
        · exact .inr (.inl ⟨hn, hblank⟩)
        · exact .inr (.inr h)
    | false =>
      rw [solids_cons_solid hm, List.length_cons] at h
      obtain ⟨a, as, rfl⟩ := List.exists_cons_of_length_eq_add_one h
      rw [fillSignificant_cons_solid hm, List.mem_cons, List.mem_cons, List.mem_cons, ih (Nat.succ.inj h)]
      constructor
      · rintro (rfl | h | h)
        · exact .inr (.inl rfl)
        · exact .inl ⟨.inr h.1, h.2⟩
        · exact .inr (.inr h)
      · rintro (⟨rfl | hn, hblank⟩ | rfl | h)
        · rw [hm] at hblank
          cases hblank
        · exact .inr (.inl ⟨hn, hblank⟩)
        · exact .inl rfl
        · exact .inr (.inr h)

section

variable {left right : List Node} {x : Node} (hx : x.isWhitespace = false)
include hx

/-- On its way up a node goes past nothing that comes before it in the end. -/
theorem passed_up {j : Nat} (hj : j ≤ (solids left).length) :
    passed (left ++ x :: right) (solids left).length j = [] := by
  have hindex : (significant (left ++ x :: right)).getD j 0 ≤ left.length := by
    rcases Nat.lt_or_eq_of_le hj with hj | rfl
    · obtain ⟨y, hy⟩ : ∃ y, (solids left)[j]? = some y := ⟨_, List.getElem?_eq_getElem hj⟩
      obtain ⟨front, gap, rfl, rfl⟩ := split_at_rank hy
      rw [List.append_assoc, List.cons_append, getD_significant (solid_of_mem_solids (List.mem_of_getElem? hy))]
      simp
    · rw [getD_significant hx]
  rw [passed, getD_significant hx]
  refine List.drop_eq_nil_of_le ?_
  rw [List.length_take]
  omega

theorem mem_of_mem_passed {j : Nat} {n : Node} (hn : n ∈ passed (left ++ x :: right) (solids left).length j) :
    n ∈ right := by
  have hlist : left ++ x :: right = (left ++ [x]) ++ right := by simp
  have hlen : left.length + 1 = (left ++ [x]).length := by simp
  rw [passed, getD_significant hx, List.drop_take, hlist, hlen, List.drop_left] at hn
  exact List.mem_of_mem_take hn

/-- A node that is moved up has a part of what was before it before it. -/
theorem split_up {j : Nat} (hj : j ≤ (solids left).length) : ∃ left' right',
    rearranged (left ++ x :: right) (solids left).length j = left' ++ x :: right' ∧ (solids left').length = j ∧
      left' <+: left := by
  have hsolids : solids (left ++ x :: right) = solids left ++ x :: solids right := by
    rw [solids_append, solids_cons_solid hx]
  rcases Nat.lt_or_eq_of_le hj with hj | rfl
  · obtain ⟨y, hy⟩ : ∃ y, (solids left)[j]? = some y := ⟨_, List.getElem?_eq_getElem hj⟩
    have hysolid := solid_of_mem_solids (List.mem_of_getElem? hy)
    obtain ⟨front, mid, rfl, rfl⟩ := split_at_rank hy
    refine ⟨front, fillSignificant (mid ++ [x]) (y :: solids mid) ++ right, ?_, rfl, List.prefix_append _ _⟩
    have hleft : solids (front ++ y :: mid) = solids front ++ y :: solids mid := by
      rw [solids_append, solids_cons_solid hysolid]
    have hitems : moveItem (solids (front ++ y :: mid ++ x :: right)) (solids (front ++ y :: mid)).length
        (solids front).length = solids front ++ ((x :: y :: solids mid) ++ solids right) := by
      rw [hsolids, hleft, List.append_assoc, List.length_append]
      exact moveItem_ahead (solids front) (y :: solids mid) x (solids right)
    have hlen : (x :: y :: solids mid).length = (solids (y :: (mid ++ [x]))).length := by
      rw [solids_cons_solid hysolid, solids_append, solids_cons_solid hx]
      simp
    have hlist : front ++ y :: mid ++ x :: right = front ++ (y :: (mid ++ [x]) ++ right) := by simp
    rw [rearranged, hitems, hlist, fillSignificant_append rfl, fillSignificant_solids, fillSignificant_append hlen,
      fillSignificant_solids, fillSignificant_cons_solid hysolid, List.cons_append]
  · refine ⟨left, right, ?_, rfl, List.prefix_refl _⟩
    have hitems := moveItem_ahead (solids left) [] x (solids right)
    rw [List.length_nil, Nat.add_zero, List.nil_append, List.nil_append, ← hsolids] at hitems
    rw [rearranged, hitems, fillSignificant_solids]

section

variable {y : Node} (hy : y.isWhitespace = false) (mid rest : List Node)
include hy

theorem passed_down : passed (left ++ x :: (mid ++ y :: rest)) (solids left).length
    ((solids left).length + (solids mid).length + 1) = mid ++ [y] := by
  have hrank : (solids left).length + (solids mid).length + 1 = (solids (left ++ x :: mid)).length := by
    rw [solids_append, solids_cons_solid hx, List.length_append, List.length_cons, Nat.add_assoc]
  have hindex : (significant (left ++ x :: (mid ++ y :: rest))).getD (solids (left ++ x :: mid)).length 0 =
      (left ++ x :: mid).length := by
    rw [← List.cons_append, ← List.append_assoc, getD_significant hy]
  have hlist : left ++ x :: (mid ++ y :: rest) = (left ++ [x]) ++ (mid ++ [y]) ++ rest := by simp
  have hfirst : left.length + 1 = (left ++ [x]).length := by simp
  have hlast : (left ++ x :: mid).length + 1 = ((left ++ [x]) ++ (mid ++ [y])).length := by
    simp
    omega
  rw [passed, hrank, hindex, getD_significant hx, hlist, hlast, List.take_left, hfirst, List.drop_left]

theorem rearranged_down : rearranged (left ++ x :: (mid ++ y :: rest)) (solids left).length
    ((solids left).length + (solids mid).length + 1) =
      left ++ (fillSignificant (x :: mid) (solids mid ++ [y]) ++ x :: rest) := by
  have hsolids : solids (left ++ x :: (mid ++ y :: rest)) =
      solids left ++ x :: ((solids mid ++ [y]) ++ solids rest) := by
    rw [solids_append, solids_cons_solid hx, solids_append, solids_cons_solid hy]
    simp
  have hitems : moveItem (solids (left ++ x :: (mid ++ y :: rest))) (solids left).length
      ((solids left).length + (solids mid).length + 1) = solids left ++ ((solids mid ++ [y]) ++ x :: solids rest) := by
    have := moveItem_behind (solids left) x (solids mid ++ [y]) (solids rest)
    rwa [List.length_append, List.length_singleton, ← Nat.add_assoc, ← hsolids] at this
  have hlen : (solids mid ++ [y]).length = (solids (x :: mid)).length := by
    rw [solids_cons_solid hx]
    simp
  have hlist : left ++ x :: (mid ++ y :: rest) = left ++ (x :: mid ++ y :: rest) := by simp
  rw [rearranged, hitems, hlist, fillSignificant_append rfl, fillSignificant_solids, fillSignificant_append hlen,
    fillSignificant_cons_solid hy, fillSignificant_solids]

end

/-- A node that is moved down has what was before it and what it went past before it. -/
theorem split_down {j : Nat} (hi : (solids left).length < j) (hj : j < (solids (left ++ x :: right)).length) :
    ∃ left' right', rearranged (left ++ x :: right) (solids left).length j = left' ++ x :: right' ∧
      (solids left').length = j ∧
      ∀ n, n ∈ left' ↔ n ∈ left ∨ n ∈ passed (left ++ x :: right) (solids left).length j := by
  obtain ⟨k, rfl⟩ := Nat.exists_eq_add_of_lt hi
  rw [solids_append, solids_cons_solid hx, List.length_append, List.length_cons] at hj
  obtain ⟨y, hy⟩ : ∃ y, (solids right)[k]? = some y := ⟨_, List.getElem?_eq_getElem (by omega)⟩
  have hysolid := solid_of_mem_solids (List.mem_of_getElem? hy)
  obtain ⟨mid, rest, rfl, rfl⟩ := split_at_rank hy
  have hlen : (solids mid ++ [y]).length = (solids (x :: mid)).length := by
    rw [solids_cons_solid hx]
    simp
  have hsolid : ∀ n ∈ solids mid ++ [y], n.isWhitespace = false := List.forall_mem_append.mpr
    ⟨fun n hn => solid_of_mem_solids hn, List.forall_mem_singleton.mpr hysolid⟩
  refine ⟨left ++ fillSignificant (x :: mid) (solids mid ++ [y]), rest, ?_, ?_, fun n => ?_⟩
  · rw [rearranged_down hx hysolid, List.append_assoc]
  · rw [solids_append, solids_fillSignificant hlen hsolid]
    simp [Nat.add_assoc]
  · -- White space stays between the two, and what is no white space there only moves up by one place.
    have hmid : n ∈ mid ↔ n ∈ mid ∧ n.isWhitespace = true ∨ n ∈ solids mid := by
      rw [solids, List.mem_filter]
      cases n.isWhitespace <;> simp
    have hne : ¬(n = x ∧ n.isWhitespace = true) := by
      rintro ⟨rfl, hblank⟩
      exact Bool.false_ne_true (hx.symm.trans hblank)
    rw [passed_down hx hysolid, List.mem_append, mem_fillSignificant_iff hlen, List.mem_append, List.mem_append,
      List.mem_cons]
    grind

end

/-! ## An element found among other siblings -/

section

open Path

variable {tree m x : Node} {p : Path} {id : String} {left right left' right' : List Node}
  (hm : tree.get? p = some m) (hk : m.kind.isMarkup = true)
  (h : tree.findId id = .ok (some ⟨p, left.length, x⟩))

include hm hk h

/-- With other siblings around it, an element is found again if the search for it can look at all that is before it
among these and below them, and none of that has the identity. -/
theorem found_among (hleft : ∀ n ∈ within left', n.Legible ∧ n.identity? ≠ some id) :
    (tree.modifyChildren (fun _ => left' ++ x :: right') p).findId id = .ok (some ⟨p, left'.length, x⟩) := by
  obtain ⟨-, hid, hbefore⟩ := findId_eq_some.mp h
  have hm' := get?_modifyChildren (fun _ => left' ++ x :: right') p tree
  rw [hm, Option.map_some] at hm'
  refine findId_eq_some.mpr ⟨mem_visits hm' (by simp), hid, fun u hu hprec => ?_⟩
  rcases mem_visits_modifyChildren hm hk _ hu with hu | ⟨u', hu', hpath, hne, halike⟩
  · obtain ⟨j, c, q, -, hq, -⟩ := path_of_visitsIn hu
    rw [hq] at hprec
    exact hleft u.node (mem_within_of_visitsIn hu hq (precedes_child_iff.mp hprec))
  · rw [← hpath] at hprec
    obtain ⟨hlegible, hother⟩ := hbefore u' hu' ((precedes_child_congr hne _ _).mp hprec)
    exact ⟨halike.legible hlegible, by rwa [← halike.identity?_eq]⟩

/-- If one element alone has the identity and there is a node before it now that the search cannot look at, the search
fails. -/
theorem search_fails_among (hunique : tree.UniqueIdentities)
    (hcs : total (carries id) (left' ++ x :: right') = total (carries id) m.children)
    (hleft : ¬∀ n ∈ within left', n.Legible) :
    ∃ f, (tree.modifyChildren (fun _ => left' ++ x :: right') p).findId id = .error f := by
  obtain ⟨-, hid, -⟩ := findId_eq_some.mp h
  obtain ⟨n, hn, hbad⟩ := by simpa using hleft
  have hm' := get?_modifyChildren (fun _ => left' ++ x :: right') p tree
  rw [hm, Option.map_some] at hm'
  have htally : tally (carries id) (tree.modifyChildren (fun _ => left' ++ x :: right') p).under ≤ 1 := by
    have hsame := tally_under_modifyChildren (carries id) hk hm (left' ++ x :: right')
    rw [hcs] at hsame
    have := hunique.tally_le id
    omega
  obtain ⟨u, hu, rfl, i, q, hi, hq⟩ := exists_visit_within hm' (children_withChildren _ _) hn
  have hv : (⟨p, left'.length, x⟩ : Visit) ∈ (tree.modifyChildren (fun _ => left' ++ x :: right') p).visits :=
    mem_visits hm' (by simp)
  refine findId_error hv hid (fun w hw hwid => visit_unique htally hw hv hwid ?_) hu ?_ hbad
  · exact (findId_some h).identity?_eq
  · rw [hq]
    exact precedes_child_iff.mpr hi

end

end JsxEdit.Edit

namespace JsxEdit

/-- The edit succeeded and led to the tree. -/
def Reply.Gives (r : Reply) (tree : Node) : Prop := r.Succeeds ∧ r.tree = tree

end JsxEdit

namespace JsxEdit.Edit
open Node

/-! ## Moves taken back -/

theorem modifyChildren_modifyChildren (tree : Node) (p : Path) (as bs : List Node) :
    (tree.modifyChildren (fun _ => as) p).modifyChildren (fun _ => bs) p = tree.modifyChildren (fun _ => bs) p := by
  cases hm : tree.get? p with
  | none => simp only [modifyChildren, modify_of_get?_none _ hm]
  | some m =>
    have hm' := get?_modifyChildren (fun _ => as) p tree
    rw [hm, Option.map_some] at hm'
    have htree := modify_eq_set (fun k => k.withChildren as) hm
    rw [modifyChildren, modify_eq_set _ hm', modifyChildren, htree, set_set, modifyChildren, modify_eq_set _ hm]
    cases m
    rfl

theorem modifyChildren_self {tree m : Node} {p : Path} (hm : tree.get? p = some m) :
    tree.modifyChildren (fun _ => m.children) p = tree := by
  rw [modifyChildren, modify_eq_set _ hm, withChildren_children, set_self hm]

namespace Among

variable {tree : Node} {id : String} {v : Visit} {left right : List Node} (h : Among tree id v left right)
include h

theorem exists_parent : ∃ m, tree.get? v.parent = some m ∧ m.kind.isMarkup = true ∧
    m.children = Edit.siblings tree v := by
  have hp := h.place
  rw [isMarkupPlace] at hp
  cases hm : tree.get? v.parent with
  | none =>
    rw [hm] at hp
    cases hp
  | some m =>
    rw [hm] at hp
    exact ⟨m, rfl, hp, by rw [Edit.siblings, hm]; rfl⟩

theorem visit_eq : v = ⟨v.parent, left.length, v.node⟩ := by rw [← h.index]

/-- After a move to a rank, what comes before the element among its siblings came before it or was gone past. -/
theorem split_rearranged {j : Nat} (hj : j < (solids (Edit.siblings tree v)).length) : ∃ left' right',
    rearranged (Edit.siblings tree v) (solids left).length j = left' ++ v.node :: right' ∧
      (solids left').length = j ∧
      (∀ n ∈ left', n ∈ left ∨ n ∈ passed (Edit.siblings tree v) (solids left).length j) ∧
      ∀ n ∈ passed (Edit.siblings tree v) (solids left).length j, n ∈ left' := by
  rw [h.siblings] at hj ⊢
  rcases Nat.lt_or_ge (solids left).length j with hlt | hle
  · obtain ⟨left', right', hsplit, hlen, hmem⟩ := split_down h.solid hlt hj
    exact ⟨left', right', hsplit, hlen, fun n => (hmem n).mp, fun n hn => (hmem n).mpr (.inr hn)⟩
  · obtain ⟨left', right', hsplit, hlen, hpre⟩ := split_up h.solid hle
    rw [passed_up h.solid hle]
    exact ⟨left', right', hsplit, hlen, fun n hn => .inl (hpre.subset hn), List.forall_mem_nil _⟩

/-- The tree with the element moved to another rank among its siblings. -/
theorem after_move {j : Nat} (hj : j < (solids (Edit.siblings tree v)).length) {tree' : Node}
    (htree : tree' = tree.modifyChildren
      (fun _ => rearranged (Edit.siblings tree v) (solids left).length j) v.parent)
    (hpassed : ∀ n ∈ within (passed (Edit.siblings tree v) (solids left).length j),
      n.Legible ∧ n.identity? ≠ some id) : ∃ v' left' right', Among tree' id v' left' right' ∧
        (solids left').length = j ∧ (solids (Edit.siblings tree' v')).length = (solids (Edit.siblings tree v)).length ∧
        tree'.modifyChildren (fun _ => rearranged (Edit.siblings tree' v') j (solids left).length) v'.parent =
          tree := by
  obtain ⟨m, hm, hk, hc⟩ := h.exists_parent
  obtain ⟨left', right', hsplit, hlen, hmem, -⟩ := h.split_rearranged hj
  have hfound := h.found
  rw [h.visit_eq] at hfound
  have hm' := get?_modifyChildren (fun _ => rearranged (Edit.siblings tree v) (solids left).length j) v.parent tree
  rw [hm, Option.map_some, ← htree] at hm'
  have hs : Edit.siblings tree' ⟨v.parent, left'.length, v.node⟩ =
      rearranged (Edit.siblings tree v) (solids left).length j := by
    rw [Edit.siblings, hm']
    exact children_withChildren _ _
  refine ⟨⟨v.parent, left'.length, v.node⟩, left', right', ⟨?_, ?_, hs.trans hsplit, rfl, h.solid⟩, hlen, ?_, ?_⟩
  · have hpast : ∀ n ∈ within left, n.Legible ∧ n.identity? ≠ some id := by
      intro n hn
      obtain ⟨u, hu, rfl, i, q, hi, hq⟩ := exists_visit_within hm (hc.trans h.siblings) hn
      refine (findId_eq_some.mp hfound).2.2 u hu ?_
      rw [hq]
      exact Path.precedes_child_iff.mpr hi
    rw [htree, hsplit]
    exact found_among hm hk hfound (forall_within.mpr fun n hn =>
      (hmem n hn).elim (forall_within.mp hpast n) (forall_within.mp hpassed n))
  · rw [isMarkupPlace, hm', Option.any_some, kind_withChildren]
    exact hk
  · rw [hs, length_solids_rearranged h.solids_at hj]
  · rw [hs, rearranged_back h.solids_at hj, htree, modifyChildren_modifyChildren, ← hc]
    exact modifyChildren_self hm

/-- After a move past something that a search cannot look at, the only element with the identity is not found. -/
theorem lost_after_move {j : Nat} (hj : j < (solids (Edit.siblings tree v)).length) {tree' : Node}
    (htree : tree' = tree.modifyChildren
      (fun _ => rearranged (Edit.siblings tree v) (solids left).length j) v.parent)
    (hunique : tree.UniqueIdentities)
    (hpassed : ¬∀ n ∈ within (passed (Edit.siblings tree v) (solids left).length j), n.Legible) :
    ∃ f, ∀ go, (withMovable tree' id go).result = .error f := by
  obtain ⟨m, hm, hk, hc⟩ := h.exists_parent
  obtain ⟨left', right', hsplit, -, -, hmem⟩ := h.split_rearranged hj
  have hfound := h.found
  rw [h.visit_eq] at hfound
  have htotal : total (carries id) (rearranged (Edit.siblings tree v) (solids left).length j) =
      total (carries id) m.children := by
    have hperm := moveItem_perm (solids left).length hj
    have hfill := total_fillSignificant (carries id) hperm.length_eq
    rw [total_perm _ hperm] at hfill
    rw [hc]
    exact Nat.add_right_cancel hfill
  rw [hsplit] at htotal htree
  obtain ⟨f, hf⟩ := search_fails_among hm hk hfound hunique htotal fun hall =>
    hpassed (forall_within.mpr fun n hn => forall_within.mp hall n (hmem n hn))
  refine ⟨f, fun go => ?_⟩
  rw [withMovable, htree, hf]
  rfl

/-- Among what an element goes past there is no other with its identity, if no two elements have the same. -/
theorem other_identity (hunique : tree.UniqueIdentities) {j : Nat} :
    ∀ n ∈ within (passed (Edit.siblings tree v) (solids left).length j), n.identity? ≠ some id := by
  obtain ⟨m, hm, hk, hc⟩ := h.exists_parent
  have hle := tally_under_modifyChildren (carries id) hk hm []
  have hone := hunique.tally_le id
  have hself : total (carries id) [v.node] ≠ 0 := fun hzero =>
    total_carries_zero.mp hzero v.node
      (mem_within List.mem_cons_self (by rw [within_singleton]; exact List.mem_cons_self))
      (findId_some h.found).identity?_eq
  rw [hc, h.siblings, total_append, total_cons] at hle
  have hright : total (carries id) right = 0 := by
    rw [total_nil] at hle
    omega
  have hothers := forall_within.mp (total_carries_zero.mp hright)
  refine forall_within.mpr fun n hn => hothers n ?_
  rw [h.siblings] at hn
  exact mem_of_mem_passed h.solid hn

/-- A move up is taken back by a move down. -/
theorem moveUp_back (hleft : solids left ≠ []) : (moveDown (moveUp tree id).tree id).Gives tree := by
  have hpos := List.length_pos_iff.mpr hleft
  have hlen : (solids left).length < (solids (Edit.siblings tree v)).length := by
    rw [h.solids_eq, List.length_append, List.length_cons]
    omega
  have hpassed : passed (Edit.siblings tree v) (solids left).length ((solids left).length - 1) = [] := by
    rw [h.siblings, passed_up h.solid (by omega)]
  obtain ⟨v', left', right', h', hrank, hcount, hback⟩ := h.after_move (j := (solids left).length - 1) (by omega)
    (h.moveUp_eq hleft).2 (by rw [hpassed]; exact List.forall_mem_nil _)
  have hright : solids right' ≠ [] := by
    rintro hnil
    rw [h'.solids_eq, hnil, List.length_append, List.length_singleton, hrank] at hcount
    omega
  obtain ⟨hsucceeds, htree⟩ := h'.moveDown_eq hright
  refine ⟨hsucceeds, htree.trans ?_⟩
  rw [hrank, Nat.sub_add_cancel hpos]
  exact hback

section

variable (hright : solids right ≠ [])
include hright

theorem lt_of_right : (solids left).length + 1 < (solids (Edit.siblings tree v)).length := by
  have := List.length_pos_iff.mpr hright
  rw [h.solids_eq, List.length_append, List.length_cons]
  omega

/-- A move down is taken back by a move up, if the search can look at what the element went past and finds nothing of
that instead. -/
theorem moveDown_back (hpassed : ∀ n ∈ within (passed (Edit.siblings tree v) (solids left).length
    ((solids left).length + 1)), n.Legible ∧ n.identity? ≠ some id) :
    (moveUp (moveDown tree id).tree id).Gives tree := by
  obtain ⟨v', left', right', h', hrank, -, hback⟩ :=
    h.after_move (h.lt_of_right hright) (h.moveDown_eq hright).2 hpassed
  have hleft : solids left' ≠ [] := List.length_pos_iff.mp (by omega)
  obtain ⟨hsucceeds, htree⟩ := h'.moveUp_eq hleft
  refine ⟨hsucceeds, htree.trans ?_⟩
  rw [hrank, Nat.add_sub_cancel]
  exact hback

theorem moveDown_lost (hunique : tree.UniqueIdentities) (hpassed : ¬∀ n ∈ within (passed (Edit.siblings tree v)
    (solids left).length ((solids left).length + 1)), n.Legible) :
    ∃ f, (moveUp (moveDown tree id).tree id).result = .error f := by
  obtain ⟨f, hf⟩ := h.lost_after_move (h.lt_of_right hright) (h.moveDown_eq hright).2 hunique hpassed
  exact ⟨f, hf _⟩

end

section

variable {index back : Value Node} {j : Nat} (hj : indexOf? index = some (j : Int))
  (hlt : j < (solids (Edit.siblings tree v)).length)
include hj hlt

/-- A move to an index is taken back by a move to the old one, under the same condition. -/
theorem moveToIndex_back (hback : indexOf? back = some ((solids left).length : Int))
    (hpassed : ∀ n ∈ within (passed (Edit.siblings tree v) (solids left).length j),
      n.Legible ∧ n.identity? ≠ some id) : (moveToIndex (moveToIndex tree id index).tree id back).Gives tree := by
  have hi := (List.getElem?_eq_some_iff.mp h.solids_at).1
  obtain ⟨v', left', right', h', hrank, hcount, htree⟩ := h.after_move hlt (h.moveToIndex_tree hj hlt) hpassed
  rw [← hcount] at hi
  refine ⟨(h'.moveToIndex_succeeds hback).mpr ⟨Int.natCast_nonneg _, Int.ofNat_lt.mpr hi⟩, ?_⟩
  rw [h'.moveToIndex_tree hback hi, hrank]
  exact htree

theorem moveToIndex_lost (back : Value Node) (hunique : tree.UniqueIdentities)
    (hpassed : ¬∀ n ∈ within (passed (Edit.siblings tree v) (solids left).length j), n.Legible) :
    ∃ f, (moveToIndex (moveToIndex tree id index).tree id back).result = .error f := by
  obtain ⟨f, hf⟩ := h.lost_after_move hlt (h.moveToIndex_tree hj hlt) hunique hpassed
  exact ⟨f, hf _⟩

end

end Among

/-- An element with the identity, and its rank among its siblings that are no white space. -/
structure Ranked (tree : Node) (id : String) (v : Visit) (i : Nat) : Prop where
  found : tree.findId id = .ok (some v)
  rank : (solids ((siblings tree v).take v.index)).length = i

/-- The reply takes the tree back, if a search can look at these nodes and all that is below them; otherwise the search
fails. -/
structure TakesBack (r : Reply) (tree : Node) (past : List Node) : Prop where
  back : (∀ n ∈ within past, n.Legible) → r.Gives tree
  lost : (¬∀ n ∈ within past, n.Legible) → ∃ f, r.result = .error f

theorem Among.ranked {tree : Node} {id : String} {v : Visit} {left right : List Node} (h : Among tree id v left right) :
    Ranked tree id v (solids left).length :=
  ⟨h.found, by rw [h.siblings, h.index, List.take_left]⟩

/-- A move that succeeded has found an element inside markup. -/
theorem among_of_withMovable {tree : Node} {id : String} {go : Visit → Reply} (h : (withMovable tree id go).Succeeds) :
    ∃ v left right, Among tree id v left right := by
  rw [withMovable] at h
  split at h
  · exact absurd h (Reply.not_succeeds_fault _ _)
  · exact absurd h (Reply.not_succeeds_notFound _ _ _)
  · next v hv =>
    split at h
    · next hp => exact ⟨v, among_of_findId hv hp⟩
    · exact absurd h (Reply.not_succeeds_invalid _ _ _)

/-- A move up is taken back by a move down, also if other elements have the same identity. If no two elements have the
same identity, a move down is taken back by a move up, and a move to an index by a move to the old one: unless the
element went past something that the search cannot look at, which makes the second move fail. -/
theorem sibling_moves_taken_back (tree : Node) (id : String) :
    ((moveUp tree id).Succeeds → (moveDown (moveUp tree id).tree id).Gives tree) ∧
    (tree.UniqueIdentities →
      ((moveDown tree id).Succeeds → ∃ v i, Ranked tree id v i ∧
        TakesBack (moveUp (moveDown tree id).tree id) tree (passed (siblings tree v) i (i + 1))) ∧
      ∀ index, (moveToIndex tree id index).Succeeds → ∃ v i j, Ranked tree id v i ∧
        indexOf? index = some (Int.ofNat j) ∧ ∀ back, indexOf? back = some (Int.ofNat i) →
          TakesBack (moveToIndex (moveToIndex tree id index).tree id back) tree (passed (siblings tree v) i j)) := by
  refine ⟨fun hup => ?_, fun hunique => ⟨fun hdown => ?_, fun index hto => ?_⟩⟩
  · obtain ⟨v, left, right, h⟩ := among_of_withMovable hup
    exact h.moveUp_back fun hleft => h.moveUp_first hleft hup
  · obtain ⟨v, left, right, h⟩ := among_of_withMovable hdown
    have hright : solids right ≠ [] := fun hright => h.moveDown_last hright hdown
    exact ⟨v, _, h.ranked, fun hlegible => h.moveDown_back hright fun n hn =>
      ⟨hlegible n hn, h.other_identity hunique n hn⟩, h.moveDown_lost hright hunique⟩
  · obtain ⟨v, left, right, h⟩ := among_of_withMovable hto
    cases hj : indexOf? index with
    | none =>
      rw [moveToIndex, h.withMovable_eq, hj] at hto
      exact absurd hto (Reply.not_succeeds_invalid _ _ _)
    | some j =>
      obtain ⟨hnonneg, hlt⟩ := (h.moveToIndex_succeeds hj).mp hto
      obtain ⟨j, rfl⟩ := Int.eq_ofNat_of_zero_le hnonneg
      have hlt := Int.ofNat_lt.mp hlt
      exact ⟨v, _, j, h.ranked, rfl, fun back hback => ⟨fun hlegible => h.moveToIndex_back hj hlt hback fun n hn =>
        ⟨hlegible n hn, h.other_identity hunique n hn⟩, h.moveToIndex_lost hj hlt back hunique⟩⟩

set_option maxRecDepth 10000 in
theorem moves_taken_back_lines : (moveDown (moveUp lines "b").tree "b").Gives lines ∧
    (moveUp (moveDown lines "a").tree "a").Gives lines ∧
    (moveToIndex (moveToIndex lines "a" (.int 2)).tree "a" (.int 0)).Gives lines := by
  obtain ⟨hup, hunique⟩ := sibling_moves_taken_back lines "b"
  obtain ⟨-, hrest⟩ := sibling_moves_taken_back lines "a"
  obtain ⟨hdown, hto⟩ := hrest (by decide)
  have hfound : lines.findId "a" = .ok (some ⟨[.child 0], 1, Command.identified "li" "a" []⟩) := by rfl
  refine ⟨hup (by decide), ?_, ?_⟩
  · obtain ⟨v, i, ⟨hv, hi⟩, hback⟩ := hdown (by decide)
    cases hfound.symm.trans hv
    obtain rfl : 0 = i := hi
    exact hback.back (by decide)
  · obtain ⟨v, i, j, ⟨hv, hi⟩, hj, hback⟩ := hto (.int 2) (by decide)
    cases hfound.symm.trans hv
    obtain rfl : 0 = i := hi
    cases hj
    exact (hback (.int 0) rfl).back (by decide)

/-- A paragraph with an element before one that has an unreadable identity. -/
def blocked : Node := .new (.document none) [.element "p" [] [Command.identified "a" "x" [], unreadable]]

theorem uniqueIdentities_blocked : blocked.UniqueIdentities :=
  uniqueIdentities_around (blocked.descendants.take 4) (by rfl) (by decide)

set_option maxRecDepth 10000 in
/-- A move down past an unreadable identity is not taken back by a move up. -/
theorem move_down_not_taken_back : blocked.UniqueIdentities ∧ (moveDown blocked "x").Succeeds ∧
    ¬(moveUp (moveDown blocked "x").tree "x").Gives blocked := by
  have hamong : Among blocked "x" ⟨[.child 0], 0, Command.identified "a" "x" []⟩ [] [unreadable] :=
    ⟨by rfl, by rfl, by rfl, rfl, by rfl⟩
  have hright : solids [unreadable] ≠ [] := List.cons_ne_nil unreadable []
  refine ⟨uniqueIdentities_blocked, (hamong.moveDown_eq hright).1, fun hgives => ?_⟩
  obtain ⟨f, hf⟩ := hamong.moveDown_lost hright uniqueIdentities_blocked fun hlegible =>
    not_legible_unreadable (hlegible unreadable (List.mem_cons_self))
  obtain ⟨o, ho, -⟩ := hgives.1
  rw [hf] at ho
  cases ho

end JsxEdit.Edit
